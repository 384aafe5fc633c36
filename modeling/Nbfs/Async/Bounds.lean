import Nbfs.Async.Write
import Mathlib.Algebra.Order.Group.Nat
import Mathlib.Data.Nat.ModEq

set_option autoImplicit false

/-!
# The io units of a range

`__get_page_parameters` and the size of the buffer of a request are computed modulo 2^64.
They are exact where nothing wraps: the end of the range, the one that is subtracted for
its last byte, and the size of the buffer.
-/

namespace Nbfs.Async

open Nbfs.Lib

variable {bs : Blobstore} {offset length k : Nat}

theorem Blobstore.ioUnitSize_pos (bs : Blobstore) : 0 < bs.ioUnitSize := Nat.two_pow_pos _

/-- How many io units have a byte of the range. -/
def Blobstore.unitCount (bs : Blobstore) (offset length : Nat) : Nat :=
  if length = 0 then 0 else (offset + length - 1) / bs.ioUnitSize + 1 - offset / bs.ioUnitSize

theorem Blobstore.unitCount_pos (hpos : 0 < length) : bs.unitCount offset length =
    (offset + length - 1) / bs.ioUnitSize + 1 - offset / bs.ioUnitSize :=
  if_neg (Nat.ne_of_gt hpos)

/-- These are the units from that of the first byte on. -/
theorem Blobstore.mem_units :
    (∃ p, offset ≤ p ∧ p < offset + length ∧ p / bs.ioUnitSize = k) ↔
      offset / bs.ioUnitSize ≤ k ∧ k < offset / bs.ioUnitSize + bs.unitCount offset length := by
  have hunit := bs.ioUnitSize_pos
  rcases Nat.eq_zero_or_pos length with rfl | hpos
  · rw [unitCount, if_pos rfl]
    constructor
    · rintro ⟨p, hle, hlt, -⟩
      omega
    · rintro ⟨hle, hlt⟩
      omega
  rw [unitCount_pos hpos]
  have hmono : offset / bs.ioUnitSize ≤ (offset + length - 1) / bs.ioUnitSize :=
    Nat.div_le_div_right (by omega)
  constructor
  · rintro ⟨p, hle, hlt, rfl⟩
    have hfirst : offset / bs.ioUnitSize ≤ p / bs.ioUnitSize := Nat.div_le_div_right hle
    have hlast : p / bs.ioUnitSize ≤ (offset + length - 1) / bs.ioUnitSize :=
      Nat.div_le_div_right (by omega)
    omega
  · rintro ⟨hfirst, hlast⟩
    rcases Nat.eq_or_lt_of_le hfirst with heq | hlt
    · exact ⟨offset, Nat.le_refl _, by omega, heq⟩
    · refine ⟨k * bs.ioUnitSize, ?_, ?_, Nat.mul_div_cancel _ hunit⟩
      · exact Nat.le_of_lt ((Nat.div_lt_iff_lt_mul hunit).mp hlt)
      · have hle : k * bs.ioUnitSize ≤ offset + length - 1 :=
          (Nat.le_div_iff_mul_le hunit).mp (by omega)
        omega

/-- Every unit has a byte. -/
theorem Blobstore.unitCount_le : bs.unitCount offset length ≤ length := by
  have hunit := bs.ioUnitSize_pos
  rcases Nat.eq_zero_or_pos length with rfl | hpos
  · exact Nat.le_of_eq (if_pos rfl)
  rw [unitCount_pos hpos]
  have hfirst : offset < (offset / bs.ioUnitSize + 1) * bs.ioUnitSize :=
    Nat.lt_mul_of_div_lt (Nat.lt_succ_self _) hunit
  have hlast : (offset + length - 1) / bs.ioUnitSize < offset / bs.ioUnitSize + length := by
    rw [Nat.div_lt_iff_lt_mul hunit]
    calc offset + length - 1
        < (offset / bs.ioUnitSize + 1) * bs.ioUnitSize + (length - 1) := by omega
      _ ≤ (offset / bs.ioUnitSize + 1) * bs.ioUnitSize + (length - 1) * bs.ioUnitSize :=
          Nat.add_le_add_left (Nat.le_mul_of_pos_right _ hunit) _
      _ = (offset / bs.ioUnitSize + length) * bs.ioUnitSize := by
          rw [← Nat.add_mul]
          congr 1
          omega
  omega

/-- The units end at the first whole number of units past the range. -/
theorem Blobstore.units_end (hpos : 0 < length) :
    offset / bs.ioUnitSize * bs.ioUnitSize + bs.unitCount offset length * bs.ioUnitSize =
      ((offset + length - 1) / bs.ioUnitSize + 1) * bs.ioUnitSize := by
  have hmono : offset / bs.ioUnitSize ≤ (offset + length - 1) / bs.ioUnitSize :=
    Nat.div_le_div_right (by omega)
  rw [unitCount_pos hpos, ← Nat.add_mul]
  congr 1
  omega

/-! ### `__get_page_parameters` -/

/-- A range that does not pass 2^64. -/
theorem numLba_exact (hpos : 0 < length) (hlt : length < 2 ^ 64) (hend : offset + length ≤ 2 ^ 64) :
    (getPageParameters bs offset length).2 = bs.unitCount offset length := by
  have hcount : bs.unitCount offset length ≤ length := bs.unitCount_le
  rw [Blobstore.unitCount_pos hpos] at hcount ⊢
  have hmod : (offset + length + 2 ^ 64 - 1) % 2 ^ 64 = offset + length - 1 := by omega
  have hmono : offset / bs.ioUnitSize ≤ (offset + length - 1) / bs.ioUnitSize :=
    Nat.div_le_div_right (by omega)
  simp only [getPageParameters, hmod]
  omega

/-- No bytes. -/
theorem numLba_empty (hoffset : offset < 2 ^ 64) : (getPageParameters bs offset 0).2 = 0 ↔
    bs.ioUnitSize ∣ offset ∧ (offset = 0 → bs.ioUnitSize = 1) := by
  have hunit := bs.ioUnitSize_pos
  rcases Nat.eq_zero_or_pos offset with rfl | hpos
  · have hall : (0 + 0 + 2 ^ 64 - 1) % 2 ^ 64 = 2 ^ 64 - 1 := by decide
    simp only [getPageParameters, hall, Nat.zero_div, Nat.dvd_zero, true_and, forall_const]
    constructor
    · intro hzero
      have hfull : 2 ^ 64 - 1 ≤ (2 ^ 64 - 1) / bs.ioUnitSize := by
        generalize (2 ^ 64 - 1) / bs.ioUnitSize = last at hzero
        omega
      have hmul := (Nat.le_div_iff_mul_le hunit).mp hfull
      by_contra hone
      have htwo : 2 ≤ bs.ioUnitSize := by omega
      exact absurd ((Nat.mul_le_mul_left (2 ^ 64 - 1) htwo).trans hmul) (by decide)
    · intro hone
      rw [hone]
      decide
  · obtain ⟨before, rfl⟩ := Nat.exists_eq_add_of_lt hpos
    rw [Nat.zero_add] at hoffset ⊢
    have hmod : (before + 1 + 0 + 2 ^ 64 - 1) % 2 ^ 64 = before := by omega
    simp only [getPageParameters, hmod, Nat.succ_div]
    have hle : before / bs.ioUnitSize ≤ before := Nat.div_le_self _ _
    split
    · rename_i hdvd
      exact iff_of_true (by omega) ⟨hdvd, nofun⟩
    · rename_i hdvd
      refine iff_of_false ?_ fun h => hdvd h.1
      omega

/-- Past 2^64 the first io units follow the last. -/
theorem numLba_wraps (hoffset : offset < 2 ^ 64) (hlt : length < 2 ^ 64)
    (hend : 2 ^ 64 < offset + length) (hshift : bs.ioUnitShift ≤ 64) :
    ((getPageParameters bs offset length).2 + 2 ^ 64 / bs.ioUnitSize) % 2 ^ 64 =
      bs.unitCount offset length % 2 ^ 64 := by
  have hpos : 0 < length := by omega
  have hmod : (offset + length + 2 ^ 64 - 1) % 2 ^ 64 = offset + length - 1 - 2 ^ 64 := by omega
  have hdvd : bs.ioUnitSize ∣ 2 ^ 64 := Nat.pow_dvd_pow 2 hshift
  have hsum : offset + length - 1 = offset + length - 1 - 2 ^ 64 + 2 ^ 64 := by omega
  have hsplit : (offset + length - 1) / bs.ioUnitSize =
      (offset + length - 1 - 2 ^ 64) / bs.ioUnitSize + 2 ^ 64 / bs.ioUnitSize :=
    (congrArg (· / bs.ioUnitSize) hsum).trans (Nat.add_div_of_dvd_left hdvd)
  have hmono : offset / bs.ioUnitSize ≤ (offset + length - 1) / bs.ioUnitSize :=
    Nat.div_le_div_right (by omega)
  have hfirst : offset / bs.ioUnitSize ≤ offset := Nat.div_le_self _ _
  rw [Blobstore.unitCount_pos hpos, hsplit]
  rw [hsplit] at hmono
  simp only [getPageParameters, hmod]
  generalize (offset + length - 1 - 2 ^ 64) / bs.ioUnitSize = last at *
  generalize 2 ^ 64 / bs.ioUnitSize = all at *
  generalize offset / bs.ioUnitSize = first at *
  omega

/-- The numbers of the range do not wrap: those of a whole request do where it ends an io unit
before 2^64, or starts past the first one; of no bytes, where `offset + 0 - 1` is the last byte
of another unit. -/
def UnitsFit (bs : Blobstore) (offset length : Nat) : Prop :=
  (length = 0 → bs.ioUnitSize ∣ offset ∧ (offset = 0 → bs.ioUnitSize = 1)) ∧
    (offset + length ≤ 2 ^ 64 ∧
        (offset < bs.ioUnitSize → 0 < length → offset + length + bs.ioUnitSize ≤ 2 ^ 64) ∨
      bs.ioUnitSize = 1)

instance (bs : Blobstore) (offset length : Nat) : Decidable (UnitsFit bs offset length) :=
  inferInstanceAs (Decidable (_ ∧ (_ ∨ _)))

/-- The count of the io units, and the size of the buffer. -/
def UnitsExact (bs : Blobstore) (offset length : Nat) : Prop :=
  (getPageParameters bs offset length).2 = bs.unitCount offset length ∧
    (getPageParameters bs offset length).2 * bs.ioUnitSize % 2 ^ 64 =
      bs.unitCount offset length * bs.ioUnitSize

theorem ioUnitSize_dvd (h : bs.ioUnitSize ≤ 2 ^ 64) : bs.ioUnitSize ∣ 2 ^ 64 :=
  Nat.pow_dvd_pow 2 ((Nat.pow_le_pow_iff_right (by decide)).mp h)

/-- A whole number of units below 2^64 leaves room for one more. -/
theorem units_room {n : Nat} (hdvd : bs.ioUnitSize ∣ n) (hlt : n < 2 ^ 64)
    (hunit : bs.ioUnitSize ≤ 2 ^ 64) : n + bs.ioUnitSize ≤ 2 ^ 64 := by
  obtain ⟨all, hall⟩ := ioUnitSize_dvd hunit
  obtain ⟨count, rfl⟩ := hdvd
  rw [hall] at hlt ⊢
  rw [← Nat.mul_succ]
  exact Nat.mul_le_mul_left _ (Nat.lt_of_mul_lt_mul_left hlt)

theorem unitsFit_of_exact (hoffset : offset < 2 ^ 64) (hlt : length < 2 ^ 64)
    (h : UnitsExact bs offset length) : UnitsFit bs offset length := by
  obtain ⟨hcount, hsize⟩ := h
  have hpositive := bs.ioUnitSize_pos
  rcases Nat.eq_zero_or_pos length with rfl | hpos
  · refine ⟨fun _ => (numLba_empty hoffset).mp (hcount.trans (if_pos rfl)), Or.inl ⟨?_, nofun⟩⟩
    exact Nat.le_of_lt hoffset
  refine ⟨fun hzero => absurd hzero (Nat.ne_of_gt hpos), ?_⟩
  have hsome : 0 < bs.unitCount offset length := by
    have hmono : offset / bs.ioUnitSize ≤ (offset + length - 1) / bs.ioUnitSize :=
      Nat.div_le_div_right (by omega)
    rw [Blobstore.unitCount_pos hpos]
    omega
  have hsmall : bs.unitCount offset length * bs.ioUnitSize < 2 ^ 64 := by
    rw [← hsize]
    exact Nat.mod_lt _ (by decide)
  have hunit : bs.ioUnitSize ≤ 2 ^ 64 :=
    (Nat.le_mul_of_pos_left _ hsome).trans (Nat.le_of_lt hsmall)
  rcases Nat.lt_or_ge (2 ^ 64) (offset + length) with hpast | hend
  · right
    have hwraps := numLba_wraps hoffset hlt hpast ((Nat.pow_le_pow_iff_right (by decide)).mp hunit)
    obtain ⟨all, hall⟩ := ioUnitSize_dvd hunit
    have hdiv : 2 ^ 64 / bs.ioUnitSize = all := by
      rw [hall, Nat.mul_div_cancel_left _ hpositive]
    rw [hcount, hdiv] at hwraps
    have hle : all ≤ 2 ^ 64 := hall ▸ Nat.le_mul_of_pos_left _ hpositive
    have hne : all ≠ 0 := by
      rintro rfl
      cases hall
    have hfull : all = 2 ^ 64 := by
      generalize bs.unitCount offset length = count at *
      omega
    rw [hfull] at hall
    exact Nat.eq_of_mul_eq_mul_right (by decide : 0 < 2 ^ 64) (hall.symm.trans (Nat.one_mul _).symm)
  · refine Or.inl ⟨hend, fun hfirst _ => ?_⟩
    have hunits := @Blobstore.units_end bs offset _ hpos
    rw [Nat.div_eq_of_lt hfirst, Nat.zero_mul, Nat.zero_add] at hunits
    have hroom := units_room (Nat.dvd_mul_left _ _) hsmall hunit
    have hin : offset + length - 1 < ((offset + length - 1) / bs.ioUnitSize + 1) * bs.ioUnitSize :=
      Nat.lt_mul_of_div_lt (Nat.lt_succ_self _) hpositive
    rw [← hunits] at hin
    omega

theorem unitsExact_of_fit (hoffset : offset < 2 ^ 64) (hlt : length < 2 ^ 64)
    (h : UnitsFit bs offset length) : UnitsExact bs offset length := by
  obtain ⟨hempty, hfit⟩ := h
  have hpositive := bs.ioUnitSize_pos
  rcases Nat.eq_zero_or_pos length with rfl | hpos
  · have hzero := (numLba_empty hoffset).mpr (hempty rfl)
    have hnone : bs.unitCount offset 0 = 0 := if_pos rfl
    rw [UnitsExact, hzero, hnone, Nat.zero_mul]
    exact ⟨rfl, rfl⟩
  have hle : bs.unitCount offset length ≤ length := bs.unitCount_le
  rcases hfit with ⟨hend, hfirst⟩ | hone
  · have hcount := @numLba_exact bs _ _ hpos hlt hend
    refine ⟨hcount, ?_⟩
    rw [hcount]
    refine Nat.mod_eq_of_lt ?_
    have hunits := @Blobstore.units_end bs offset _ hpos
    have hlast := Nat.div_mul_le_self (offset + length - 1) bs.ioUnitSize
    rw [Nat.succ_mul] at hunits
    rcases Nat.lt_or_ge offset bs.ioUnitSize with hstart | hstart
    · have hroom := hfirst hstart hpos
      omega
    · have hsome : 0 < offset / bs.ioUnitSize := Nat.div_pos hstart hpositive
      have hbefore := Nat.le_mul_of_pos_left bs.ioUnitSize hsome
      omega
  · have hmul : ∀ n, n * bs.ioUnitSize = n := fun n => hone ▸ Nat.mul_one n
    have hbound : (getPageParameters bs offset length).2 < 2 ^ 64 := Nat.mod_lt _ (by decide)
    have hcount : (getPageParameters bs offset length).2 = bs.unitCount offset length := by
      rcases Nat.lt_or_ge (2 ^ 64) (offset + length) with hpast | hend
      · have hshift : bs.ioUnitShift ≤ 64 := by
          refine (Nat.pow_le_pow_iff_right (by decide : 1 < 2)).mp ?_
          change bs.ioUnitSize ≤ _
          omega
        have hwraps := numLba_wraps hoffset hlt hpast hshift
        rw [hone, Nat.div_one, Nat.add_mod_right, Nat.mod_eq_of_lt hbound,
          Nat.mod_eq_of_lt (hle.trans_lt hlt)] at hwraps
        exact hwraps
      · exact numLba_exact hpos hlt hend
    refine ⟨hcount, ?_⟩
    rw [hcount, hmul]
    exact Nat.mod_eq_of_lt (hle.trans_lt hlt)

/-- When `__get_page_parameters` and the size of the buffer are exact. -/
theorem unitsExact_iff_fit (hoffset : offset < 2 ^ 64) (hlt : length < 2 ^ 64) :
    UnitsExact bs offset length ↔ UnitsFit bs offset length :=
  ⟨unitsFit_of_exact hoffset hlt, unitsExact_of_fit hoffset hlt⟩

end Nbfs.Async
