import Mathlib.Data.List.Lex
import Mathlib.Order.Lattice

set_option autoImplicit false

/-!
# NUL-terminated strings

A C string is the bytes before its terminating NUL, so the bytes themselves are
nonzero.  `strcmp` walks two strings at once and subtracts the first pair of
bytes that differ, the terminating NUL counting as a byte of value zero; on
strings without an inner NUL its sign is the lexicographic order.
-/

namespace Nbfs.Lib

/-- The contents of a NUL-terminated `char` buffer. -/
structure CString where
  bytes : List UInt8
  nulFree : (0 : UInt8) ∉ bytes

namespace CString

theorem bytes_injective : Function.Injective bytes := by
  rintro ⟨a, _⟩ ⟨b, _⟩ h
  cases h
  rfl

/-- The empty string. -/
instance : Inhabited CString := ⟨⟨[], by simp⟩⟩

theorem ext_bytes {s t : CString} (h : s.bytes = t.bytes) : s = t :=
  bytes_injective h

/-- The byte values, as `strcmp` compares them (`unsigned char`). -/
def values (s : CString) : List Nat := s.bytes.map UInt8.toNat

theorem values_injective : Function.Injective values := fun _ _ h =>
  bytes_injective (List.map_injective_iff.mpr (fun _ _ => UInt8.toNat_inj.mp) h)

/-- Strings are ordered as their byte values are, lexicographically. -/
instance : LinearOrder CString := LinearOrder.lift' values values_injective

theorem lt_iff_values {s t : CString} : s < t ↔ s.values < t.values := Iff.rfl

/-- `strlen`. -/
def strlen (s : CString) : Nat := s.bytes.length

/-- `strcmp` on the bytes before the terminating NUL. -/
def cmpBytes : List UInt8 → List UInt8 → Int
  | [], [] => 0
  | [], b :: _ => -(b.toNat : Int)
  | a :: _, [] => (a.toNat : Int)
  | a :: as, b :: bs => if a = b then cmpBytes as bs else (a.toNat : Int) - b.toNat

/-- `strcmp`. -/
def strcmp (s t : CString) : Int := cmpBytes s.bytes t.bytes

theorem toNat_pos_of_ne_zero {b : UInt8} (h : (0 : UInt8) ≠ b) : 0 < b.toNat := by
  rcases Nat.eq_zero_or_pos b.toNat with hz | hp
  · exact absurd (UInt8.toNat_inj.mp (by simpa using hz.symm)) h
  · exact hp

theorem cmpBytes_eq_zero_iff : ∀ {as bs : List UInt8},
    (0 : UInt8) ∉ as → (0 : UInt8) ∉ bs → (cmpBytes as bs = 0 ↔ as = bs)
  | [], [], _, _ => by simp [cmpBytes]
  | [], b :: bs, _, hb => by
      have hpos := @toNat_pos_of_ne_zero b (fun h => hb (by simp [h]))
      simp only [cmpBytes, reduceCtorEq, iff_false]
      omega
  | a :: as, [], ha, _ => by
      have hpos := @toNat_pos_of_ne_zero a (fun h => ha (by simp [h]))
      simp only [cmpBytes, reduceCtorEq, iff_false]
      omega
  | a :: as, b :: bs, ha, hb => by
      have ih := @cmpBytes_eq_zero_iff as bs
        (fun h => ha (List.mem_cons_of_mem _ h)) (fun h => hb (List.mem_cons_of_mem _ h))
      by_cases hab : a = b
      · simp [cmpBytes, hab, ih]
      · have hne : a.toNat ≠ b.toNat := fun h => hab (UInt8.toNat_inj.mp h)
        rw [cmpBytes, if_neg hab]
        simp only [List.cons.injEq, hab, false_and, iff_false]
        omega

theorem cmpBytes_neg_iff : ∀ {as bs : List UInt8},
    (0 : UInt8) ∉ as → (0 : UInt8) ∉ bs →
      (cmpBytes as bs < 0 ↔ as.map UInt8.toNat < bs.map UInt8.toNat)
  | [], [], _, _ => by simp [cmpBytes]
  | [], b :: bs, _, hb => by
      have hpos := @toNat_pos_of_ne_zero b (fun h => hb (by simp [h]))
      simp only [cmpBytes, List.map_nil, List.map_cons, List.nil_lt_cons, iff_true]
      omega
  | a :: as, [], _, _ => by simp [cmpBytes]
  | a :: as, b :: bs, ha, hb => by
      have ih := @cmpBytes_neg_iff as bs
        (fun h => ha (List.mem_cons_of_mem _ h)) (fun h => hb (List.mem_cons_of_mem _ h))
      rw [List.map_cons, List.map_cons, List.cons_lt_cons_iff]
      by_cases hab : a = b
      · simp [cmpBytes, hab, ih]
      · have hne : a.toNat ≠ b.toNat := fun h => hab (UInt8.toNat_inj.mp h)
        rw [cmpBytes, if_neg hab]
        simp only [hne, false_and, or_false]
        omega

/-- `strcmp` returns zero exactly on equal strings. -/
theorem strcmp_eq_zero_iff {s t : CString} : strcmp s t = 0 ↔ s = t :=
  (cmpBytes_eq_zero_iff s.nulFree t.nulFree).trans bytes_injective.eq_iff

/-- `strcmp` is negative exactly when the first string comes first. -/
theorem strcmp_neg_iff {s t : CString} : strcmp s t < 0 ↔ s < t :=
  cmpBytes_neg_iff s.nulFree t.nulFree

/-- `strcmp` is at most zero exactly when the first string does not come after. -/
theorem strcmp_nonpos_iff {s t : CString} : strcmp s t ≤ 0 ↔ s ≤ t := by
  have hlt := @strcmp_neg_iff s t
  have heq := @strcmp_eq_zero_iff s t
  rw [le_iff_lt_or_eq (a := s), ← hlt, ← heq]
  omega

end CString

end Nbfs.Lib
