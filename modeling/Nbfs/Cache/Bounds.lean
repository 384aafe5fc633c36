import Nbfs.Async.Bounds
import Nbfs.Cache.FileState

set_option autoImplicit false

/-!
# The bounds of a request

Where a request ends is computed modulo 2^64, and compared with `append_pos` or `length`.
-/

namespace Nbfs.Cache

open Nbfs.Async (Blobstore Memory Stage UnitsExact UnitsFit unitsExact_iff_fit readvwritev
  rwLength getPageParameters EINVAL ENOMEM)

/-- The bounds of a request are as they would be without wrapping. -/
structure BoundsExact (bs : Blobstore) (s : FileState) (c : Async.Call) : Prop where
  /-- `spdk_file_read` stops at `append_pos`. -/
  syncRead : c.offset < s.file.appendPos → s.readableLength c.offset c.iov.length =
    min c.iov.length (s.file.appendPos - c.offset)
  /-- `spdk_file_read_async` refuses what passes the end of the file. -/
  asyncRead : ∀ mem, (∃ iov, readvwritev bs s.asyncFile { c with isRead := true } mem =
    .done (-EINVAL) iov) ↔ s.file.length < c.offset + c.iov.length
  /-- `spdk_file_write_async` makes the file longer if it passes its end. -/
  asyncWrite : s.file.length < c.last ↔ s.file.length < c.offset + c.iov.length
  numLba : (getPageParameters bs c.offset c.iov.length).2 = bs.unitCount c.offset c.iov.length
  pinBufLength : rwLength bs c = bs.unitCount c.offset c.iov.length * bs.ioUnitSize

/-- No number of the request wraps, or both of its ends are beyond the file. -/
def BoundsFit (bs : Blobstore) (s : FileState) (c : Async.Call) : Prop :=
  UnitsFit bs c.offset c.iov.length ∧ (c.offset + c.iov.length < 2 ^ 64 ∨
    s.file.appendPos ≤ c.offset ∧ s.file.length + 2 ^ 64 < c.offset + c.iov.length)

instance (bs : Blobstore) (s : FileState) (c : Async.Call) : Decidable (BoundsFit bs s c) :=
  inferInstanceAs (Decidable (_ ∧ (_ ∨ _)))

section bounds

variable {bs : Blobstore} {s : FileState} {c : Async.Call}

/-- Where the sum wraps, it is before the request. -/
theorem readableLength_iff (hlt : c.iov.length < 2 ^ 64) (hpos : s.file.appendPos < 2 ^ 64)
    (hbefore : c.offset < s.file.appendPos) :
    s.readableLength c.offset c.iov.length = min c.iov.length (s.file.appendPos - c.offset) ↔
      c.offset + c.iov.length < 2 ^ 64 := by
  unfold FileState.readableLength
  rcases Nat.lt_or_ge (c.offset + c.iov.length) (2 ^ 64) with hend | hend
  · rw [Nat.mod_eq_of_lt hend]
    refine iff_of_true ?_ hend
    split <;> omega
  · have hmod : (c.offset + c.iov.length) % 2 ^ 64 = c.offset + c.iov.length - 2 ^ 64 := by omega
    rw [hmod, if_neg (by omega)]
    exact iff_of_false (by omega) (by omega)

theorem last_iff (hoffset : c.offset < 2 ^ 64) (hlt : c.iov.length < 2 ^ 64)
    (hlength : s.file.length < 2 ^ 64) :
    (s.file.length < c.last ↔ s.file.length < c.offset + c.iov.length) ↔
      (c.offset + c.iov.length < 2 ^ 64 ∨ s.file.length + 2 ^ 64 < c.offset + c.iov.length) := by
  unfold Async.Call.last
  rcases Nat.lt_or_ge (c.offset + c.iov.length) (2 ^ 64) with hend | hend
  · rw [Nat.mod_eq_of_lt hend]
    exact iff_of_true Iff.rfl (Or.inl hend)
  · have hmod : (c.offset + c.iov.length) % 2 ^ 64 = c.offset + c.iov.length - 2 ^ 64 := by omega
    rw [hmod]
    omega

/-- A read is refused by its test, and by nothing else. -/
theorem refused_iff {mem : Memory} :
    (∃ iov, readvwritev bs s.asyncFile { c with isRead := true } mem = .done (-EINVAL) iov) ↔
      s.file.length < c.last := by
  have hne : -ENOMEM ≠ -EINVAL := by decide
  unfold readvwritev
  split
  · rename_i hpast
    exact iff_of_true ⟨_, rfl⟩ hpast.2
  rename_i hin
  refine iff_of_false ?_ fun hpast => hin ⟨rfl, hpast⟩
  rintro ⟨iov, hrefused⟩
  split at hrefused
  · exact hne (Stage.done.inj hrefused).1
  split at hrefused
  · exact hne (Stage.done.inj hrefused).1
  · cases hrefused

end bounds

/-- The bounds of a request are exact if and only if no number of it wraps, or both its ends are
beyond the file. -/
theorem boundsExact_iff {bs : Blobstore} {s : FileState} {c : Async.Call}
    (hoffset : c.offset < 2 ^ 64)
    (hlt : c.iov.length < 2 ^ 64) (hpos : s.file.appendPos < 2 ^ 64)
    (hlength : s.file.length < 2 ^ 64) : BoundsExact bs s c ↔ BoundsFit bs s c := by
  have hunits := @unitsExact_iff_fit bs _ _ hoffset hlt
  have hlast := last_iff (s := s) hoffset hlt hlength
  constructor
  · rintro ⟨hread, -, hwrite, hcount, hsize⟩
    refine ⟨hunits.mp ⟨hcount, hsize⟩, ?_⟩
    rcases hlast.mp hwrite with hend | hpast
    · exact Or.inl hend
    rcases Nat.lt_or_ge c.offset s.file.appendPos with hbefore | hbeyond
    · exact Or.inl ((readableLength_iff hlt hpos hbefore).mp (hread hbefore))
    · exact Or.inr ⟨hbeyond, hpast⟩
  · rintro ⟨hfit, hends⟩
    obtain ⟨hcount, hsize⟩ := hunits.mpr hfit
    have hdecides := hlast.mpr (hends.imp_right And.right)
    refine ⟨fun hbefore => ?_, fun mem => refused_iff.trans hdecides, hdecides, hcount, hsize⟩
    refine (readableLength_iff hlt hpos hbefore).mpr (hends.resolve_right fun h => ?_)
    exact Nat.not_lt.mpr h.1 hbefore

/-- The last byte of the first io unit, and the one after it. -/
theorem boundsExact_iff_two : BoundsExact oneMegabyte loadedByte ⟨true, 4095, [1, 2]⟩ ↔
    BoundsFit oneMegabyte loadedByte ⟨true, 4095, [1, 2]⟩ :=
  boundsExact_iff (by decide) (by decide) (by decide) (by decide)

/-- A read of the last two bytes below 2^64 is found to end at 0. -/
theorem boundsExact_wraps : ¬ ∀ (bs : Blobstore) (s : FileState) (c : Async.Call),
    c.offset < 2 ^ 64 →
    c.iov.length < 2 ^ 64 → s.file.appendPos < 2 ^ 64 → s.file.length < 2 ^ 64 →
      BoundsExact bs s c := by
  intro hall
  have hexact := hall oneMegabyte loadedByte ⟨true, 2 ^ 64 - 2, [1, 2]⟩ (by decide) (by decide)
    (by decide) (by decide)
  exact absurd hexact.asyncWrite (by decide)

end Nbfs.Cache
