import Nbfs.Cache.ReadAhead

set_option autoImplicit false

/-!
# What a read returns

`spdk_file_read` copies a round out of a buffer, or has it read from the blob behind its back,
and waits for those reads at its end.  Whatever the file does in between, its payload has the
bytes of the file as they were when it was called.
-/

namespace Nbfs.Cache

open Nbfs.Lib
open Nbfs.Async (Blobstore Stage getPageParameters)

/-- A call of `spdk_file_read`: the `offset` of its next round, what it has put in its payload, by
position in the file, and the reads of the blob that it waits for. -/
structure Fetch where
  offset : Nat
  payload : Nat → Option UInt8
  subReads : List (Nat × Nat)

namespace Fetch

variable (f : Fetch)

/-- `length` bytes from `offset` on are put in the payload. -/
def put (offset length : Nat) (bytes : Nat → UInt8) : Fetch :=
  { f with
    payload := fun p =>
      if offset ≤ p ∧ p < offset + length then some (bytes (p - offset)) else f.payload p }

/-- A round of the loop. -/
def round (s : FileState) (final : Nat) (a : Answer) : Fetch :=
  if f.offset < final then
    let length := FileState.roundLength f.offset final
    let next := (f.offset + length) % 2 ^ 64
    match s.file.cache.findFilled f.offset with
    | none =>
        if a.request then
          { f with offset := next, subReads := (f.offset, length) :: f.subReads }
        else f
    | some b =>
        match s.file.cache.buffers b with
        | none => f
        | some buffer =>
            { f.put f.offset (FileState.readLen buffer f.offset length) fun k =>
                s.mem b (f.offset - buffer.offset + k) with offset := next }
  else f

end Fetch

/-- All that is kept for reads. -/
structure Served (bs : Blobstore) (s : FileState) : Prop where
  whole : Whole bs s
  aheads : Aheads s
  reached : Reached s

namespace Served

variable {bs : Blobstore} {s s' : FileState}

theorem step (h : Served bs s) (hunit : bs.ioUnitSize ∣ cacheBufferSize) {e : FileEvent × Answer}
    (hkeeps : KeepsBytes s e) (hstep : FileSteps bs s e s') :
    Served bs s' ∧ SameBytes s s' ∧ Forward s s' := by
  obtain ⟨hstepped, hsame⟩ := h.whole.step hunit hkeeps hstep
  have hweak : Heap False s :=
    { h.whole.heap with freed := False.elim, outstanding := False.elim }
  exact ⟨⟨hstepped, h.aheads.step h.whole hkeeps hstep, h.reached.step hweak h.whole.tail
    (h.aheads.keepsReach h.whole hkeeps) hstep⟩, hsame, h.whole.forward hkeeps hstep⟩

theorem initial (h : s.Initial bs) : Served bs s := ⟨.initial h, .initial h, .initial h⟩

end Served

/-- The filled buffer of a unit is found anywhere in it. -/
theorem Heap.findFilled_unit {clean : Prop} {s : FileState} (h : Heap clean s) {b : BufRef}
    {buffer : CacheBuffer} (hbuffer : s.file.cache.buffers b = some buffer) {o : Nat}
    (hin : buffer.offset ≤ o ∧ o < buffer.offset + cacheBufferSize)
    (hfilled : 0 < buffer.bytesFilled) : s.file.cache.findFilled o = some b := by
  have hsits := h.sits b buffer hbuffer
  unfold Present.findFilled
  cases hfind : s.file.cache.find o with
  | none => exact absurd hin (Present.find_none hfind hsits.listed hbuffer)
  | some c =>
      obtain ⟨-, other, hother, hle, hlt⟩ := Present.find_some hfind
      obtain rfl : c = b := h.distinct b buffer hbuffer c other hother
        (same_unit (h.sits c other hother).aligned hsits.aligned hle hlt hin.1 hin.2)
      simp [hbuffer, hfilled]

/-! ### One read -/

/-- The read of the blob is of bytes of one unit that are flushed, before the end of the read. -/
structure FileState.Asks (s : FileState) (final : Nat) (sub : Nat × Nat) : Prop where
  pos : 0 < sub.2
  flushed : sub.1 + sub.2 ≤ s.file.lengthFlushed
  final : sub.1 + sub.2 ≤ final
  unit : ∃ unit, cacheBufferSize ∣ unit ∧ unit ≤ sub.1 ∧ sub.1 + sub.2 ≤ unit + cacheBufferSize

/-- The read has the bytes up to its next round, or waits for them. -/
structure Fetched (start : FileState) (offset final : Nat) (s : FileState) (f : Fetch) : Prop where
  same : SameBytes start s
  bounds : offset ≤ f.offset ∧ f.offset ≤ final
  ends : final ≤ start.file.appendPos ∧ final + cacheBufferSize ≤ 2 ^ 64
  payload : ∀ p, offset ≤ p → p < f.offset → f.payload p = some (start.view p) ∨
    ∃ sub ∈ f.subReads, sub.1 ≤ p ∧ p < sub.1 + sub.2
  asks : ∀ sub ∈ f.subReads, s.Asks final sub

namespace Fetched

variable {bs : Blobstore} {start s s' : FileState} {a : Answer} {offset final : Nat} {f : Fetch}

theorem begins (hoffset : offset ≤ final) (hfinal : final ≤ start.file.appendPos)
    (hroom : final + cacheBufferSize ≤ 2 ^ 64) :
    Fetched start offset final start ⟨offset, fun _ => none, []⟩ where
  same := .refl start
  bounds := ⟨Nat.le_refl _, hoffset⟩
  ends := ⟨hfinal, hroom⟩
  payload := fun p hle hlt => absurd hlt (Nat.not_lt.mpr hle)
  asks := by simp

/-- A round for which no buffer is filled asks the blob for bytes that are flushed. -/
theorem roundAsks (h : Fetched start offset final s f) (hserved : Served bs s) {unit : Nat}
    (haligned : cacheBufferSize ∣ unit) (hle : unit ≤ f.offset)
    (hpos : 0 < FileState.roundLength f.offset final)
    (hend : f.offset + FileState.roundLength f.offset final ≤ final)
    (hunit : f.offset + FileState.roundLength f.offset final ≤ unit + cacheBufferSize)
    (hfind : s.file.cache.findFilled f.offset = none) :
    s.Asks final (f.offset, FileState.roundLength f.offset final) where
  pos := hpos
  flushed := by
    have hheap := hserved.whole.heap
    have hreached := h.same.appendPos
    have hends := h.ends.1
    have hlast : f.offset + FileState.roundLength f.offset final - 1 < s.file.lengthFlushed := by
      refine hserved.whole.backed.flushed_of_uncached (by omega) fun b buffer hbuffer hhas => ?_
      have hsits := hheap.sits b buffer hbuffer
      have hfilled := hsits.filled
      have hfirst := hhas.1
      have hlast := hhas.2
      have hsame : buffer.offset = unit := same_unit hsits.aligned haligned hfirst (by omega)
        (by omega) (by omega)
      rw [hheap.findFilled_unit hbuffer ⟨by omega, by omega⟩ (by omega)] at hfind
      cases hfind
    dsimp only
    omega
  final := hend
  unit := ⟨unit, haligned, hle, hunit⟩

/-- A round for which a buffer is filled copies the bytes of the file. -/
theorem roundCopies (h : Fetched start offset final s f) (hserved : Served bs s) {b : BufRef}
    {buffer : CacheBuffer} (hbuffer : s.file.cache.buffers b = some buffer)
    (hhas : buffer.offset ≤ f.offset ∧
      f.offset + FileState.roundLength f.offset final ≤ buffer.offset + buffer.bytesFilled)
    (hend : f.offset + FileState.roundLength f.offset final ≤ final) :
    Fetched start offset final s
      { f.put f.offset (FileState.roundLength f.offset final) fun k =>
          s.mem b (f.offset - buffer.offset + k) with
        offset := f.offset + FileState.roundLength f.offset final } where
  same := h.same
  bounds := ⟨h.bounds.1.trans (Nat.le_add_right _ _), hend⟩
  ends := h.ends
  payload := by
    intro p hle hlt
    dsimp only [Fetch.put] at hlt ⊢
    by_cases hin : f.offset ≤ p ∧ p < f.offset + FileState.roundLength f.offset final
    · have hends := h.ends.1
      rw [if_pos hin, ← h.same.view p (by omega),
        FileState.view_cached hserved.whole.heap hbuffer ⟨by omega, by omega⟩]
      refine Or.inl (congrArg some (congrArg (s.mem b) ?_))
      omega
    · rw [if_neg hin]
      exact h.payload p hle (by omega)
  asks := h.asks

theorem round (h : Fetched start offset final s f) (hserved : Served bs s) :
    Fetched start offset final s (f.round s final a) := by
  by_cases hlt : f.offset < final
  case neg =>
    unfold Fetch.round
    rwa [if_neg hlt]
  have hroom := h.ends.2
  obtain ⟨unit, haligned, hle, hoffset⟩ : ∃ unit, cacheBufferSize ∣ unit ∧ unit ≤ f.offset ∧
      f.offset < unit + cacheBufferSize := by
    refine ⟨f.offset / cacheBufferSize * cacheBufferSize, Nat.dvd_mul_left _ _,
      Nat.div_mul_le_self _ _, ?_⟩
    rw [← Nat.succ_mul]
    exact Nat.lt_mul_of_div_lt (Nat.lt_succ_self _) (by decide)
  obtain ⟨hsome, hend, hunit⟩ := Reached.roundLength_bounds hlt hroom haligned hle hoffset
  have hnext : (f.offset + FileState.roundLength f.offset final) % 2 ^ 64 =
      f.offset + FileState.roundLength f.offset final := Nat.mod_eq_of_lt (by omega)
  unfold Fetch.round
  rw [if_pos hlt]
  dsimp only
  rw [hnext]
  cases hfind : s.file.cache.findFilled f.offset with
  | none =>
      dsimp only
      split
      · have hasks := h.roundAsks hserved haligned hle hsome hend hunit hfind
        exact {
          same := h.same
          bounds := ⟨h.bounds.1.trans (Nat.le_add_right _ _), hend⟩
          ends := h.ends
          payload := by
            intro p hle hlt
            by_cases hin : f.offset ≤ p
            · exact Or.inr ⟨_, List.mem_cons_self, hin, hlt⟩
            · refine (h.payload p hle (Nat.not_le.mp hin)).imp_right fun ⟨sub, hsub, hhas⟩ => ?_
              exact ⟨sub, List.mem_cons_of_mem _ hsub, hhas⟩
          asks := List.forall_mem_cons.mpr ⟨hasks, h.asks⟩ }
      · exact h
  | some b =>
      obtain ⟨hfound, buffer, hbuffer, hfilled⟩ := Present.findFilled_some hfind
      obtain ⟨-, other, hother, hfirst, hlast⟩ := Present.find_some hfound
      obtain rfl := Option.some.inj (hbuffer.symm.trans hother)
      have hsits := hserved.whole.heap.sits b buffer hbuffer
      have hsame : unit = buffer.offset :=
        same_unit haligned hsits.aligned hle hoffset hfirst hlast
      have hcovers := hserved.reached.filled b buffer hbuffer hfilled
      have hreached := h.same.appendPos
      have hends := h.ends.1
      have hhas : f.offset + FileState.roundLength f.offset final ≤
          buffer.offset + buffer.bytesFilled := by
        unfold CacheBuffer.Covers at hcovers
        omega
      have hlen : FileState.readLen buffer f.offset (FileState.roundLength f.offset final) =
          FileState.roundLength f.offset final := by
        have hsize := hsits.filled
        unfold FileState.readLen
        rw [if_neg]
        rw [hnext, Nat.mod_eq_of_lt (by omega)]
        exact Nat.not_lt.mpr hhas
      dsimp only
      rw [hbuffer]
      dsimp only
      rw [hlen]
      exact h.roundCopies hserved hbuffer ⟨hfirst, hhas⟩ hend

end Fetched

end Nbfs.Cache
