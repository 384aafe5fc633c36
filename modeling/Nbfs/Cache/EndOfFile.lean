import Nbfs.Async.Bounds
import Nbfs.Cache.Writers

set_option autoImplicit false

/-!
# Where a file ends (`lib/NBFS/NBFS.c`)

The size of a file is the larger one of `append_pos` and `length`.  `spdk_file_read` ends
at the first of them, and `spdk_file_read_async` at the second.
-/

namespace Nbfs.Cache

open Nbfs.Lib
open Nbfs.Async (Blobstore Stage ENOMEM EINVAL)

/-! ### The size, and reads of it -/

/-- How the loop of `spdk_file_read` ended. -/
structure ReadEnd where
  finalLength : Nat
  /-- The sub-reads that it sent. -/
  subReads : List Async.Call
  /-- The `ret` that it broke off with, or 0. -/
  ret : Int

/-- What `spdk_file_read` returns, where its sub-reads called back with `errnos`: `arg.rwerrno`
keeps the first error that it is given, and `ret` replaces it. -/
def ReadEnd.returned (r : ReadEnd) (errnos : List Int) : Int :=
  let rwerrno := if r.ret ≠ 0 then r.ret else (errnos.find? fun e => decide (e ≠ 0)).getD 0
  if rwerrno = 0 then (r.finalLength : Int).bmod (2 ^ 64) else rwerrno

namespace FileState

variable (s : FileState)

/-- `spdk_file_get_length`. -/
def fileGetLength : Nat :=
  if s.file.length ≤ s.file.appendPos then s.file.appendPos else s.file.length

/-- `stat.size` of `spdk_fs_file_stat_async`. -/
def statSize : Nat :=
  if s.file.length ≤ s.file.appendPos then s.file.appendPos else s.file.length

/-- The loop of `spdk_file_read` with no other call in between, in `fuel` rounds at most. -/
def readLoop (answers : Nat → Answer) : Nat → FileState → Nat → Nat → Except Fault ReadEnd
  | 0, _, offset, finalOffset => if offset < finalOffset then .error .noEvent else .ok ⟨0, [], 0⟩
  | fuel + 1, s, offset, finalOffset =>
      if offset < finalOffset then do
        let length := roundLength offset finalOffset
        let next := (offset + length) % 2 ^ 64
        let after ← s.readRound offset finalOffset (answers fuel)
        -- what the round sent on is kept in the result
        let rest := { after with pending := s.pending }
        match s.file.cache.findFilled offset with
        | some _ => do
            let r ← readLoop answers fuel rest next finalOffset
            return { r with finalLength := r.finalLength + length }
        | none =>
            if (answers fuel).request then do
              let r ← readLoop answers fuel rest next finalOffset
              return { r with
                finalLength := r.finalLength + length
                subReads := ⟨true, offset, List.replicate length 0⟩ :: r.subReads }
            else .ok ⟨0, [], -ENOMEM⟩
      else .ok ⟨0, [], 0⟩

/-- `spdk_file_read` up to its waits, with no other call in between; `a` is for its readaheads. -/
def fileReadEnd (offset length : Nat) (a : Answer) (answers : Nat → Answer) :
    Except Fault ReadEnd :=
  if length = 0 ∨ s.file.appendPos ≤ offset then .ok ⟨0, [], 0⟩
  else do
    let length := s.readableLength offset length
    let s ← (s.sequential offset length).checkReadaheads offset a
    readLoop answers length s offset ((offset + length) % 2 ^ 64)

end FileState

/-- The allocations of a sub-read succeed. -/
def Granted (bs : Blobstore) (c : Async.Call) : Async.Event Unit → Prop
  | .submit _ mem => mem.request = true ∧ mem.malloc (Async.rwLength bs c) ≠ none
  | .complete _ _ => True

/-- A sub-read calls back with `rc`. -/
def SubReadEnds (bs : Blobstore) (f : Async.File) (c : Async.Call) (rc : Int) : Prop :=
  ∃ s iov, Runs (Async.Steps bs fun _ : Unit => c) (fun _ => Granted bs c) ⟨f, fun _ => .idle⟩ s ∧
    s.stage () = .done rc iov

/-- `spdk_file_read` returns `value`; its sub-reads call back in any order. -/
def FileReads (bs : Blobstore) (s : FileState) (offset length : Nat) (a : Answer)
    (answers : Nat → Answer) (value : Int) : Prop :=
  ∃ r calls errnos, s.fileReadEnd offset length a answers = .ok r ∧ calls.Perm r.subReads ∧
    List.Forall₂ (SubReadEnds bs s.asyncFile) calls errnos ∧ value = r.returned errnos

/-- The counters of the read do not wrap. -/
def ReadFits (s : FileState) (offset length : Nat) : Prop :=
  offset < s.fileGetLength → offset + length < 2 ^ 64 ∧
    min length (s.fileGetLength - offset) < 2 ^ 63

/-- Both sizes are the one at which reads end. -/
structure EndAgrees (bs : Blobstore) (s : FileState) : Prop where
  stat : s.statSize = s.fileGetLength
  read : ∀ offset length a answers, 0 < length → ReadFits s offset length →
    (∀ k, (answers k).request = true) →
      (∃ value, FileReads bs s offset length a answers value) ∧
        ∀ value, FileReads bs s offset length a answers value →
          value = (min length (s.fileGetLength - offset) : Nat)
  readAsync : ∀ offset iov mem, offset + iov.length ≤ s.fileGetLength →
    ∀ left, Async.readvwritev bs s.asyncFile ⟨true, offset, iov⟩ mem ≠ .done (-EINVAL) left

/-! ### Reads -/

/-- Filled buffers have what there is of their unit. -/
def Filled (s : FileState) : Prop :=
  ∀ b buffer, s.file.cache.buffers b = some buffer → 0 < buffer.bytesFilled →
    buffer.Covers s.file.appendPos

/-- A sub-read is for some bytes of a unit, up to `final`. -/
def SubRead (final : Nat) (c : Async.Call) : Prop :=
  c.isRead = true ∧ (0 < c.iov.length ∧ c.iov.length ≤ cacheBufferSize) ∧
    c.offset + c.iov.length ≤ final

theorem Trailing.filled {s : FileState} (h : Trailing s) : Filled s :=
  fun b buffer hbuffer _ => (h.buffers b buffer hbuffer).imp_right And.right

namespace FileState

variable {s s' : FileState} {a : Answer} {offset final : Nat}

/-- A round ends with the unit, or with the read. -/
theorem roundLength_eq (hlt : offset < final) (hfinal : final < 2 ^ 64) {unit : Nat}
    (hunit : cacheBufferSize ∣ unit) (hle : unit ≤ offset)
    (hoffset : offset < unit + cacheBufferSize) :
    roundLength offset final = min (unit + cacheBufferSize - offset) (final - offset) := by
  have hsize : cacheBufferSize = 2 ^ 18 := by decide
  have hnext : (nextCacheBufferOffset offset + 2 ^ 64 - offset) % 2 ^ 64 =
      unit + cacheBufferSize - offset := by
    unfold nextCacheBufferOffset
    rw [hsize] at hunit hoffset ⊢
    omega
  rw [roundLength, hnext]

theorem roundLength_some (hlt : offset < final) (hfinal : final < 2 ^ 64) :
    (0 < roundLength offset final ∧ roundLength offset final ≤ cacheBufferSize) ∧
      offset + roundLength offset final ≤ final := by
  have hpos : 0 < cacheBufferSize := by decide
  have hmod := Nat.mod_lt offset hpos
  have hdiv := Nat.div_add_mod offset cacheBufferSize
  rw [roundLength_eq hlt hfinal (Nat.dvd_mul_right cacheBufferSize (offset / cacheBufferSize))
    (by omega) (by omega)]
  omega

/-- What a round copies ends in its buffer. -/
theorem readLen_le {buffer : CacheBuffer} {length : Nat}
    (haligned : cacheBufferSize ∣ buffer.offset)
    (hbytes : buffer.bytesFilled ≤ cacheBufferSize) (hcovers : buffer.Covers s.file.appendPos)
    (hstart : buffer.offset ≤ offset) (hunit : offset + length ≤ buffer.offset + cacheBufferSize)
    (hend : offset + length ≤ s.file.appendPos) (hlt : offset + length < 2 ^ 64) :
    offset - buffer.offset + readLen buffer offset length ≤ cacheBufferSize := by
  have hsize : cacheBufferSize = 2 ^ 18 := by decide
  have htop : buffer.offset + cacheBufferSize ≤ 2 ^ 64 := by
    rw [hsize] at haligned ⊢
    omega
  unfold readLen
  rw [Nat.mod_eq_of_lt hlt]
  rcases Nat.lt_or_ge (buffer.offset + buffer.bytesFilled) (2 ^ 64) with hbelow | habove
  · rw [Nat.mod_eq_of_lt hbelow, if_neg ?_]
    · omega
    · rcases hcovers with hfull | hle
      · omega
      · omega
  · have hexact : buffer.offset + buffer.bytesFilled = 2 ^ 64 := by omega
    have hrest : (2 ^ 64 + 2 ^ 64 - offset) % 2 ^ 64 ≤ 2 ^ 64 - offset := by omega
    rw [hexact]
    split
    · omega
    · omega

/-- A round that finds a buffer copies from it, and may remove it. -/
theorem readRound_cached {b : BufRef} (hheap : Heap False s) (hfilled : Filled s)
    (hlt : offset < final) (hle : final ≤ s.file.appendPos) (hfinal : final < 2 ^ 64)
    (hfind : s.file.cache.findFilled offset = some b) :
    ∃ buffer s', s.readRound offset final a = .ok s' ∧ s.file.cache.buffers b = some buffer ∧
      ({ s' with pending := s.pending } = s ∨
        { s' with pending := s.pending } = s.removeBuffer b buffer) := by
  obtain ⟨hunit, buffer, hbuffer, hpos⟩ := Present.findFilled_some hfind
  obtain ⟨-, other, hother, hstart, hend⟩ := Present.find_some hunit
  obtain rfl := Option.some.inj (hbuffer.symm.trans hother)
  have hsits := hheap.sits b buffer hbuffer
  have hmin := roundLength_eq hlt hfinal hsits.aligned hstart hend
  have hcopies : offset - buffer.offset + readLen buffer offset (roundLength offset final) ≤
      cacheBufferSize :=
    readLen_le hsits.aligned hsits.filled (hfilled b buffer hbuffer hpos) hstart (by omega)
      (by omega) (by omega)
  have hround : ∀ s', (if (offset + readLen buffer offset (roundLength offset final)) % 2 ^ 64 %
      cacheBufferSize = 0 then s' = (s.removeBuffer b buffer).send (nextRound offset final)
      else s' = s.send (nextRound offset final)) → s.readRound offset final a = .ok s' := by
    intro s' hs'
    have hfold : min ((nextCacheBufferOffset offset + 2 ^ 64 - offset) % 2 ^ 64) (final - offset) =
        roundLength offset final := rfl
    unfold readRound
    rw [if_pos hlt]
    dsimp only
    rw [hfold, hfind]
    refine bind_ok.mpr ⟨buffer, CachedFile.buffer_ok.mpr hbuffer, ?_⟩
    rw [if_pos hcopies]
    split at hs'
    · rw [if_pos ‹_›, hs', nextRound]
      rfl
    · rw [if_neg ‹_›, hs', nextRound]
      rfl
  by_cases hend : (offset + readLen buffer offset (roundLength offset final)) % 2 ^ 64 %
      cacheBufferSize = 0
  · exact ⟨buffer, _, hround _ ((if_pos hend).mpr rfl), hbuffer, Or.inr rfl⟩
  · exact ⟨buffer, _, hround _ ((if_neg hend).mpr rfl), hbuffer, Or.inl rfl⟩

theorem readRound_uncached (hlt : offset < final) (hrequest : a.request = true)
    (hfind : s.file.cache.findFilled offset = none) :
    ∃ s', s.readRound offset final a = .ok s' ∧ { s' with pending := s.pending } = s := by
  refine ⟨(s.send
    (.rwFromFile none ⟨true, offset, List.replicate (roundLength offset final) 0⟩)).send
    (nextRound offset final), ?_, rfl⟩
  unfold readRound
  rw [if_pos hlt]
  dsimp only
  rw [hfind]
  exact if_pos hrequest

/-- A round that moves bytes goes on to the next. -/
theorem readLoop_succ {answers : Nat → Answer} {fuel : Nat} {r : ReadEnd} (hlt : offset < final)
    (hround : s.readRound offset final (answers fuel) = .ok s')
    (hrequest : (answers fuel).request = true)
    (hr : readLoop answers fuel { s' with pending := s.pending }
      ((offset + roundLength offset final) % 2 ^ 64) final = .ok r) :
    readLoop answers (fuel + 1) s offset final = .ok { r with
      finalLength := r.finalLength + roundLength offset final
      subReads := match s.file.cache.findFilled offset with
        | some _ => r.subReads
        | none => ⟨true, offset, List.replicate (roundLength offset final) 0⟩ :: r.subReads } := by
  rw [readLoop, if_pos hlt]
  dsimp only
  refine bind_ok.mpr ⟨s', hround, ?_⟩
  cases hfind : s.file.cache.findFilled offset with
  | some b => exact bind_ok.mpr ⟨r, hr, rfl⟩
  | none =>
      dsimp only
      rw [if_pos hrequest]
      exact bind_ok.mpr ⟨r, hr, rfl⟩

/-- What a round leaves for the next one. -/
theorem readRound_rest (hheap : Heap False s) (hfilled : Filled s)
    (hlt : offset < final) (hle : final ≤ s.file.appendPos) (hfinal : final < 2 ^ 64)
    (hrequest : a.request = true) : ∃ s', s.readRound offset final a = .ok s' ∧
      Heap False { s' with pending := s.pending } ∧ Filled { s' with pending := s.pending } ∧
        s'.file.appendPos = s.file.appendPos := by
  cases hfind : s.file.cache.findFilled offset with
  | none =>
      obtain ⟨s', hround, hrest⟩ := readRound_uncached hlt hrequest hfind
      refine ⟨s', hround, ?_⟩
      rw [hrest]
      exact ⟨hheap, hfilled, congrArg (fun s => s.file.appendPos) hrest⟩
  | some b =>
      obtain ⟨buffer, s', hround, hbuffer, hrest⟩ :=
        readRound_cached (a := a) hheap hfilled hlt hle hfinal hfind
      refine ⟨s', hround, ?_⟩
      rcases hrest with hrest | hrest
      · rw [hrest]
        exact ⟨hheap, hfilled, congrArg (fun s => s.file.appendPos) hrest⟩
      · rw [hrest]
        refine ⟨hheap.removeBuffer hbuffer False.elim, fun c other hother => ?_,
          congrArg (fun s => s.file.appendPos) hrest⟩
        have hne : c ≠ b := by
          rintro rfl
          cases (Function.update_self ..).symm.trans hother
        exact hfilled c other ((Function.update_of_ne hne ..).symm.trans hother)

/-- The loop counts what it is for, and its sub-reads end where it does. -/
theorem readLoop_counts {answers : Nat → Answer} (hanswers : ∀ k, (answers k).request = true)
    (hfinal : final < 2 ^ 64) : ∀ {fuel : Nat} {s : FileState} {offset : Nat}, Heap False s →
      Filled s → final ≤ s.file.appendPos → offset ≤ final → final - offset ≤ fuel →
        ∃ r, readLoop answers fuel s offset final = .ok r ∧ r.finalLength = final - offset ∧
          r.ret = 0 ∧ ∀ c ∈ r.subReads, SubRead final c := by
  have hdone : ∀ {fuel : Nat} {s : FileState}, ∃ r, readLoop answers fuel s final final = .ok r ∧
      r.finalLength = final - final ∧ r.ret = 0 ∧ ∀ c ∈ r.subReads, SubRead final c := by
    intro fuel s
    refine ⟨⟨0, [], 0⟩, ?_, (Nat.sub_self _).symm, rfl, fun c hc => absurd hc List.not_mem_nil⟩
    cases fuel with
    | zero => exact if_neg (Nat.lt_irrefl _)
    | succ fuel => exact if_neg (Nat.lt_irrefl _)
  intro fuel
  induction fuel with
  | zero =>
      intro s offset _ _ _ hle hfuel
      obtain rfl : offset = final := by omega
      exact hdone
  | succ fuel ih =>
      intro s offset hheap hfilled hend hle hfuel
      rcases Nat.eq_or_lt_of_le hle with rfl | hlt
      · exact hdone
      obtain ⟨hsome, hwithin⟩ := roundLength_some hlt hfinal
      obtain ⟨s', hround, hheap', hfilled', happend⟩ :=
        readRound_rest hheap hfilled hlt hend hfinal (hanswers fuel)
      have hnext : (offset + roundLength offset final) % 2 ^ 64 =
          offset + roundLength offset final := Nat.mod_eq_of_lt (by omega)
      obtain ⟨r, hr, hcount, hret, hsubs⟩ := ih hheap' hfilled' (happend.symm ▸ hend) hwithin
        (by omega)
      refine ⟨_, readLoop_succ hlt hround (hanswers fuel) (hnext.symm ▸ hr), ?_, hret, ?_⟩
      · dsimp only
        omega
      · dsimp only
        split
        · exact hsubs
        · intro c hc
          rcases List.mem_cons.mp hc with rfl | hold
          · unfold SubRead
            dsimp only
            rw [List.length_replicate]
            exact ⟨rfl, hsome, hwithin⟩
          · exact hsubs c hold

theorem cacheInsertBuffer_total (hheap : Heap False s)
    (hfind : ¬ (s.file.cache.find offset).isSome = true) :
    ∃ s', s.cacheInsertBuffer offset true = .ok (some s.brk, s') := by
  have hbrk : ¬ (s.file.cache.buffers s.brk).isSome = true := by simp [hheap.brk_none]
  obtain ⟨file, hfile⟩ : ∃ file, s.file.cacheInsertBuffer s.brk offset = .ok file := by
    unfold CachedFile.cacheInsertBuffer
    rw [if_neg hbrk, if_neg hfind]
    exact ⟨_, rfl⟩
  exact ⟨_, bind_ok.mpr ⟨file, hfile, rfl⟩⟩

/-- A readahead puts an empty buffer where there is none. -/
theorem checkReadahead_rest (offset : Nat) (ok : Bool) (hheap : Heap False s) (hfilled : Filled s) :
    ∃ s', s.checkReadahead offset ok = .ok s' ∧ Heap False s' ∧ Filled s' ∧
      s'.file.appendPos = s.file.appendPos := by
  have htotal : ∃ s', s.checkReadahead offset ok = .ok s' := by
    unfold checkReadahead
    dsimp only
    split
    · exact ⟨_, rfl⟩
    rename_i hnew
    cases ok with
    | false => exact ⟨_, rfl⟩
    | true =>
        obtain ⟨s₁, hinsert⟩ := cacheInsertBuffer_total hheap fun hsome => hnew (Or.inl hsome)
        exact ⟨_, bind_ok.mpr ⟨_, hinsert, rfl⟩⟩
  obtain ⟨s', hstep⟩ := htotal
  refine ⟨s', hstep, hheap.checkReadahead hstep, ?_⟩
  rcases checkReadahead_ok hstep with rfl | ⟨-, -, -, rfl⟩
  · exact ⟨hfilled, rfl⟩
  refine ⟨?_, rfl⟩
  unfold Filled
  rw [show ((s.ahead (nextCacheBufferOffset offset)).send _).file.cache = _ from
    Heap.ahead_cache s (nextCacheBufferOffset offset)]
  exact Heap.forall_update hfilled fun hpos => absurd hpos (Nat.lt_irrefl _)

theorem checkReadaheads_rest (offset : Nat) (a : Answer) (hheap : Heap False s)
    (hfilled : Filled s) :
    ∃ s', s.checkReadaheads offset a = .ok s' ∧ Heap False s' ∧ Filled s' ∧
      s'.file.appendPos = s.file.appendPos := by
  unfold checkReadaheads
  split
  · obtain ⟨s₁, hfirst, hheap₁, hfilled₁, happend₁⟩ :=
      checkReadahead_rest offset a.aheads.1 hheap hfilled
    obtain ⟨s₂, hsecond, hheap₂, hfilled₂, happend₂⟩ :=
      checkReadahead_rest ((offset + cacheBufferSize) % 2 ^ 64) a.aheads.2 hheap₁ hfilled₁
    exact ⟨s₂, bind_ok.mpr ⟨s₁, hfirst, hsecond⟩, hheap₂, hfilled₂, happend₂.trans happend₁⟩
  · exact ⟨s, rfl, hheap, hfilled, rfl⟩

/-- A read counts the bytes up to `append_pos`. -/
theorem fileReadEnd_counts {length : Nat} {answers : Nat → Answer} (hheap : Heap False s)
    (hfilled : Filled s) (hpos : s.file.appendPos < 2 ^ 64) (hlength : 0 < length)
    (hfits : offset < s.file.appendPos → offset + length < 2 ^ 64)
    (hanswers : ∀ k, (answers k).request = true) :
    ∃ r, s.fileReadEnd offset length a answers = .ok r ∧
      r.finalLength = min length (s.file.appendPos - offset) ∧ r.ret = 0 ∧
        ∀ c ∈ r.subReads, SubRead s.file.appendPos c := by
  unfold fileReadEnd
  by_cases hbeyond : s.file.appendPos ≤ offset
  · rw [if_pos (Or.inr hbeyond)]
    exact ⟨_, rfl, by simp [Nat.sub_eq_zero_of_le hbeyond], rfl, fun c hc => absurd hc
      List.not_mem_nil⟩
  rw [if_neg (not_or.mpr ⟨Nat.ne_of_gt hlength, hbeyond⟩)]
  have hoffset : offset < s.file.appendPos := Nat.not_le.mp hbeyond
  have hreadable : s.readableLength offset length = min length (s.file.appendPos - offset) := by
    unfold readableLength
    rw [Nat.mod_eq_of_lt (hfits hoffset)]
    split <;> omega
  have hfinal : offset + s.readableLength offset length ≤ s.file.appendPos := by
    rw [hreadable]
    omega
  obtain ⟨s₁, haheads, hheap₁, hfilled₁, happend₁⟩ := checkReadaheads_rest offset a
    (s := s.sequential offset (s.readableLength offset length))
    (hheap.fields rfl rfl rfl rfl rfl) hfilled
  obtain ⟨r, hr, hcount, hret, hsubs⟩ := readLoop_counts hanswers (hfinal.trans_lt hpos) hheap₁
    hfilled₁ (hfinal.trans (Nat.le_of_eq happend₁.symm)) (Nat.le_add_right _ _)
    (Nat.le_of_eq (Nat.add_sub_cancel_left ..))
  rw [← Nat.mod_eq_of_lt (hfinal.trans_lt hpos)] at hr
  refine ⟨r, bind_ok.mpr ⟨s₁, haheads, hr⟩, ?_, hret, fun c hc => ?_⟩
  · rw [hcount, Nat.add_sub_cancel_left, hreadable]
  · obtain ⟨hread, hsome, hle⟩ := hsubs c hc
    exact ⟨hread, hsome, hle.trans hfinal⟩

end FileState

/-! ### Sub-reads -/

section subReads

variable {bs : Blobstore} {f : Async.File} {c : Async.Call}

/-- A read of what the file has is begun. -/
theorem readvwritev_reads {mem : Async.Memory} (hread : c.isRead = true)
    (hlast : c.last ≤ f.length) (hgranted : Granted bs c (.submit () mem)) :
    ∃ pinBuf, Async.readvwritev bs f c mem = .read (Async.rwOf bs c pinBuf) := by
  obtain ⟨pinBuf, hpinBuf⟩ := Option.ne_none_iff_exists'.mp hgranted.2
  refine ⟨pinBuf, ?_⟩
  unfold Async.readvwritev
  rw [if_neg fun h => absurd h.2 (Nat.not_lt.mpr hlast), if_neg (by simp [hgranted.1]), hpinBuf]
  dsimp only
  rw [if_neg (by simp [hread]), if_neg (by simp [hread])]
  rfl

theorem readDone_read (rw : Async.Rw) (hread : rw.isRead = true) :
    ∃ iov, Async.readDone rw = .done 0 iov :=
  ⟨_, if_pos hread⟩

/-- How far a sub-read can be. -/
def SubReading (f : Async.File) (s : Async.State Unit) : Prop :=
  s.file = f ∧ (s.stage () = .idle ∨ (∃ rw, s.stage () = .read rw ∧ rw.isRead = true) ∨
    ∃ iov, s.stage () = .done 0 iov)

theorem SubReading.step (hread : c.isRead = true) (hlast : c.last ≤ f.length)
    {s s' : Async.State Unit} {e : Async.Event Unit} (h : SubReading f s)
    (hgranted : Granted bs c e)
    (hstep : Async.Steps bs (fun _ => c) s e s') : SubReading f s' := by
  obtain ⟨hfile, hstage⟩ := h
  cases e with
  | submit i mem =>
      simp only [Async.Steps, Async.step] at hstep
      rcases hstage with hidle | ⟨rw, hreads, -⟩ | ⟨iov, hdone⟩
      · rw [hidle] at hstep
        obtain rfl := Option.some.inj hstep
        obtain ⟨pinBuf, hreads⟩ := readvwritev_reads hread hlast hgranted
        refine ⟨hfile, Or.inr (Or.inl ⟨Async.rwOf bs c pinBuf, ?_, hread⟩)⟩
        rw [← hreads, ← hfile]
        rfl
      · rw [hreads] at hstep
        cases hstep
      · rw [hdone] at hstep
        cases hstep
  | complete i answer =>
      simp only [Async.Steps, Async.step] at hstep
      rcases hstage with hidle | ⟨rw, hreads, hrw⟩ | ⟨iov, hdone⟩
      · rw [hidle] at hstep
        cases hstep
      · rw [hreads] at hstep
        dsimp only at hstep
        split at hstep
        · obtain rfl := Option.some.inj hstep
          exact ⟨hfile, Or.inr (Or.inr (readDone_read _ hrw))⟩
        split at hstep
        · obtain rfl := Option.some.inj hstep
          exact ⟨hfile, Or.inr (Or.inr (readDone_read _ hrw))⟩
        · cases hstep
      · rw [hdone] at hstep
        cases hstep

/-- Its read of the blob is not looked at: it calls back with 0. -/
theorem subRead_zero (hread : c.isRead = true) (hlast : c.last ≤ f.length) {rc : Int}
    (hends : SubReadEnds bs f c rc) : rc = 0 := by
  obtain ⟨s, iov, hrun, hdone⟩ := hends
  have hinv : SubReading f s := hrun.keeps ⟨rfl, Or.inl rfl⟩ fun h hgranted hstep =>
    h.step hread hlast hgranted hstep
  rcases hinv.2 with hidle | ⟨rw, hreads, -⟩ | ⟨iov', hzero⟩
  · cases hidle.symm.trans hdone
  · cases hreads.symm.trans hdone
  · exact (Stage.done.inj (hzero.symm.trans hdone)).1.symm

theorem subReads_zero {calls : List Async.Call} {errnos : List Int}
    (hends : List.Forall₂ (SubReadEnds bs f) calls errnos)
    (hcalls : ∀ c ∈ calls, c.isRead = true ∧ c.last ≤ f.length) : ∀ rc ∈ errnos, rc = 0 := by
  induction hends with
  | nil => exact fun rc hrc => absurd hrc List.not_mem_nil
  | cons hfirst _ ih =>
      intro rc hrc
      obtain ⟨hread, hlast⟩ := hcalls _ List.mem_cons_self
      rcases List.mem_cons.mp hrc with rfl | hrest
      · exact subRead_zero hread hlast hfirst
      · exact ih (fun c hc => hcalls c (List.mem_cons_of_mem _ hc)) rc hrest

/-- It does call back. -/
theorem subRead_ends (hread : c.isRead = true) (hlast : c.last ≤ f.length)
    (hlength : Async.rwLength bs c ≠ 0) : SubReadEnds bs f c 0 := by
  have hgranted : Granted bs c (.submit () ⟨true, some fun _ => 0, true⟩) := by
    refine ⟨rfl, ?_⟩
    unfold Async.Memory.malloc
    rw [if_neg hlength]
    nofun
  obtain ⟨pinBuf, hreads⟩ := readvwritev_reads hread hlast hgranted
  let begun : Async.State Unit := ⟨f, fun _ => .read (Async.rwOf bs c pinBuf)⟩
  let rw : Async.Rw := { Async.rwOf bs c pinBuf with pinBuf := fun _ => 0 }
  obtain ⟨iov, hdone⟩ := readDone_read rw hread
  have hupdate : ∀ stage next : Stage,
      Function.update (fun _ : Unit => stage) () next = fun _ => next :=
    fun stage next => funext fun _ => rfl
  have hsubmit : Async.Steps bs (fun _ => c) ⟨f, fun _ => .idle⟩
      (.submit () ⟨true, some fun _ => 0, true⟩) begun := by
    simp only [Async.Steps, Async.step, hreads, hupdate, begun]
  have hcomplete : Async.Steps bs (fun _ => c) begun (.complete () ⟨-5, fun _ => 0⟩)
      ⟨f, fun _ => .done 0 iov⟩ := by
    simp only [Async.Steps, Async.step, begun]
    rw [if_pos (by decide), hupdate]
    exact congrArg (fun stage => some (⟨f, fun _ => stage⟩ : Async.State Unit)) hdone
  exact ⟨_, iov, .tail (.tail .refl hgranted hsubmit)
    (show Granted bs c (.complete () _) from trivial)
    hcomplete, rfl⟩

end subReads

/-! ### The end of the file -/

/-- The buffer of a sub-read is not empty. -/
theorem SubRead.rwLength {bs : Blobstore} (hunit : bs.ioUnitShift < 32) {c : Async.Call}
    {final : Nat}
    (h : SubRead final c) (hfinal : final < 2 ^ 64) : Async.rwLength bs c ≠ 0 := by
  obtain ⟨-, ⟨hsome, hle⟩, hend⟩ := h
  have hsmall : bs.ioUnitSize < 2 ^ 32 := Nat.pow_lt_pow_right (by decide) hunit
  have hsize : cacheBufferSize = 2 ^ 18 := by decide
  have hfit : Async.UnitsFit bs c.offset c.iov.length :=
    ⟨fun hzero => absurd hzero (Nat.ne_of_gt hsome), Or.inl ⟨by omega, fun _ _ => by omega⟩⟩
  obtain ⟨hcount, hlength⟩ := (Async.unitsExact_iff_fit (by omega) (by omega)).mpr hfit
  have hunits := (@Async.Blobstore.mem_units bs c.offset c.iov.length
    (c.offset / bs.ioUnitSize)).mp ⟨c.offset, Nat.le_refl _, Nat.lt_add_of_pos_right hsome, rfl⟩
  refine hlength.trans_ne (Nat.mul_ne_zero ?_ (Nat.ne_of_gt bs.ioUnitSize_pos))
  omega

/-- At rest, where the sizes are one and the filled buffers have their units, reads agree. -/
theorem EndAgrees.of_rest {bs : Blobstore} {s : FileState} (hunit : bs.ioUnitShift < 32)
    (hheap : Heap False s) (hfilled : Filled s) (hpos : s.file.appendPos < 2 ^ 64)
    (heq : s.file.length = s.file.appendPos) : EndAgrees bs s := by
  have hsize : s.fileGetLength = s.file.appendPos := if_pos (Nat.le_of_eq heq)
  refine ⟨rfl, fun offset length a answers hlength hfits hanswers => ?_,
    fun offset iov mem hle left => ?_⟩
  · unfold ReadFits at hfits
    rw [hsize] at hfits ⊢
    obtain ⟨r, hr, hcount, hret, hsubs⟩ := FileState.fileReadEnd_counts (a := a) hheap hfilled hpos
      hlength (fun hlt => (hfits hlt).1) hanswers
    have hreturned : ∀ errnos : List Int, (∀ rc ∈ errnos, rc = 0) →
        r.returned errnos = (min length (s.file.appendPos - offset) : Nat) := by
      intro errnos hzero
      have hnone : errnos.find? (fun e => decide (e ≠ 0)) = none :=
        List.find?_eq_none.mpr fun rc hrc => by simp [hzero rc hrc]
      have hsmall : min length (s.file.appendPos - offset) < 2 ^ 63 := by
        by_cases hlt : offset < s.file.appendPos
        · exact (hfits hlt).2
        · rw [Nat.sub_eq_zero_of_le (Nat.not_lt.mp hlt), Nat.min_zero]
          decide
      unfold ReadEnd.returned
      rw [hnone, hret, hcount]
      simp only [ne_eq, not_true_eq_false, if_false, Option.getD_none, if_true, Int.bmod]
      omega
    have hlast : ∀ c ∈ r.subReads, c.last ≤ s.asyncFile.length := by
      intro c hc
      exact (Nat.mod_le _ _).trans ((hsubs c hc).2.2.trans (Nat.le_of_eq heq.symm))
    constructor
    · refine ⟨_, r, r.subReads, r.subReads.map fun _ => 0, hr, .refl _, ?_, rfl⟩
      exact List.forall₂_map_right_iff.mpr (List.forall₂_same.mpr fun c hc =>
        subRead_ends (hsubs c hc).1 (hlast c hc) ((hsubs c hc).rwLength hunit hpos))
    · rintro value ⟨r', calls, errnos, hr', hperm, hends, rfl⟩
      obtain rfl := Except.ok.inj (hr.symm.trans hr')
      exact hreturned errnos (subReads_zero hends fun c hc =>
        ⟨(hsubs c (hperm.mem_iff.mp hc)).1, hlast c (hperm.mem_iff.mp hc)⟩)
  · have hlast : ¬ s.asyncFile.length < (⟨true, offset, iov⟩ : Async.Call).last :=
      Nat.not_lt.mpr ((Nat.mod_le _ _).trans (hle.trans (Nat.le_of_eq (hsize.trans heq.symm))))
    unfold Async.readvwritev
    rw [if_neg fun h => hlast h.2]
    split
    · exact nofun
    split
    · exact nofun
    · dsimp only
      rw [if_neg (by simp), if_neg (by simp)]
      exact nofun

/-- The invariants of a file that is written, with its buffers. -/
structure Written (s : FileState) : Prop where
  heap : Heap False s
  trailing : Trailing s
  atEnd : AtEnd s

theorem Written.step {bs : Blobstore} {s s' : FileState} {e : WriterEvent} (h : Written s)
    (hkeeps : KeepsEnd bs s e) (hstep : WriterSteps bs s e s') : Written s' where
  heap := by
    cases e with
    | file e => exact h.heap.step False.elim hstep
    | writeAsync offset payload mem =>
        simp only [WriterSteps, FileState.writerStep] at hstep
        split at hstep
        · cases hstep
        · exact h.heap.alloc.rwStage hstep
  trailing := h.trailing.step h.heap hkeeps hstep
  atEnd := h.atEnd.step hkeeps hstep

/-- In a run in which `append_pos` and `length` come to the same, reads of a file at rest end where
its size does. -/
theorem endAgrees_of_runs {bs : Blobstore} {start s : FileState} (hunit : bs.ioUnitShift < 32)
    (hinitial : start.Initial bs) (hrun : Runs (WriterSteps bs) (KeepsEnd bs) start s)
    (hrest : s.pending = []) : EndAgrees bs s := by
  have h : Written s := hrun.keeps
    ⟨Heap.initial hinitial, Trailing.initial hinitial, AtEnd.initial hinitial⟩ Written.step
  refine EndAgrees.of_rest hunit h.heap h.trailing.filled h.atEnd.lt (h.atEnd.ends.resolve_right ?_)
  rintro ⟨w, hw, -⟩
  exact absurd (hrest ▸ hw) List.not_mem_nil

/-- Five bytes are written, synced and cut to two. -/
def writesAndCuts : List WriterEvent :=
  [.file (.write 0 [1, 2, 3, 4, 5], success), .file (.complete 0, success),
    .file (.complete 0, success), .file (.complete 0, success), .file (.sync, success),
    .file (.complete 0, success), .file (.complete 0, success), .file (.complete 0, success),
    .file (.complete 1, success), .file (.complete 1, success), .file (.complete 0, success),
    .file (.complete 0, success),
    .file (.truncate 2, success), .file (.complete 0, success), .file (.complete 0, success),
    .file (.complete 0, success)]

theorem endAgrees_of_runs_writesAndCuts : ∃ s : FileState,
    s.fileGetLength = 2 ∧ EndAgrees oneMegabyte s := by
  have hrun : writesAndCuts.foldlM (fun s e =>
      if KeepsEnd oneMegabyte s e then s.writerStep oneMegabyte e else .error .noEvent)
      createdFile = .ok _ := rfl
  exact ⟨_, by decide, endAgrees_of_runs (by decide) createdFile_initial (Runs.of_events hrun) rfl⟩

/-- One byte is written, and the file is made ten bytes long. -/
def writesAndGrows : List WriterEvent :=
  [.file (.write 0 [7], success), .file (.complete 0, success), .file (.complete 0, success),
    .file (.complete 0, success), .file (.truncate 10, success), .file (.complete 0, success),
    .file (.complete 0, success), .file (.complete 0, success)]

/-- The bytes past the first are not read. -/
theorem endAgrees_writesAndGrows : ¬ ∀ (bs : Blobstore) (start s : FileState), bs.ioUnitShift < 32 →
    start.Initial bs → Runs (WriterSteps bs) (fun _ _ => True) start s → s.pending = [] →
      EndAgrees bs s := by
  intro hall
  have hrun : writesAndGrows.foldlM (fun s e =>
      if True then s.writerStep oneMegabyte e else .error .noEvent) createdFile = .ok _ := rfl
  have hends := hall oneMegabyte createdFile _ (by decide) createdFile_initial
    (Runs.of_events hrun) rfl
  have hvalue := (hends.read 5 1 success (fun _ => success) (by decide) (fun _ => by decide)
    fun _ => rfl).2 0 ⟨⟨0, [], 0⟩, [], [], rfl, .refl _, .nil, rfl⟩
  exact absurd hvalue (by decide)

end Nbfs.Cache
