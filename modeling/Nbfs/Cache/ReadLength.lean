import Nbfs.Cache.LastBuffer

set_option autoImplicit false

/-!
# How much a read copies

A round of `spdk_file_read` is for the bytes up to the next unit, or to the end of the
read, which is bounded by `append_pos`; what it copies is bounded by what the buffer of
the unit has.  A buffer that was filled from the blob is not filled again when a write
that goes past the cache appends to its unit.
-/

namespace Nbfs.Cache

open Nbfs.Lib
open Nbfs.Async (Blobstore Stage)

/-- The buffer is filled up to the position, or to its end. -/
def CacheBuffer.Covers (buffer : CacheBuffer) (p : Nat) : Prop :=
  buffer.bytesFilled = cacheBufferSize ∨ p ≤ buffer.offset + buffer.bytesFilled

instance (buffer : CacheBuffer) (p : Nat) : Decidable (buffer.Covers p) :=
  inferInstanceAs (Decidable (_ ∨ _))

/-- A round finds the byte that it is for in its buffer, and copies some of the bytes it is for. -/
def ReadWithin (s : FileState) (e : FileEvent × Answer) : Prop :=
  ∀ w ∈ s.completed e.1, ∀ round ∈ w.round, round.1 < round.2 →
    ∀ b, s.file.cache.findFilled round.1 = some b → ∃ buffer,
      s.file.cache.buffers b = some buffer ∧ buffer.Has round.1 ∧
        1 ≤ FileState.readLen buffer round.1 (FileState.roundLength round.1 round.2) ∧
        FileState.readLen buffer round.1 (FileState.roundLength round.1 round.2) ≤
          FileState.roundLength round.1 round.2

namespace FileState

variable (s : FileState)

/-- How many bytes a round copies, or asks the blob for. -/
def roundMoves (round : Nat × Nat) (a : Answer) : Nat :=
  if round.1 < round.2 then
    match s.file.cache.findFilled round.1 with
    | some b => ((s.file.cache.buffers b).map fun buffer =>
        readLen buffer round.1 (roundLength round.1 round.2)).getD 0
    | none => if a.request then roundLength round.1 round.2 else 0
  else 0

/-- What a round adds to `final_length`. -/
def roundCounts (round : Nat × Nat) (a : Answer) : Nat :=
  if round.1 < round.2 ∧ ((s.file.cache.findFilled round.1).isSome ∨ a.request = true) then
    roundLength round.1 round.2
  else 0

end FileState

/-- A run with the rounds of reads up to `final` that it picks, those of one call for one: the
bytes that they moved, and what they added to `final_length`. -/
inductive ReadRuns (bs : Blobstore) (ok : FileState → FileEvent × Answer → Prop) (final : Nat)
    (start : FileState) : FileState → Nat → Nat → Prop where
  | start : ReadRuns bs ok final start start 0 0
  | other {s s' : FileState} {moved value : Nat} {e : FileEvent × Answer} :
      ReadRuns bs ok final start s moved value → ok s e → FileSteps bs s e s' →
        ReadRuns bs ok final start s' moved value
  | round {s s' : FileState} {moved value i offset : Nat} {a : Answer} :
      ReadRuns bs ok final start s moved value → s.pending[i]? = some (.readLoop offset final) →
        ok s (.complete i, a) → FileSteps bs s (.complete i, a) s' →
          ReadRuns bs ok final start s' (moved + s.roundMoves (offset, final) a)
            (value + s.roundCounts (offset, final) a)

/-- How many bytes an append is for. -/
def Work.appends : Work → Option Nat
  | append _ _ payload => some payload.length
  | _ => none

/-- The buffer and the length of a readahead that is read. -/
def Work.aheadRead : Work → Option (BufRef × Nat)
  | readaheadRead b length => some (b, length)
  | _ => none

/-- A write past the cache, and a readahead, leave no buffer that is filled short of `append_pos`;
no read in progress passes the length that a truncate sets, and reads end a unit below 2^64. -/
def KeepsReach (s : FileState) (e : FileEvent × Answer) : Prop :=
  KeepsTail s e ∧ (∀ _range ∈ e.1.readRange, s.file.appendPos ≤ 2 ^ 64 - cacheBufferSize) ∧
    ∀ w ∈ s.completed e.1,
      (∀ n ∈ w.cuts, e.2.bserrno = 0 → ∀ v ∈ s.pending, ∀ round ∈ v.round, round.2 ≤ n) ∧
      (∀ n ∈ w.appends, s.GoesPast e.2 → ∀ b ∈ s.file.cache.refs,
        ∀ buffer ∈ s.file.cache.buffers b, 0 < buffer.bytesFilled →
          buffer.Covers (s.file.appendPos + n)) ∧
      ∀ ahead ∈ w.aheadRead, ∀ buffer ∈ s.file.cache.buffers ahead.1,
        ahead.2 = cacheBufferSize ∨ s.file.appendPos ≤ buffer.offset + ahead.2

instance (s : FileState) (e : FileEvent × Answer) : Decidable (KeepsReach s e) :=
  inferInstanceAs (Decidable (_ ∧ (∀ range ∈ e.1.readRange, _) ∧ ∀ w ∈ s.completed e.1,
    (∀ n ∈ w.cuts, _ → ∀ v ∈ s.pending, ∀ round ∈ v.round, _) ∧
    (∀ n ∈ w.appends, _ → ∀ b ∈ s.file.cache.refs, ∀ buffer ∈ s.file.cache.buffers b, _ → _) ∧
    ∀ ahead ∈ w.aheadRead, ∀ buffer ∈ s.file.cache.buffers ahead.1, _))

/-- Buffers are filled up to `append_pos`, and reads end there. -/
structure Reached (s : FileState) : Prop where
  filled : ∀ b buffer, s.file.cache.buffers b = some buffer → 0 < buffer.bytesFilled →
    buffer.Covers s.file.appendPos
  finals : ∀ w ∈ s.pending, ∀ round ∈ w.round,
    round.2 ≤ s.file.appendPos ∧ round.2 + cacheBufferSize ≤ 2 ^ 64

namespace Reached

variable {there low : Prop} {bs : Blobstore} {s s' : FileState} {a : Answer} {w : Work} {b : BufRef}
  {id : Nat}

/-! ### A round -/

/-- A round is for bytes of one unit, before the end of the read. -/
theorem roundLength_bounds {offset final : Nat} (hlt : offset < final)
    (hfinal : final + cacheBufferSize ≤ 2 ^ 64) {unit : Nat} (hunit : cacheBufferSize ∣ unit)
    (hle : unit ≤ offset) (hoffset : offset < unit + cacheBufferSize) :
    1 ≤ FileState.roundLength offset final ∧ offset + FileState.roundLength offset final ≤ final ∧
      offset + FileState.roundLength offset final ≤ unit + cacheBufferSize := by
  have hsize : cacheBufferSize = 2 ^ 18 := by decide
  obtain ⟨k, rfl⟩ := hunit
  have hnext : nextCacheBufferOffset offset = cacheBufferSize * k + cacheBufferSize := by
    unfold nextCacheBufferOffset
    rw [hsize] at hfinal hle hoffset ⊢
    rw [Nat.mod_eq_of_lt (by omega)]
    omega
  unfold FileState.roundLength
  rw [hnext]
  omega

/-- The buffer of a round has all the bytes that the round is for. -/
theorem readLen_eq (h : Reached s) (hheap : Heap False s) {offset final : Nat}
    (hlt : offset < final)
    (hend : final ≤ s.file.appendPos ∧ final + cacheBufferSize ≤ 2 ^ 64)
    (hfind : s.file.cache.findFilled offset = some b) : ∃ buffer,
      s.file.cache.buffers b = some buffer ∧ buffer.Has offset ∧
        1 ≤ FileState.roundLength offset final ∧
        FileState.readLen buffer offset (FileState.roundLength offset final) =
          FileState.roundLength offset final := by
  obtain ⟨hunit, buffer, hbuffer, hpos⟩ := Present.findFilled_some hfind
  obtain ⟨-, other, hother, hle, hoffset⟩ := Present.find_some hunit
  obtain rfl := Option.some.inj (hbuffer.symm.trans hother)
  obtain ⟨hsome, hfinal, hnext⟩ := roundLength_bounds hlt hend.2
    (hheap.sits b buffer hbuffer).aligned hle hoffset
  have hcovers := h.filled b buffer hbuffer hpos
  have hfilled := (hheap.sits b buffer hbuffer).filled
  unfold CacheBuffer.Covers at hcovers
  refine ⟨buffer, hbuffer, ⟨hle, by omega⟩, hsome, if_neg ?_⟩
  rw [Nat.mod_eq_of_lt (by omega), Nat.mod_eq_of_lt (by omega)]
  omega

theorem readWithin (h : Reached s) (hheap : Heap False s) (e : FileEvent × Answer) :
    ReadWithin s e := by
  intro w hw round hround hlt b hfind
  have hpending : w ∈ s.pending := by
    obtain ⟨event, a⟩ := e
    cases event with
    | complete i => exact mem_taken hw
    | _ => cases hw
  obtain ⟨buffer, hbuffer, hhas, hsome, heq⟩ :=
    h.readLen_eq hheap hlt (h.finals w hpending round hround) hfind
  exact ⟨buffer, hbuffer, hhas, hsome.trans (Nat.le_of_eq heq.symm), Nat.le_of_eq heq⟩

theorem roundMoves_eq (h : Reached s) (hheap : Heap False s) {i : Nat} {round : Nat × Nat}
    (hw : s.pending[i]? = some (.readLoop round.1 round.2)) :
    s.roundMoves round a = s.roundCounts round a := by
  unfold FileState.roundMoves FileState.roundCounts
  by_cases hlt : round.1 < round.2
  · rw [if_pos hlt]
    cases hfind : s.file.cache.findFilled round.1 with
    | some b =>
        obtain ⟨buffer, hbuffer, -, -, heq⟩ :=
          h.readLen_eq hheap hlt (h.finals _ (mem_taken hw) _ rfl) hfind
        dsimp only
        rw [hbuffer, Option.map_some, Option.getD_some, heq, if_pos ⟨hlt, Or.inl rfl⟩]
    | none => simp [hlt]
  · rw [if_neg hlt, if_neg fun h => hlt h.1]

/-! ### Moves -/

/-- Buffers keep their place and what they hold, and no read begins. -/
theorem calm (h : Reached s) (happend : s'.file.appendPos = s.file.appendPos)
    (hbuffers : ∀ b buffer, s'.file.cache.buffers b = some buffer → ∃ old,
      s.file.cache.buffers b = some old ∧ buffer.offset = old.offset ∧
        buffer.bytesFilled = old.bytesFilled)
    (hpending : ∀ w ∈ s'.pending, w ∈ s.pending ∨ w.round = none) : Reached s' where
  filled := by
    intro b buffer hbuffer hpos
    obtain ⟨old, hold, hoffset, hfilled⟩ := hbuffers b buffer hbuffer
    have hcovers := h.filled b old hold (hfilled ▸ hpos)
    unfold CacheBuffer.Covers at hcovers ⊢
    rwa [happend, hoffset, hfilled]
  finals := by
    intro w hw round hround
    rw [happend]
    rcases hpending w hw with hold | hnone
    · exact h.finals w hold round hround
    · cases hnone.symm.trans hround

theorem frame (h : Reached s) (hframe : Frame s s') : Reached s' :=
  h.calm hframe.appendPos (fun _ buffer hbuffer => ⟨buffer, hframe.cache ▸ hbuffer, rfl, rfl⟩)
    fun w hw => (hframe.pending w hw).imp_right fun hfree => hfree.2.2

theorem take (h : Reached s) (i : Nat) : Reached (s.take i) :=
  h.calm rfl (fun _ buffer hbuffer => ⟨buffer, hbuffer, rfl, rfl⟩) fun _ hw =>
    Or.inl (mem_of_taken hw)

theorem send (h : Reached s) (hround : ∀ round ∈ w.round,
    round.2 ≤ s.file.appendPos ∧ round.2 + cacheBufferSize ≤ 2 ^ 64) : Reached (s.send w) where
  filled := h.filled
  finals := by
    intro w' hw'
    rcases List.mem_append.mp hw' with hold | hnew
    · exact h.finals w' hold
    · exact List.mem_singleton.mp hnew ▸ hround

/-- A buffer keeps its place and what it holds. -/
theorem setBuffer (h : Reached s) {old new : CacheBuffer}
    (hold : s.file.cache.buffers b = some old) (hoffset : new.offset = old.offset)
    (hfilled : new.bytesFilled = old.bytesFilled) :
    Reached (s.setFile (s.file.setBuffer b new)) :=
  h.calm rfl (Heap.forall_update (fun _ buffer hbuffer => ⟨buffer, hbuffer, rfl, rfl⟩)
    ⟨old, hold, hoffset, hfilled⟩) fun _ hw => Or.inl hw

/-- Some buffers leave. -/
theorem leave (h : Reached s) (happend : s'.file.appendPos = s.file.appendPos)
    (hbuffers : ∀ b buffer, s'.file.cache.buffers b = some buffer →
      s.file.cache.buffers b = some buffer) (hpending : s'.pending = s.pending) : Reached s' :=
  h.calm happend (fun b buffer hbuffer => ⟨buffer, hbuffers b buffer hbuffer, rfl, rfl⟩)
    fun _ hw => Or.inl (hpending ▸ hw)

/-- A truncate that no read in progress passes. -/
theorem cut (h : Reached s) {n : Nat}
    (hfinals : ∀ v ∈ s.pending, ∀ round ∈ v.round, round.2 ≤ n)
    (happend : s'.file.appendPos = min s.file.appendPos n)
    (hcache : s'.file.cache = s.file.cache) (hpending : s'.pending = s.pending) : Reached s' where
  filled := by
    intro b buffer hbuffer hpos
    refine (h.filled b buffer (hcache ▸ hbuffer) hpos).imp_right fun hle => ?_
    exact happend ▸ (Nat.min_le_left _ _).trans hle
  finals := by
    intro w hw round hround
    obtain ⟨hle, hunit⟩ := h.finals w (hpending ▸ hw) round hround
    exact ⟨happend ▸ Nat.le_min.mpr ⟨hle, hfinals w (hpending ▸ hw) round hround⟩, hunit⟩

/-! ### Flushes -/

theorem fileFlush (h : Reached s) (hstep : s.fileFlush = .ok s') : Reached s' := by
  rcases FileState.fileFlush_ok hstep with
    ⟨-, rfl⟩ | ⟨b, next, -, hnext, ⟨rfl, -⟩ | ⟨rfl, -⟩ | ⟨-, -, -, rfl⟩⟩
  · exact send (h.frame { Frame.refl s with }) nofun
  · exact h
  · exact h.send nofun
  · exact send (h.setBuffer hnext rfl rfl) nofun

theorem flushWrite (h : Reached s) {next : CacheBuffer} {offset length : Nat}
    (hnext : s.file.cache.buffers b = some next) {s₁ : FileState}
    (hwrite : s.flushed bs b next offset length a = .ok s₁)
    (hdone : s₁.fileFlushDone bs b next length = .ok s') : Reached s' := by
  obtain rfl := FileState.fileFlushDone_ok hdone
  have hset : Reached (s.setFile (s.file.setBuffer b { next with
      inProgress := false, bytesFlushed := (next.bytesFlushed + length) % 2 ^ 32 })) :=
    h.setBuffer hnext rfl rfl
  refine send ?_ nofun
  rcases FileState.flushed_ok hwrite with ⟨-, rfl⟩ | ⟨-, -, rfl⟩
  all_goals exact { hset with }

/-! ### Appends -/

/-- A new buffer is empty. -/
theorem appended (h : Reached s) : Reached s.appended where
  filled := Heap.forall_update h.filled fun hpos => absurd hpos (Nat.lt_irrefl _)
  finals := h.finals

theorem cacheAppendBuffer (h : Reached s) {ok : Bool} {r : Option BufRef}
    (hstep : s.cacheAppendBuffer ok = .ok (r, s')) : Reached s' := by
  rcases (FileState.cacheAppendBuffer_ok hstep).2.2 with ⟨-, rfl⟩ | ⟨-, -, -, rfl⟩
  · exact h
  · exact h.appended

theorem startFill (h : Reached s) {payload : List UInt8}
    (hstep : s.startFill id payload a = .ok s') : Reached s' := by
  rcases FileState.startFill_ok hstep with rfl | ⟨last, -, rfl⟩
  · exact h.frame (.reply s _ _)
  · exact h.send nofun

/-- The position moves on, past no buffer that is filled in part. -/
theorem appendedPast (h : Reached s) {n : Nat} (hn : s.file.appendPos + n < 2 ^ 64)
    (hpast : ∀ b buffer, s.file.cache.buffers b = some buffer → 0 < buffer.bytesFilled →
      buffer.Covers (s.file.appendPos + n)) : Reached (s.appendedPast n) := by
  have happend : (s.appendedPast n).file.appendPos = s.file.appendPos + n := Nat.mod_eq_of_lt hn
  refine ⟨fun b buffer hbuffer hpos => happend ▸ hpast b buffer hbuffer hpos,
    fun w hw round hround => ?_⟩
  obtain ⟨hle, hunit⟩ := h.finals w hw round hround
  exact ⟨happend ▸ hle.trans (Nat.le_add_right _ _), hunit⟩

theorem append (h : Reached s) (hheap : Heap False s) {offset : Nat} {payload : List UInt8}
    (hn : s.file.appendPos + payload.length < 2 ^ 64)
    (hpast : s.GoesPast a → ∀ b ∈ s.file.cache.refs, ∀ buffer ∈ s.file.cache.buffers b,
      0 < buffer.bytesFilled → buffer.Covers (s.file.appendPos + payload.length))
    (hstep : s.append bs id offset payload a = .ok s') : Reached s' := by
  obtain ⟨s₁, hopen, hrest⟩ := FileState.append_ok hstep
  have hopened : Reached s.opened := h.frame { Frame.refl s with }
  have h₁ : Reached s₁ := by
    rcases FileState.openLast_ok hopen with ⟨rfl, -⟩ | ⟨-, -, r, happend⟩
    · exact hopened
    · exact hopened.cacheAppendBuffer happend
  rcases hrest with ⟨hnone, hgone⟩ | ⟨-, -, ⟨-, rfl⟩ | ⟨-, hfill⟩⟩
  · obtain ⟨hgoes, rfl⟩ := FileState.openLast_none hopen hnone
    have hpassed : Reached (s.opened.appendedPast payload.length) :=
      hopened.appendedPast hn fun b buffer hbuffer =>
        hpast hgoes b (hheap.sits b buffer hbuffer).listed buffer hbuffer
    rcases hgone with rfl | rfl
    · exact hpassed.send nofun
    · exact hpassed.frame (.reply _ _ _)
  · exact h₁.send nofun
  · exact h₁.startFill hfill

/-- A copy goes to the last buffer, which ends at `append_pos`; the others end before it, or are
filled past the unit. -/
theorem copied (h : Reached s) (hheap : Heap False s) (htail : Tail there low s)
    {old : CacheBuffer} {payload : List UInt8} (hold : s.file.cache.buffers b = some old)
    (hb : s.file.last = some b ∨ old.bytesFilled = cacheBufferSize)
    (hn : s.file.appendPos + payload.length < 2 ^ 64) : Reached (s.copied b old payload) := by
  have hsits := hheap.sits b old hold
  have hfull := hsits.filled
  have hcopy : FileState.fillLength old payload ≤ payload.length := Nat.min_le_right _ _
  have hroom := Heap.fillLength_le hfull payload
  have happend : (s.copied b old payload).file.appendPos =
      s.file.appendPos + FileState.fillLength old payload := Nat.mod_eq_of_lt (by omega)
  refine ⟨fun c buffer hbuffer hpos => ?_, fun w hw round hround => ?_⟩
  · rw [happend]
    by_cases hc : c = b
    · subst hc
      obtain rfl := Option.some.inj ((FileState.copied_buffer hfull).symm.trans hbuffer)
      rcases hb with hlast | hdone
      · refine Or.inr ?_
        have hends := htail.ends c hlast old hold
        dsimp only
        omega
      · refine Or.inl ?_
        dsimp only
        omega
    · have hother := (FileState.copied_other hc).symm.trans hbuffer
      have hcovers := h.filled c buffer hother hpos
      rcases hb with hlast | hdone
      · have hends := htail.ends b hlast old hold
        have hfilled := (hheap.sits c buffer hother).filled
        have hne : buffer.offset ≠ old.offset := fun heq => hc
          (hheap.distinct b old hold c _ hother heq)
        have haligned := (hheap.sits c buffer hother).aligned
        unfold CacheBuffer.Covers at hcovers ⊢
        rcases Nat.lt_or_gt_of_ne hne with hbefore | hbehind
        · have hapart := unit_apart haligned hsits.aligned hbefore
          omega
        · have hapart := unit_apart hsits.aligned haligned hbehind
          omega
      · refine hcovers.imp_right fun hle => ?_
        omega
  · obtain ⟨hle, hunit⟩ := h.finals w hw round hround
    exact ⟨happend ▸ hle.trans (Nat.le_add_right _ _), hunit⟩

theorem fillRound (h : Reached s) (hheap : Heap False s) (htail : Tail there low s)
    {payload : List UInt8} {filled : Nat}
    (hb : s.file.last = some b ∨
      ∀ old, s.file.cache.buffers b = some old → old.bytesFilled = cacheBufferSize)
    (hn : s.file.appendPos + payload.length < 2 ^ 64)
    (hstep : s.fillRound id b payload filled a = .ok s') : Reached s' := by
  obtain ⟨last, hlast, hround⟩ := FileState.fillRound_ok hstep
  have hcopied := h.copied hheap htail hlast (hb.imp_right fun hfull => hfull last hlast) hn
  rcases hround with ⟨-, rfl⟩ | ⟨-, r, s₁, happend, ⟨c, rfl, rfl⟩ | ⟨rfl, rfl⟩⟩
  · exact hcopied.send nofun
  · exact (hcopied.cacheAppendBuffer happend).send nofun
  · exact (hcopied.cacheAppendBuffer happend).frame (.reply _ _ _)

/-! ### Truncates -/

theorem fsTruncateResizeCb (h : Reached s) {n : Nat}
    (hfinals : a.bserrno = 0 → ∀ v ∈ s.pending, ∀ round ∈ v.round, round.2 ≤ n)
    (hstep : s.fsTruncateResizeCb bs id n a = .ok s') : Reached s' := by
  rcases FileState.fsTruncateResizeCb_ok hstep with ⟨-, rfl⟩ | ⟨hzero, rfl⟩
  · exact h.frame (.reply s _ _)
  · exact send (h.cut (hfinals hzero) rfl rfl rfl) nofun

theorem rwComplete (h : Reached s) {op : Option Nat} {stage : Stage}
    (hfinals : ∀ n ∈ (Work.rw op stage).cuts, a.bserrno = 0 → ∀ v ∈ s.pending,
      ∀ round ∈ v.round, round.2 ≤ n)
    (hstep : s.rwComplete bs op stage a = .ok s') : Reached s' := by
  obtain ⟨t, hasync, hstage⟩ := FileState.rwComplete_ok hstep
  refine frame (s := s.setAsyncFile t.file) ?_ (Frame.rwStage hstage)
  rcases FileState.asyncStep_ok rfl hasync with
    ⟨-, happend, -⟩ | ⟨n, rw, rfl, hzero, -, happend, -⟩
  · exact h.calm happend (fun _ buffer hbuffer => ⟨buffer, hbuffer, rfl, rfl⟩) fun _ hw => Or.inl hw
  · exact h.cut (hfinals n rfl hzero) happend rfl rfl

/-! ### Reads -/

theorem checkReadahead (h : Reached s) {offset : Nat} {ok : Bool}
    (hstep : s.checkReadahead offset ok = .ok s') :
    Reached s' ∧ s'.file.appendPos = s.file.appendPos := by
  rcases FileState.checkReadahead_ok hstep with rfl | ⟨-, -, -, rfl⟩
  · exact ⟨h, rfl⟩
  refine ⟨send ⟨?_, h.finals⟩ nofun, rfl⟩
  rw [Heap.ahead_cache]
  exact Heap.forall_update h.filled fun hpos => absurd hpos (Nat.lt_irrefl _)

/-- A read ends at `append_pos` at most. -/
theorem readEnd_le {offset : Nat} (length : Nat) (hoffset : offset < s.file.appendPos)
    (hpos : s.file.appendPos < 2 ^ 64) :
    (offset + s.readableLength offset length) % 2 ^ 64 ≤ s.file.appendPos := by
  unfold FileState.readableLength
  split
  · rw [Nat.add_sub_cancel' (Nat.le_of_lt hoffset), Nat.mod_eq_of_lt hpos]
  · omega

theorem fileRead (h : Reached s) (hpos : s.file.appendPos < 2 ^ 64) {offset length : Nat}
    (hunit : s.file.appendPos ≤ 2 ^ 64 - cacheBufferSize)
    (hstep : s.fileRead offset length a = .ok s') : Reached s' := by
  rcases FileState.fileRead_ok hstep with rfl | ⟨n, s₁, ⟨-, hoffset, rfl⟩, haheads, rfl⟩
  · exact h.frame { Frame.refl s with }
  have hseq : Reached (s.sequential offset (s.readableLength offset length)) :=
    h.frame { Frame.refl s with }
  have h₁ : Reached s₁ ∧ s₁.file.appendPos = s.file.appendPos := by
    rcases FileState.checkReadaheads_ok haheads with rfl | ⟨-, s₂, hfirst, hsecond⟩
    · exact ⟨hseq, rfl⟩
    · obtain ⟨h₂, hpos₂⟩ := hseq.checkReadahead hfirst
      obtain ⟨h₁, hpos₁⟩ := h₂.checkReadahead hsecond
      exact ⟨h₁, hpos₁.trans hpos₂⟩
  refine h₁.1.send fun round hround => ?_
  obtain rfl := Option.some.inj hround
  have hle := readEnd_le length hoffset hpos
  rw [h₁.2]
  exact ⟨hle, (Nat.le_sub_iff_add_le (by decide)).mp (hle.trans hunit)⟩

theorem readRound (h : Reached s) {offset final : Nat}
    (hfinal : final ≤ s.file.appendPos ∧ final + cacheBufferSize ≤ 2 ^ 64)
    (hstep : s.readRound offset final a = .ok s') : Reached s' := by
  have hnext : ∀ round ∈ (FileState.nextRound offset final).round,
      round.2 ≤ s.file.appendPos ∧ round.2 + cacheBufferSize ≤ 2 ^ 64 := by
    rintro round hround
    obtain rfl := Option.some.inj hround
    exact hfinal
  rcases FileState.readRound_ok hstep with
    rfl | ⟨-, rfl⟩ | ⟨b, buffer, -, -, -, ⟨-, rfl⟩ | ⟨-, rfl⟩⟩
  · exact h
  · exact send (send h nofun) hnext
  · refine send (h.leave rfl (fun c buffer hbuffer => ?_) rfl) hnext
    have hne : c ≠ b := by
      rintro rfl
      cases (Function.update_self ..).symm.trans hbuffer
    exact (Function.update_of_ne hne ..).symm.trans hbuffer
  · exact send h hnext

theorem readaheadDone (h : Reached s) {old : CacheBuffer} {length : Nat}
    (hlength : length = cacheBufferSize ∨ s.file.appendPos ≤ old.offset + length) :
    Reached (s.readaheadDone b old length) :=
  ⟨Heap.forall_update h.filled fun _ => hlength, h.finals⟩

theorem treeFreeBuffers (h : Reached s) : Reached s.treeFreeBuffers :=
  h.leave rfl (fun _ _ => Tail.treeFreeBuffers_some) rfl

theorem reclaimCacheBuffers (h : Reached s) : Reached s.reclaimCacheBuffers := by
  unfold FileState.reclaimCacheBuffers
  split
  · exact h
  dsimp only
  split
  · exact { h.treeFreeBuffers with }
  · exact h.treeFreeBuffers

theorem fileFree (h : Reached s) (hstep : s.fileFree = .ok s') : Reached s' := by
  unfold FileState.fileFree at hstep
  split at hstep
  · obtain rfl := Except.ok.inj hstep
    exact { h with }
  dsimp only at hstep
  split at hstep
  · obtain rfl := Except.ok.inj hstep
    exact { h.treeFreeBuffers with }
  · cases hstep

/-! ### Runs -/

theorem complete (h : Reached s) (hheap : Heap False s) (htail : Tail there low s) {i : Nat}
    (hw : s.pending[i]? = some w) (hkeeps : KeepsReach s (.complete i, a))
    (hstep : (s.take i).perform bs a w = .ok s') : Reached s' := by
  obtain ⟨hfills, -⟩ := hkeeps.1 w hw
  obtain ⟨hcuts, hpast, haheads⟩ := hkeeps.2.2 w hw
  have htake := h.take i
  have hfinals : ∀ n ∈ w.cuts, a.bserrno = 0 → ∀ v ∈ (s.take i).pending, ∀ round ∈ v.round,
      round.2 ≤ n := fun n hn hzero v hv => hcuts n hn hzero v (mem_of_taken hv)
  cases w with
  | append id offset payload =>
      exact htake.append ((hheap.taken hw).drop rfl) (hfills _ rfl) (hpast _ rfl) hstep
  | extendResize id numClusters payload =>
      simp only [FileState.perform] at hstep
      split at hstep
      · obtain rfl := Except.ok.inj hstep
        exact htake.frame (.reply _ _ _)
      · obtain ⟨-, rfl⟩ := FileState.blobOp_ok hstep
        exact send { htake with } (by rintro _ ⟨⟩)
  | startFill id payload => exact htake.startFill hstep
  | fill id b payload filled =>
      simp only [FileState.perform] at hstep
      split at hstep
      · obtain rfl := Except.ok.inj hstep
        exact htake.frame (.endFill _ _ _)
      · exact htake.fillRound ((hheap.taken hw).drop rfl) (htail.take i)
          (htail.targets _ (mem_taken hw) b rfl) (hfills _ rfl) hstep
  | rw id stage => exact htake.rwComplete hfinals hstep
  | flush => exact htake.fileFlush hstep
  | flushWrite b offset length =>
      obtain ⟨next, hnext, hstep⟩ := bind_ok.mp hstep
      obtain ⟨s₁, hwrite, hdone⟩ := bind_ok.mp hstep
      exact htake.flushWrite (CachedFile.buffer_ok.mp hnext) hwrite hdone
  | readahead b length =>
      obtain rfl := Frame.readahead hstep
      exact htake.send (by rintro _ ⟨⟩)
  | readaheadRead b length =>
      obtain ⟨buffer, hbuffer, hstep⟩ := bind_ok.mp hstep
      obtain ⟨s₁, hread, hret⟩ := bind_ok.mp hstep
      obtain rfl := Except.ok.inj hret
      obtain ⟨image, rfl, -⟩ := FileState.readAhead_ok hread
      exact readaheadDone (s := (s.take i).setMem b image) { htake with }
        (haheads _ rfl buffer (CachedFile.buffer_ok.mp hbuffer))
  | readLoop offset final =>
      exact htake.readRound (h.finals _ (mem_taken hw) _ rfl) hstep
  | truncateResize id n => exact htake.fsTruncateResizeCb (hfinals n rfl) hstep
  | _ => exact htake.frame (Frame.perform hstep trivial)

theorem step (h : Reached s) (hheap : Heap False s) (htail : Tail there low s)
    {e : FileEvent × Answer} (hkeeps : KeepsReach s e) (hstep : FileSteps bs s e s') :
    Reached s' := by
  obtain ⟨event, a⟩ := e
  obtain ⟨-, hact⟩ := FileState.step_ok hstep
  cases event with
  | read offset length => exact h.fileRead htail.appendPos_lt (hkeeps.2.1 _ rfl) hact
  | reclaim =>
      obtain rfl := Except.ok.inj hact
      exact h.reclaimCacheBuffers
  | free => exact h.fileFree hact
  | complete i =>
      obtain ⟨w, hw, hperform⟩ := FileState.complete_ok hact
      exact h.complete hheap htail hw hkeeps hperform
  | _ => exact h.frame (Frame.act hact trivial)

theorem initial (h : s.Initial bs) : Reached s where
  filled := by simp [h.cache]
  finals := by simp [h.pending]

end Reached

/-- The three invariants, from a file that was created or loaded. -/
structure Reading (s : FileState) : Prop where
  heap : Heap False s
  tail : Tail False False s
  reached : Reached s

theorem Reading.step {bs : Blobstore} {s s' : FileState} {e : FileEvent × Answer} (h : Reading s)
    (hkeeps : KeepsReach s e) (hstep : FileSteps bs s e s') : Reading s' where
  heap := h.heap.step False.elim hstep
  tail := h.tail.step h.heap hkeeps.1 False.elim False.elim hstep
  reached := h.reached.step h.heap h.tail hkeeps hstep

/-- In a run in which no buffer is left filled short of `append_pos`, a round copies from a buffer
that has its byte, some bytes, and no more than it is for; and reads return what they moved. -/
theorem readWithin_of_runs {bs : Blobstore} {start s : FileState} (hinitial : start.Initial bs)
    (hrun : Runs (FileSteps bs) KeepsReach start s) : (∀ e, ReadWithin s e) ∧
      ∀ final s' moved value, ReadRuns bs KeepsReach final s s' moved value → moved = value := by
  have h : Reading s := hrun.keeps
    ⟨Heap.initial hinitial, Tail.initial hinitial, Reached.initial hinitial⟩ Reading.step
  refine ⟨h.reached.readWithin h.heap, fun final s' moved value hreads => ?_⟩
  have hinv : Reading s' ∧ moved = value := by
    induction hreads with
    | start => exact ⟨h, rfl⟩
    | other _ hkeeps hstep ih => exact ⟨ih.1.step hkeeps hstep, ih.2⟩
    | round _ hw hkeeps hstep ih =>
        refine ⟨ih.1.step hkeeps hstep, ?_⟩
        rw [ih.2, ih.1.reached.roundMoves_eq ih.1.heap hw]
  exact hinv.2

/-- The second unit is read ahead, and read. -/
def readsCached : List (FileEvent × Answer) :=
  [(.read 0 (2 ^ 17), success), (.complete 0, success), (.complete 1, success),
    (.read (2 ^ 18) 5, success)]

theorem readWithin_of_runs_readsCached : ∃ s : FileState,
    s.roundMoves (2 ^ 18, 2 ^ 18 + 5) success = 5 ∧ ReadWithin s (.complete 1, success) := by
  have hrun : readsCached.foldlM (fun s e =>
      if KeepsReach s e then s.step oneMegabyte e.2 e.1 else .error .noEvent)
      loadedUnits = .ok _ := rfl
  have hreads := readWithin_of_runs loadedUnits_initial (Runs.of_events hrun)
  exact ⟨_, by decide, hreads.1 _⟩

/-- A file that was loaded with one byte in its second unit. -/
def loadedPartly : FileState :=
  { loadedByte with
    file := { loadedByte.file with
      length := 2 ^ 18 + 1, lengthFlushed := 2 ^ 18 + 1, lengthXattr := 2 ^ 18 + 1
      appendPos := 2 ^ 18 + 1 }
    blob := ⟨1, fun _ => 0, 2 ^ 18 + 1⟩ }

theorem loadedPartly_initial : loadedPartly.Initial oneMegabyte := by
  constructor
  all_goals first | rfl | decide

/-- The byte is read ahead, and two bytes are appended after it, past the cache; the second of
them is read. -/
def appendsPast : List (FileEvent × Answer) :=
  [(.read 0 (2 ^ 17), success), (.complete 0, success), (.complete 1, success),
    (.write (2 ^ 18 + 1) [7, 8], success), (.complete 1, success), (.read (2 ^ 18 + 2) 1, success)]

/-- The buffer of the unit ends before the byte. -/
theorem readWithin_appendsPast : ¬ ∀ (bs : Blobstore) (start s : FileState)
    (e : FileEvent × Answer),
    start.Initial bs → Runs (FileSteps bs) (fun _ e => e.1.isTruncate = false) start s →
      ReadWithin s e := by
  intro hall
  have hrun : appendsPast.foldlM (fun s e =>
      if e.1.isTruncate = false then s.step oneMegabyte e.2 e.1 else .error .noEvent)
      loadedPartly = .ok _ := rfl
  obtain ⟨buffer, hbuffer, hhas, -⟩ := hall oneMegabyte loadedPartly _ (.complete 2, success)
    loadedPartly_initial (Runs.of_events hrun) _ rfl _ rfl (by decide) 0 (by decide)
  have hshort : (⟨2 ^ 18, 1, 1, false⟩ : CacheBuffer) = buffer := Option.some.inj hbuffer
  exact absurd (hshort ▸ hhas) (by decide)

end Nbfs.Cache
