import Nbfs.Cache.Contents
import Nbfs.Cache.Frames

set_option autoImplicit false

/-!
# The buffer that appends go to

`file->last` ends at `append_pos`, until a truncate moves the position back.  A read and
the reclaim may free the buffer, as they may free any other one, and leave `file->last`
where it was.
-/

namespace Nbfs.Cache

open Nbfs.Lib
open Nbfs.Async (Blobstore Stage)

/-- How many bytes an append still has to write. -/
def Work.fills : Work → Option Nat
  | append _ _ payload | fill _ _ payload _ => some payload.length
  | _ => none

/-- The length to which a truncate, of a caller or of a direct write, resizes the blob. -/
def Work.cuts : Work → Option Nat
  | rw _ (.resize length _) | truncateResize _ length => some length
  | _ => none

/-- No position passes 2^64, and no truncate cuts what the last buffer has. -/
def KeepsTail (s : FileState) (e : FileEvent × Answer) : Prop :=
  ∀ w ∈ s.completed e.1, (∀ n ∈ w.fills, s.file.appendPos + n < 2 ^ 64) ∧
    ∀ n ∈ w.cuts, e.2.bserrno = 0 →
      s.file.appendPos ≤ n ∨ ∀ b ∈ s.file.last, s.file.cache.buffers b = none

/-- A read comes to the end of the last buffer. -/
def EndsLast (s : FileState) (e : FileEvent × Answer) : Prop :=
  ∃ w ∈ s.completed e.1, ∃ round ∈ w.round, ∃ b ∈ s.file.cache.findFilled round.1,
    s.file.last = some b ∧ ∃ buffer ∈ s.file.cache.buffers b,
      (round.1 + FileState.readLen buffer round.1 (FileState.roundLength round.1 round.2)) %
        2 ^ 64 % cacheBufferSize = 0

/-- `reclaim_cache_buffers` runs. -/
def FileEvent.isReclaim : FileEvent → Bool
  | reclaim => true
  | _ => false

/-- The reclaim frees the last buffer, but not all of them. -/
def ReclaimsLast (s : FileState) (e : FileEvent × Answer) : Prop :=
  e.1.isReclaim = true ∧ s.treeFreeBuffers.file.cache.isEmpty = false ∧
    ∃ b ∈ s.file.last, idleIn s.file.cache.buffers b = true

/-- The last buffer stays, and ends at `append_pos`. -/
def KeepsLast (s : FileState) (e : FileEvent × Answer) : Prop :=
  KeepsTail s e ∧ ¬ EndsLast s e ∧ ¬ ReclaimsLast s e

/-- The `offset` and `length` of a read. -/
def FileEvent.readRange : FileEvent → Option (Nat × Nat)
  | read offset length => some (offset, length)
  | _ => none

/-- Where a read would read ahead. -/
def FileState.aheadOffsets (s : FileState) (offset length : Nat) : List Nat :=
  if cacheReadaheadThreshold ≤
      (s.sequential offset (s.readableLength offset length)).file.seqByteCount
  then [nextCacheBufferOffset offset, nextCacheBufferOffset ((offset + cacheBufferSize) % 2 ^ 64)]
  else []

/-- No readahead puts a buffer at or past `append_pos`, and no truncate leaves one there. -/
def KeepsBelow (s : FileState) (e : FileEvent × Answer) : Prop :=
  (∀ range ∈ e.1.readRange, ∀ o ∈ s.aheadOffsets range.1 range.2,
      o < s.file.length → o < s.file.appendPos) ∧
    ∀ w ∈ s.completed e.1, ∀ n ∈ w.cuts, e.2.bserrno = 0 → ∀ b ∈ s.file.cache.refs,
      ∀ buffer ∈ s.file.cache.buffers b, s.file.last = some b ∨ buffer.offset < n

instance (s : FileState) (e : FileEvent × Answer) : Decidable (KeepsTail s e) :=
  inferInstanceAs (Decidable (∀ w ∈ s.completed e.1, _ ∧ ∀ n ∈ w.cuts, _))

instance (s : FileState) (e : FileEvent × Answer) : Decidable (EndsLast s e) :=
  inferInstanceAs (Decidable (∃ w ∈ s.completed e.1, ∃ round ∈ w.round,
    ∃ b ∈ s.file.cache.findFilled round.1, _ ∧ ∃ buffer ∈ s.file.cache.buffers b, _))

instance (s : FileState) (e : FileEvent × Answer) : Decidable (ReclaimsLast s e) :=
  inferInstanceAs (Decidable (_ ∧ _ ∧ ∃ b ∈ s.file.last, _))

instance (s : FileState) (e : FileEvent × Answer) : Decidable (KeepsLast s e) :=
  inferInstanceAs (Decidable (_ ∧ _ ∧ _))

instance (s : FileState) (e : FileEvent × Answer) : Decidable (KeepsBelow s e) :=
  inferInstanceAs (Decidable (_ ∧ ∀ w ∈ s.completed e.1, ∀ n ∈ w.cuts, _ →
    ∀ b ∈ s.file.cache.refs, ∀ buffer ∈ s.file.cache.buffers b, _))

/-- The invariant: `there` is whether the last buffer was not removed, and `low` whether the
other buffers start before `append_pos`. -/
structure Tail (there low : Prop) (s : FileState) : Prop where
  appendPos_lt : s.file.appendPos < 2 ^ 64
  ends : ∀ b, s.file.last = some b → ∀ buffer, s.file.cache.buffers b = some buffer →
    buffer.offset + buffer.bytesFilled = s.file.appendPos
  /-- An append fills the last buffer, or one that is full. -/
  targets : ∀ w ∈ s.pending, ∀ b, w.target = some b → s.file.last = some b ∨
    ∀ buffer, s.file.cache.buffers b = some buffer → buffer.bytesFilled = cacheBufferSize
  present : there → s.isFree = false → ∀ b, s.file.last = some b →
    ∃ buffer, s.file.cache.buffers b = some buffer
  below : low → ∀ b buffer, s.file.cache.buffers b = some buffer →
    s.file.last = some b ∨ buffer.offset < s.file.appendPos

namespace Tail

variable {there low : Prop} {bs : Blobstore} {s s' : FileState} {a : Answer} {w : Work} {b : BufRef}
  {id : Nat}

/-- The last buffer stays the last, and buffers keep their place and what they hold. -/
theorem calm (h : Tail there low s) (happend : s'.file.appendPos = s.file.appendPos)
    (hlast : s'.file.last = s.file.last) (hfree : s'.isFree = s.isFree)
    (hbuffers : ∀ b buffer, s'.file.cache.buffers b = some buffer →
      ∃ old, s.file.cache.buffers b = some old ∧ buffer.offset = old.offset ∧
        buffer.bytesFilled = old.bytesFilled)
    (hstays : there → ∀ b buffer, s.file.last = some b → s.file.cache.buffers b = some buffer →
      ∃ buffer, s'.file.cache.buffers b = some buffer)
    (hpending : ∀ w ∈ s'.pending, w ∈ s.pending ∨ w.target = none) : Tail there low s' where
  appendPos_lt := happend ▸ h.appendPos_lt
  ends := by
    intro b hb buffer hbuffer
    obtain ⟨old, hold, hoffset, hfilled⟩ := hbuffers b buffer hbuffer
    rw [hoffset, hfilled, happend]
    exact h.ends b (hlast ▸ hb) old hold
  targets := by
    intro w hw b htarget
    rcases hpending w hw with hw | hnone
    · refine (h.targets w hw b htarget).imp (fun hb => hlast ▸ hb) fun hfull buffer hbuffer => ?_
      obtain ⟨old, hold, -, hfilled⟩ := hbuffers b buffer hbuffer
      exact hfilled.trans (hfull old hold)
    · cases hnone.symm.trans htarget
  present := by
    intro hthere hfree' b hb
    obtain ⟨buffer, hbuffer⟩ := h.present hthere (hfree ▸ hfree') b (hlast ▸ hb)
    exact hstays hthere b buffer (hlast ▸ hb) hbuffer
  below := by
    intro hlow b buffer hbuffer
    obtain ⟨old, hold, hoffset, -⟩ := hbuffers b buffer hbuffer
    rw [hlast, hoffset, happend]
    exact h.below hlow b old hold

theorem frame (h : Tail there low s) (hframe : Frame s s') : Tail there low s' :=
  h.calm hframe.appendPos hframe.last hframe.isFree
    (fun _ buffer hbuffer => ⟨buffer, hframe.cache ▸ hbuffer, rfl, rfl⟩)
    (fun _ _ buffer _ hbuffer => ⟨buffer, hframe.cache ▸ hbuffer⟩)
    fun w hw => (hframe.pending w hw).imp_right fun hfree => hfree.2.1

theorem take (h : Tail there low s) (i : Nat) : Tail there low (s.take i) :=
  h.calm rfl rfl rfl (fun _ buffer hbuffer => ⟨buffer, hbuffer, rfl, rfl⟩)
    (fun _ _ buffer _ hbuffer => ⟨buffer, hbuffer⟩) fun _ hw => Or.inl (mem_of_taken hw)

theorem send (h : Tail there low s) (htarget : w.target = none) : Tail there low (s.send w) := by
  refine h.calm rfl rfl rfl (fun _ buffer hbuffer => ⟨buffer, hbuffer, rfl, rfl⟩)
    (fun _ _ buffer _ hbuffer => ⟨buffer, hbuffer⟩) fun w' hw' => ?_
  rcases List.mem_append.mp hw' with hold | hnew
  · exact Or.inl hold
  · exact Or.inr (List.mem_singleton.mp hnew ▸ htarget)

/-- An append that fills the last buffer. -/
theorem sendFill (h : Tail there low s) (hlast : w.target = s.file.last) :
    Tail there low (s.send w) :=
  { h with
    targets := by
      intro w' hw' b hb
      rcases List.mem_append.mp hw' with hold | hnew
      · exact h.targets w' hold b hb
      · obtain rfl := List.mem_singleton.mp hnew
        exact Or.inl (hlast.symm.trans hb) }

/-! ### Flushes -/

/-- A buffer keeps its place and what it holds. -/
theorem setBuffer (h : Tail there low s) {old new : CacheBuffer}
    (hold : s.file.cache.buffers b = some old) (hoffset : new.offset = old.offset)
    (hfilled : new.bytesFilled = old.bytesFilled) :
    Tail there low (s.setFile (s.file.setBuffer b new)) :=
  h.calm rfl rfl rfl (Heap.forall_update (fun _ buffer hbuffer => ⟨buffer, hbuffer, rfl, rfl⟩)
    ⟨old, hold, hoffset, hfilled⟩)
      (fun _ _ buffer _ hbuffer => Heap.isSome_update ⟨buffer, hbuffer⟩)
    fun _ hw => Or.inl hw

theorem fileFlush (h : Tail there low s) (hstep : s.fileFlush = .ok s') : Tail there low s' := by
  rcases FileState.fileFlush_ok hstep with
    ⟨-, rfl⟩ | ⟨b, next, -, hnext, ⟨rfl, -⟩ | ⟨rfl, -⟩ | ⟨-, -, -, rfl⟩⟩
  · exact send (h.frame { Frame.refl s with }) rfl
  · exact h
  · exact h.send rfl
  · exact send (h.setBuffer hnext rfl rfl) rfl

theorem flushWrite (h : Tail there low s) {next : CacheBuffer} {offset length : Nat}
    (hnext : s.file.cache.buffers b = some next) {s₁ : FileState}
    (hwrite : s.flushed bs b next offset length a = .ok s₁)
    (hdone : s₁.fileFlushDone bs b next length = .ok s') : Tail there low s' := by
  obtain rfl := FileState.fileFlushDone_ok hdone
  have hset : Tail there low (s.setFile (s.file.setBuffer b { next with
      inProgress := false, bytesFlushed := (next.bytesFlushed + length) % 2 ^ 32 })) :=
    h.setBuffer hnext rfl rfl
  refine send ?_ rfl
  rcases FileState.flushed_ok hwrite with ⟨-, rfl⟩ | ⟨-, -, rfl⟩
  all_goals exact { hset with }

/-! ### Appends -/

theorem cacheAppendBuffer (h : Tail there low s) {ok : Bool} {r : Option BufRef}
    (hstep : s.cacheAppendBuffer ok = .ok (r, s')) :
    Tail there low s' ∧ ∀ c, r = some c → s'.file.last = some c := by
  obtain ⟨hfull, -, ⟨rfl, rfl⟩ | ⟨rfl, hnew, -, rfl⟩⟩ := FileState.cacheAppendBuffer_ok hstep
  · exact ⟨h, nofun⟩
  refine ⟨?_, fun c hc => hc⟩
  have hother : ∀ c buffer, s.file.cache.buffers c = some buffer → c ≠ s.brk := by
    rintro c buffer hbuffer rfl
    cases hnew.symm.trans hbuffer
  exact {
    appendPos_lt := h.appendPos_lt
    ends := by
      intro c hc buffer hbuffer
      obtain rfl := Option.some.inj hc
      obtain rfl := Option.some.inj ((Function.update_self s.brk _ _).symm.trans hbuffer)
      rfl
    targets := by
      -- the buffers that were filled are full, the last one among them
      intro w hw c hc
      by_cases hbrk : c = s.brk
      · exact Or.inl (congrArg some hbrk.symm)
      refine Or.inr fun buffer hbuffer => ?_
      have hold := (Function.update_of_ne hbrk ..).symm.trans hbuffer
      rcases h.targets w hw c hc with hlast | hdone
      · obtain ⟨last, hlast', hbytes⟩ := hfull c hlast
        exact Option.some.inj (hlast'.symm.trans hold) ▸ hbytes
      · exact hdone buffer hold
    present := by
      intro _ _ c hc
      obtain rfl := Option.some.inj hc
      exact ⟨_, Function.update_self ..⟩
    below := fun hlow => Heap.forall_update (fun c buffer hbuffer => Or.inr (by
      rcases h.below hlow c buffer hbuffer with hlast | hlt
      · obtain ⟨last, hlast', hbytes⟩ := hfull c hlast
        obtain rfl := Option.some.inj (hlast'.symm.trans hbuffer)
        have hends := h.ends c hlast last hbuffer
        have hsize : cacheBufferSize = 2 ^ 18 := by decide
        change last.offset < s.file.appendPos
        omega
      · exact hlt)) (Or.inl rfl) }

theorem startFill (h : Tail there low s) {payload : List UInt8}
    (hstep : s.startFill id payload a = .ok s') : Tail there low s' := by
  rcases FileState.startFill_ok hstep with rfl | ⟨last, hlast, rfl⟩
  · exact h.frame (.reply s _ _)
  · exact h.sendFill hlast.symm

theorem openLast (h : Tail there low s) (hstep : s.openLast a = .ok s') : Tail there low s' := by
  have hopened : Tail there low s.opened := h.frame { Frame.refl s with }
  rcases FileState.openLast_ok hstep with ⟨rfl, -⟩ | ⟨-, -, r, happend⟩
  · exact hopened
  · exact (hopened.cacheAppendBuffer happend).1

/-- Without a last buffer the position may go anywhere past the others. -/
theorem appendedPast (h : Tail there low s) (hnone : s.file.last = none) {n : Nat}
    (hn : s.file.appendPos + n < 2 ^ 64) : Tail there low (s.appendedPast n) where
  appendPos_lt := Nat.mod_lt _ (by decide)
  ends := fun b hb => nomatch hnone.symm.trans hb
  targets := h.targets
  present := fun _ _ b hb => nomatch hnone.symm.trans hb
  below := by
    intro hlow b buffer hbuffer
    refine Or.inr ?_
    rcases h.below hlow b buffer hbuffer with hlast | hlt
    · cases hnone.symm.trans hlast
    · change buffer.offset < (s.file.appendPos + n) % 2 ^ 64
      rw [Nat.mod_eq_of_lt hn]
      exact hlt.trans_le (Nat.le_add_right _ _)

theorem openLast_appendPos (hstep : s.openLast a = .ok s') :
    s'.file.appendPos = s.file.appendPos := by
  rcases FileState.openLast_ok hstep with ⟨rfl, -⟩ | ⟨-, -, r, happend⟩
  · rfl
  · rcases (FileState.cacheAppendBuffer_ok happend).2.2 with ⟨-, rfl⟩ | ⟨-, -, -, rfl⟩
    · rfl
    · rfl

theorem append (h : Tail there low s) {offset : Nat} {payload : List UInt8}
    (hn : s.file.appendPos + payload.length < 2 ^ 64)
    (hstep : s.append bs id offset payload a = .ok s') : Tail there low s' := by
  obtain ⟨s₁, hopen, hrest⟩ := FileState.append_ok hstep
  have h₁ := h.openLast hopen
  rw [← openLast_appendPos hopen] at hn
  rcases hrest with ⟨hnone, rfl | rfl⟩ | ⟨-, -, ⟨-, rfl⟩ | ⟨-, hfill⟩⟩
  · exact (h₁.appendedPast hnone hn).send rfl
  · exact (h₁.appendedPast hnone hn).frame (.reply _ _ _)
  · exact h₁.send rfl
  · exact h₁.startFill hfill

/-- A copy goes to the last buffer, or there is nothing to copy. -/
theorem copied (h : Tail there low s) {old : CacheBuffer} {payload : List UInt8}
    (hold : s.file.cache.buffers b = some old) (hfilled : old.bytesFilled ≤ cacheBufferSize)
    (hb : s.file.last = some b ∨ old.bytesFilled = cacheBufferSize)
    (hn : s.file.appendPos + payload.length < 2 ^ 64) :
    Tail there low (s.copied b old payload) := by
  have hcopy : FileState.fillLength old payload ≤ payload.length := Nat.min_le_right _ _
  have hroom := Heap.fillLength_le hfilled payload
  have hmod : (s.file.appendPos + FileState.fillLength old payload) % 2 ^ 64 =
      s.file.appendPos + FileState.fillLength old payload := Nat.mod_eq_of_lt (by omega)
  have happend : (s.copied b old payload).file.appendPos =
      s.file.appendPos + FileState.fillLength old payload := hmod
  have hbuffers : ∀ c buffer, (s.copied b old payload).file.cache.buffers c = some buffer →
      ∃ before, s.file.cache.buffers c = some before ∧ buffer.offset = before.offset ∧
        buffer.bytesFilled =
          before.bytesFilled + if c = b then FileState.fillLength old payload else 0 := by
    intro c buffer hbuffer
    by_cases hc : c = b
    · subst hc
      obtain rfl := Option.some.inj ((FileState.copied_buffer hfilled).symm.trans hbuffer)
      exact ⟨old, hold, rfl, (if_pos rfl).symm ▸ rfl⟩
    · rw [if_neg hc]
      exact ⟨buffer, (FileState.copied_other hc).symm.trans hbuffer, rfl, rfl⟩
  exact {
    appendPos_lt := Nat.mod_lt _ (by decide)
    ends := by
      intro c hc buffer hbuffer
      obtain ⟨before, hbefore, hoffset, hbytes⟩ := hbuffers c buffer hbuffer
      have hends := h.ends c hc before hbefore
      rw [happend, hoffset, hbytes]
      split
      · omega
      · rename_i hne
        have hfull := hb.resolve_left fun hlast =>
          hne (Option.some.inj (hc.symm.trans hlast))
        omega
    targets := by
      intro w hw c hc
      refine (h.targets w hw c hc).imp id fun hfull buffer hbuffer => ?_
      obtain ⟨before, hbefore, -, hbytes⟩ := hbuffers c buffer hbuffer
      rw [hbytes, hfull before hbefore]
      split
      · rename_i heq
        obtain rfl := Option.some.inj (hold.symm.trans (heq ▸ hbefore))
        have := hfull old hbefore
        omega
      · rfl
    present := fun hthere hfree c hc => Heap.isSome_update (h.present hthere hfree c hc)
    below := by
      intro hlow c buffer hbuffer
      obtain ⟨before, hbefore, hoffset, -⟩ := hbuffers c buffer hbuffer
      rw [happend, hoffset]
      exact (h.below hlow c before hbefore).imp id fun hlt => hlt.trans_le (Nat.le_add_right _ _) }

theorem fillRound (h : Tail there low s) {payload : List UInt8} {filled : Nat}
    (hfilled : ∀ old, s.file.cache.buffers b = some old → old.bytesFilled ≤ cacheBufferSize)
    (hb : s.file.last = some b ∨
      ∀ old, s.file.cache.buffers b = some old → old.bytesFilled = cacheBufferSize)
    (hn : s.file.appendPos + payload.length < 2 ^ 64)
    (hstep : s.fillRound id b payload filled a = .ok s') : Tail there low s' := by
  obtain ⟨last, hlast, hround⟩ := FileState.fillRound_ok hstep
  have hroom := hfilled last hlast
  have hcopied := h.copied hlast hroom (hb.imp_right fun hfull => hfull last hlast) hn
  rcases hround with ⟨hpartly, rfl⟩ | ⟨-, r, s₁, happend, ⟨c, rfl, rfl⟩ | ⟨rfl, rfl⟩⟩
  · refine hcopied.sendFill ?_
    refine (hb.resolve_right fun hfull => hpartly ?_).symm
    rw [FileState.bytesFilled_eq hroom, FileState.fillLength_eq hroom, hfull last hlast,
      Nat.sub_self, Nat.zero_min, Nat.add_zero]
  · obtain ⟨h₁, hnew⟩ := hcopied.cacheAppendBuffer happend
    exact h₁.sendFill (hnew c rfl).symm
  · exact (hcopied.cacheAppendBuffer happend).1.frame (.reply _ _ _)

/-! ### Truncates -/

/-- A truncate that cuts nothing of the last buffer, and leaves no buffer beyond. -/
theorem cut (h : Tail there low s) {n : Nat}
    (hcut : s.file.appendPos ≤ n ∨ ∀ b ∈ s.file.last, s.file.cache.buffers b = none)
    (hlow : low → ∀ b buffer, s.file.cache.buffers b = some buffer →
      s.file.last = some b ∨ buffer.offset < n)
    (happend : s'.file.appendPos = min s.file.appendPos n) (hlast : s'.file.last = s.file.last)
    (hcache : s'.file.cache = s.file.cache) (hfree : s'.isFree = s.isFree)
    (hpending : s'.pending = s.pending) : Tail there low s' where
  appendPos_lt := happend ▸ (Nat.min_le_left _ _).trans_lt h.appendPos_lt
  ends := by
    rw [hlast, hcache, happend]
    intro b hb buffer hbuffer
    rcases hcut with hle | hgone
    · rw [Nat.min_eq_left hle]
      exact h.ends b hb buffer hbuffer
    · cases (hgone b hb).symm.trans hbuffer
  targets := by
    rw [hlast, hcache, hpending]
    exact h.targets
  present := by
    rw [hlast, hcache, hfree]
    exact h.present
  below := by
    rw [hlast, hcache, happend]
    intro low b buffer hbuffer
    rcases h.below low b buffer hbuffer with hb | hlt
    · exact Or.inl hb
    · exact (hlow low b buffer hbuffer).imp_right fun hn => Nat.lt_min.mpr ⟨hlt, hn⟩

theorem fsTruncateResizeCb (h : Tail there low s) {n : Nat}
    (hcut : a.bserrno = 0 →
      s.file.appendPos ≤ n ∨ ∀ b ∈ s.file.last, s.file.cache.buffers b = none)
    (hlow : low → a.bserrno = 0 → ∀ b buffer, s.file.cache.buffers b = some buffer →
      s.file.last = some b ∨ buffer.offset < n)
    (hstep : s.fsTruncateResizeCb bs id n a = .ok s') : Tail there low s' := by
  rcases FileState.fsTruncateResizeCb_ok hstep with ⟨-, rfl⟩ | ⟨hzero, rfl⟩
  · exact h.frame (.reply s _ _)
  · exact send (h.cut (hcut hzero) (fun low => hlow low hzero) rfl rfl rfl rfl rfl) rfl

theorem rwComplete (h : Tail there low s) {op : Option Nat} {stage : Stage}
    (hcut : ∀ n ∈ (Work.rw op stage).cuts, a.bserrno = 0 →
      s.file.appendPos ≤ n ∨ ∀ b ∈ s.file.last, s.file.cache.buffers b = none)
    (hlow : low → ∀ n ∈ (Work.rw op stage).cuts, a.bserrno = 0 → ∀ b buffer,
      s.file.cache.buffers b = some buffer → s.file.last = some b ∨ buffer.offset < n)
    (hstep : s.rwComplete bs op stage a = .ok s') : Tail there low s' := by
  obtain ⟨t, hasync, hstage⟩ := FileState.rwComplete_ok hstep
  refine frame (s := s.setAsyncFile t.file) ?_ (Frame.rwStage hstage)
  rcases FileState.asyncStep_ok rfl hasync with
    ⟨-, happend, -⟩ | ⟨n, rw, rfl, hzero, -, happend, -⟩
  · exact h.calm happend rfl rfl (fun _ buffer hbuffer => ⟨buffer, hbuffer, rfl, rfl⟩)
      (fun _ _ buffer _ hbuffer => ⟨buffer, hbuffer⟩) fun _ hw => Or.inl hw
  · exact h.cut (hcut n rfl hzero) (fun low => hlow low n rfl hzero) happend rfl rfl rfl rfl

/-! ### Reads -/

theorem checkReadahead (h : Tail there low s) (hheap : Heap False s) {offset : Nat} {ok : Bool}
    (hlow : low → nextCacheBufferOffset offset < s.file.length →
      nextCacheBufferOffset offset < s.file.appendPos)
    (hstep : s.checkReadahead offset ok = .ok s') : Tail there low s' := by
  rcases FileState.checkReadahead_ok hstep with rfl | ⟨hnew, -, hshort, rfl⟩
  · exact h
  refine send ?_ rfl
  have hold : ∀ c, s.file.last = some c ∨ (∃ w ∈ s.pending, w.target = some c) → ∀ buffer,
      (s.ahead (nextCacheBufferOffset offset)).file.cache.buffers c = some buffer →
        s.file.cache.buffers c = some buffer := by
    intro c hc buffer hbuffer
    rw [Heap.ahead_cache] at hbuffer
    have hne : c ≠ s.brk := Nat.ne_of_lt (hheap.targets c hc).1
    exact (Function.update_of_ne hne ..).symm.trans hbuffer
  exact {
    appendPos_lt := h.appendPos_lt
    ends := fun c hc buffer hbuffer => h.ends c hc buffer (hold c (Or.inl hc) buffer hbuffer)
    targets := fun w hw c hc => (h.targets w hw c hc).imp_right fun hfull buffer hbuffer =>
      hfull buffer (hold c (Or.inr ⟨w, hw, hc⟩) buffer hbuffer)
    present := by
      intro hthere hfree c hc
      rw [Heap.ahead_cache]
      exact Heap.isSome_update (h.present hthere hfree c hc)
    below := by
      intro low
      rw [Heap.ahead_cache]
      exact Heap.forall_update (h.below low) (Or.inr (hlow low hshort)) }

theorem fileRead (h : Tail there low s) (hheap : Heap False s) {offset length : Nat}
    (hlow : low → ∀ o ∈ s.aheadOffsets offset length, o < s.file.length → o < s.file.appendPos)
    (hstep : s.fileRead offset length a = .ok s') : Tail there low s' := by
  rcases FileState.fileRead_ok hstep with rfl | ⟨n, s₁, ⟨-, -, rfl⟩, haheads, rfl⟩
  · exact h.frame { Frame.refl s with }
  have hseq : Tail there low (s.sequential offset (s.readableLength offset length)) :=
    h.frame { Frame.refl s with }
  have hseq' : Heap False (s.sequential offset (s.readableLength offset length)) :=
    hheap.fields rfl rfl rfl rfl rfl
  refine send ?_ rfl
  rcases FileState.checkReadaheads_ok haheads with rfl | ⟨hmany, s₂, hfirst, hsecond⟩
  · exact hseq
  rw [FileState.aheadOffsets, if_pos hmany] at hlow
  have hlow₁ := fun low => hlow low _ List.mem_cons_self
  have hlow₂ := fun low => hlow low _ (List.mem_cons_of_mem _ List.mem_cons_self)
  refine (hseq.checkReadahead hseq' hlow₁ hfirst).checkReadahead (hseq'.checkReadahead hfirst)
    (fun low => ?_) hsecond
  rcases FileState.checkReadahead_ok hfirst with rfl | ⟨-, -, -, rfl⟩
  · exact hlow₂ low
  · exact hlow₂ low

theorem readaheadDone (h : Tail there low s) {old : CacheBuffer} {length : Nat}
    (hold : s.file.cache.buffers b = some old) (hb : s.file.last ≠ some b)
    (htarget : ∀ w ∈ s.pending, w.target ≠ some b) :
    Tail there low (s.readaheadDone b old length) where
  appendPos_lt := h.appendPos_lt
  ends := by
    intro c hc buffer hbuffer
    have hne : c ≠ b := fun heq => hb (heq ▸ hc)
    exact h.ends c hc buffer ((Function.update_of_ne hne ..).symm.trans hbuffer)
  targets := by
    intro w hw c hc
    have hne : c ≠ b := fun heq => htarget w hw (heq ▸ hc)
    exact (h.targets w hw c hc).imp_right fun hfull buffer hbuffer =>
      hfull buffer ((Function.update_of_ne hne ..).symm.trans hbuffer)
  present := fun hthere hfree c hc => Heap.isSome_update (h.present hthere hfree c hc)
  below := fun low => Heap.forall_update (h.below low) (h.below low b old hold)

/-! ### Buffers that leave -/

theorem leave (h : Tail there low s) (happend : s'.file.appendPos = s.file.appendPos)
    (hlast : s'.file.last = s.file.last) (hfree : s'.isFree = s.isFree)
    (hbuffers : ∀ b buffer, s'.file.cache.buffers b = some buffer →
      s.file.cache.buffers b = some buffer)
    (hstays : there → ∀ b, s.file.last = some b →
      s'.file.cache.buffers b = s.file.cache.buffers b)
    (hpending : s'.pending = s.pending) : Tail there low s' :=
  h.calm happend hlast hfree (fun b buffer hbuffer => ⟨buffer, hbuffers b buffer hbuffer, rfl, rfl⟩)
    (fun hthere b buffer hb hbuffer => ⟨buffer, (hstays hthere b hb).trans hbuffer⟩)
    fun _ hw => Or.inl (hpending ▸ hw)

theorem removeBuffer (h : Tail there low s) (old : CacheBuffer)
    (hb : there → s.file.last ≠ some b) : Tail there low (s.removeBuffer b old) := by
  refine h.leave rfl rfl rfl (fun c buffer hbuffer => ?_) (fun hthere c hc => ?_) rfl
  · have hne : c ≠ b := by
      rintro rfl
      cases (Function.update_self ..).symm.trans hbuffer
    exact (Function.update_of_ne hne ..).symm.trans hbuffer
  · have hne : c ≠ b := by
      rintro rfl
      exact hb hthere hc
    exact Function.update_of_ne hne ..

theorem treeFreeBuffers_some {c : BufRef} {buffer : CacheBuffer}
    (h : s.treeFreeBuffers.file.cache.buffers c = some buffer) :
    s.file.cache.buffers c = some buffer := by
  change (if c ∈ s.file.cache.refs ∧ idleIn s.file.cache.buffers c = true then none
    else s.file.cache.buffers c) = some buffer at h
  split at h
  · cases h
  · exact h

theorem treeFreeBuffers (h : Tail there low s)
    (hb : there → ∀ b ∈ s.file.last, idleIn s.file.cache.buffers b = false) :
    Tail there low s.treeFreeBuffers := by
  refine h.leave rfl rfl rfl (fun c buffer => treeFreeBuffers_some) (fun hthere c hc => ?_) rfl
  refine if_neg fun hidle => ?_
  exact Bool.false_ne_true ((hb hthere c hc).symm.trans hidle.2)

theorem readRound (h : Tail there low s) {offset finalOffset : Nat}
    (hb : there → ∀ b, s.file.cache.findFilled offset = some b → ∀ buffer,
      s.file.cache.buffers b = some buffer →
      (offset + FileState.readLen buffer offset (FileState.roundLength offset finalOffset)) %
        2 ^ 64 % cacheBufferSize = 0 → s.file.last ≠ some b)
    (hstep : s.readRound offset finalOffset a = .ok s') : Tail there low s' := by
  rcases FileState.readRound_ok hstep with
    rfl | ⟨-, rfl⟩ | ⟨b, buffer, hfind, hbuffer, -, ⟨hend, rfl⟩ | ⟨-, rfl⟩⟩
  · exact h
  · exact send (send h rfl) rfl
  · exact send (h.removeBuffer buffer fun hthere => hb hthere b hfind buffer hbuffer hend) rfl
  · exact send h rfl

theorem reclaimCacheBuffers (h : Tail there low s) (hheap : Heap False s)
    (hb : there → s.treeFreeBuffers.file.cache.isEmpty = false →
      ∀ b ∈ s.file.last, idleIn s.file.cache.buffers b = false) :
    Tail there low s.reclaimCacheBuffers := by
  unfold FileState.reclaimCacheBuffers
  split
  · exact h
  dsimp only
  split
  · rename_i hempty
    have hnone : ∀ c buffer, s.treeFreeBuffers.file.cache.buffers c = some buffer → False := by
      intro c buffer hbuffer
      have hlisted := (hheap.treeFreeBuffers.sits c buffer hbuffer).listed
      rw [Present.isEmpty, List.isEmpty_iff] at hempty
      exact List.not_mem_nil (hempty ▸ hlisted)
    exact {
      appendPos_lt := h.appendPos_lt
      ends := by rintro _ ⟨⟩
      targets := fun w _ c _ => Or.inr fun buffer hbuffer => (hnone c buffer hbuffer).elim
      present := by rintro _ _ _ ⟨⟩
      below := fun _ c buffer hbuffer => (hnone c buffer hbuffer).elim }
  · rename_i hsome
    exact h.treeFreeBuffers fun hthere => hb hthere (Bool.eq_false_of_not_eq_true hsome)

/-- A file that is freed has no last buffer to speak of. -/
theorem fileFree (h : Tail there low s) (hstep : s.fileFree = .ok s') : Tail there low s' := by
  have hgone : Tail False low s := { h with present := False.elim }
  unfold FileState.fileFree at hstep
  split at hstep
  · obtain rfl := Except.ok.inj hstep
    exact { hgone with present := nofun }
  dsimp only at hstep
  split at hstep
  · obtain rfl := Except.ok.inj hstep
    exact { hgone.treeFreeBuffers False.elim with present := nofun }
  · cases hstep

/-! ### Runs -/

theorem complete (h : Tail there low s) (hheap : Heap False s) {i : Nat}
    (hw : s.pending[i]? = some w) (hkeeps : KeepsTail s (.complete i, a))
    (hthere : there → ¬ EndsLast s (.complete i, a))
    (hlow : low → ∀ n ∈ w.cuts, a.bserrno = 0 → ∀ b buffer,
      s.file.cache.buffers b = some buffer → s.file.last = some b ∨ buffer.offset < n)
    (hstep : (s.take i).perform bs a w = .ok s') : Tail there low s' := by
  obtain ⟨hfills, hcuts⟩ := hkeeps w hw
  have htake := h.take i
  cases w with
  | append id offset payload => exact htake.append (hfills _ rfl) hstep
  | extendResize id numClusters payload =>
      simp only [FileState.perform] at hstep
      split at hstep
      · obtain rfl := Except.ok.inj hstep
        exact htake.frame (.reply _ _ _)
      · obtain ⟨-, rfl⟩ := FileState.blobOp_ok hstep
        exact send { htake with } rfl
  | startFill id payload => exact htake.startFill hstep
  | fill id b payload filled =>
      simp only [FileState.perform] at hstep
      split at hstep
      · obtain rfl := Except.ok.inj hstep
        exact htake.frame (.endFill _ _ _)
      · exact htake.fillRound (fun old hold => (hheap.sits b old hold).filled)
          (h.targets _ (mem_taken hw) b rfl) (hfills _ rfl) hstep
  | rw id stage => exact htake.rwComplete hcuts hlow hstep
  | flush => exact htake.fileFlush hstep
  | flushWrite b offset length =>
      obtain ⟨next, hnext, hstep⟩ := bind_ok.mp hstep
      obtain ⟨s₁, hwrite, hdone⟩ := bind_ok.mp hstep
      exact htake.flushWrite (CachedFile.buffer_ok.mp hnext) hwrite hdone
  | readahead b length =>
      obtain rfl := Frame.readahead hstep
      exact htake.send rfl
  | readaheadRead b length =>
      obtain ⟨buffer, hbuffer, hstep⟩ := bind_ok.mp hstep
      obtain ⟨s₁, hread, hret⟩ := bind_ok.mp hstep
      obtain rfl := Except.ok.inj hret
      obtain ⟨image, rfl, -⟩ := FileState.readAhead_ok hread
      have hother : ∀ c, s.file.last = some c ∨ (∃ w ∈ s.pending, w.target = some c) → c ≠ b := by
        rintro c hc rfl
        exact (hheap.targets c hc).2 _ (mem_taken hw) rfl
      refine readaheadDone (s := (s.take i).setMem b image) { htake with }
        (CachedFile.buffer_ok.mp hbuffer) (fun hlast => hother b (Or.inl hlast) rfl)
        fun w' hw' htarget => hother b (Or.inr ⟨w', mem_of_taken hw', htarget⟩) rfl
  | readLoop offset finalOffset =>
      refine htake.readRound (fun hthere' b hfind buffer hbuffer hend hlast => ?_) hstep
      exact hthere hthere' ⟨_, hw, _, rfl, b, hfind, hlast, buffer, hbuffer, hend⟩
  | truncateResize id n =>
      exact htake.fsTruncateResizeCb (hcuts n rfl) (fun low => hlow low n rfl) hstep
  | _ => exact htake.frame (Frame.perform hstep trivial)

theorem step (h : Tail there low s) (hheap : Heap False s) {e : FileEvent × Answer}
    (hkeeps : KeepsTail s e) (hthere : there → ¬ EndsLast s e ∧ ¬ ReclaimsLast s e)
    (hlow : low → KeepsBelow s e) (hstep : FileSteps bs s e s') : Tail there low s' := by
  obtain ⟨event, a⟩ := e
  obtain ⟨-, hact⟩ := FileState.step_ok hstep
  cases event with
  | read offset length => exact h.fileRead hheap (fun low => (hlow low).1 _ rfl) hact
  | reclaim =>
      obtain rfl := Except.ok.inj hact
      refine h.reclaimCacheBuffers hheap fun hthere' hsome b hb => ?_
      exact Bool.eq_false_of_not_eq_true fun hidle =>
        (hthere hthere').2 ⟨rfl, hsome, b, hb, hidle⟩
  | free => exact h.fileFree hact
  | complete i =>
      obtain ⟨w, hw, hperform⟩ := FileState.complete_ok hact
      exact h.complete hheap hw hkeeps (fun hthere' => (hthere hthere').1)
        (fun low n hn hzero b buffer hbuffer =>
          (hlow low).2 w hw n hn hzero b (hheap.sits b buffer hbuffer).listed buffer hbuffer)
            hperform
  | _ => exact h.frame (Frame.act hact trivial)

theorem initial (h : s.Initial bs) : Tail there low s where
  appendPos_lt := h.appendPos ▸ h.length_lt
  ends := by simp [h.last]
  targets := by simp [h.pending]
  present := by simp [h.last]
  below := by simp [h.cache]

end Tail

end Nbfs.Cache
