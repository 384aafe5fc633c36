import Nbfs.Cache.Durable
import Nbfs.Cache.ReadLength

set_option autoImplicit false

/-!
# Readaheads and appends

While appends go through the cache, a readahead of the unit in which the file ends is of all that
the file has there, and nothing is appended to that unit before the readahead is done: an append
would need the buffer of the unit, and this is not the last one.
-/

namespace Nbfs.Cache

open Nbfs.Lib
open Nbfs.Async (Blobstore Stage ENOMEM)

/-- The buffer of a readahead, and how much is read. -/
def Work.aheadOf : Work → Option (BufRef × Nat)
  | readahead b length | readaheadRead b length => some (b, length)
  | _ => none

theorem Work.ahead_of {w : Work} {b : BufRef} {n : Nat} (h : w.aheadOf = some (b, n)) :
    w.ahead = some b := by
  cases w with
  | readahead c m | readaheadRead c m =>
      obtain ⟨rfl, -⟩ := Prod.mk.inj (Option.some.inj h)
      rfl
  | _ => cases h

/-- The file is as long as what was appended, and a readahead is of a whole unit, or of all that
the file has of it. -/
structure Aheads (s : FileState) : Prop where
  length : s.file.length = s.file.appendPos
  whole : ∀ w ∈ s.pending, ∀ b n, w.aheadOf = some (b, n) → ∀ buffer,
    s.file.cache.buffers b = some buffer →
      n = cacheBufferSize ∨ s.file.appendPos ≤ buffer.offset + n

namespace Aheads

variable {bs : Blobstore} {s s' : FileState} {a : Answer} {w : Work} {b : BufRef} {id : Nat}

/-- Buffers stay where they are, and no readahead begins. -/
theorem calm (h : Aheads s) (hlength : s'.file.length = s.file.length)
    (happend : s'.file.appendPos = s.file.appendPos)
    (hbuffers : ∀ c buffer, s'.file.cache.buffers c = some buffer →
      (∃ old, s.file.cache.buffers c = some old ∧ buffer.offset = old.offset) ∨
        ∀ w ∈ s.pending, w.io ≠ some c)
    (hpending : ∀ w ∈ s'.pending, w ∈ s.pending ∨ w.ahead = none) : Aheads s' where
  length := by rw [hlength, happend, h.length]
  whole := by
    intro w hw c n hof buffer hbuffer
    have hahead := Work.ahead_of hof
    have hold : w ∈ s.pending := (hpending w hw).resolve_right fun hnone => by
      cases hnone.symm.trans hahead
    rcases hbuffers c buffer hbuffer with ⟨old, hbefore, hoffset⟩ | hunused
    · rw [happend, hoffset]
      exact h.whole w hold c n hof old hbefore
    · exact absurd (Work.io_of_ahead hahead) (hunused w hold)

theorem frame (h : Aheads s) (hframe : Frame s s') : Aheads s' := by
  refine h.calm hframe.length hframe.appendPos
    (fun c buffer hbuffer => Or.inl ⟨buffer, hframe.cache ▸ hbuffer, rfl⟩) fun w hw => ?_
  refine (hframe.pending w hw).imp_right fun hfree => ?_
  cases hahead : w.ahead with
  | none => rfl
  | some b => cases hfree.1.symm.trans (Work.io_of_ahead hahead)

/-- Nothing that the invariant looks at changes. -/
theorem fields (h : Aheads s) (hlength : s'.file.length = s.file.length)
    (happend : s'.file.appendPos = s.file.appendPos) (hcache : s'.file.cache = s.file.cache)
    (hpending : s'.pending = s.pending) : Aheads s' :=
  h.calm hlength happend (fun _ buffer hbuffer => Or.inl ⟨buffer, hcache ▸ hbuffer, rfl⟩)
    fun _ hw => Or.inl (hpending ▸ hw)

theorem take (h : Aheads s) (i : Nat) : Aheads (s.take i) :=
  h.calm rfl rfl (fun _ buffer hbuffer => Or.inl ⟨buffer, hbuffer, rfl⟩) fun _ hw =>
    Or.inl (mem_of_taken hw)

theorem send (h : Aheads s) (hahead : w.ahead = none) : Aheads (s.send w) := by
  refine h.calm rfl rfl (fun _ buffer hbuffer => Or.inl ⟨buffer, hbuffer, rfl⟩) fun w' hw' => ?_
  rcases List.mem_append.mp hw' with hold | hnew
  · exact Or.inl hold
  · exact Or.inr (List.mem_singleton.mp hnew ▸ hahead)

/-- A readahead goes on, or begins. -/
theorem sendAhead (h : Aheads s) {c : BufRef} {n : Nat} (hof : w.aheadOf = some (c, n))
    (hwhole : ∀ buffer, s.file.cache.buffers c = some buffer →
      n = cacheBufferSize ∨ s.file.appendPos ≤ buffer.offset + n) : Aheads (s.send w) where
  length := h.length
  whole := by
    intro w' hw' d m hof' buffer hbuffer
    rcases List.mem_append.mp hw' with hold | hnew
    · exact h.whole w' hold d m hof' buffer hbuffer
    · obtain rfl := List.mem_singleton.mp hnew
      obtain ⟨rfl, rfl⟩ := Prod.mk.inj (Option.some.inj (hof.symm.trans hof'))
      exact hwhole buffer hbuffer

/-- A buffer keeps its place. -/
theorem setBuffer (h : Aheads s) {old new : CacheBuffer}
    (hold : s.file.cache.buffers b = some old) (hoffset : new.offset = old.offset) :
    Aheads (s.setFile (s.file.setBuffer b new)) :=
  h.calm rfl rfl (Heap.forall_update (fun _ buffer hbuffer => Or.inl ⟨buffer, hbuffer, rfl⟩)
    (Or.inl ⟨old, hold, hoffset⟩)) fun _ hw => Or.inl hw

/-- A buffer comes. -/
theorem inserted (h : Aheads s) (hheap : Heap True s) {offset : Nat} {busy : Bool}
    (hlength : s'.file.length = s.file.length) (happend : s'.file.appendPos = s.file.appendPos)
    (hcache : s'.file.cache =
      (s.file.cache.step (.store s.brk ⟨offset, 0, 0, busy⟩)).step (.insert s.brk))
    (hpending : s'.pending = s.pending) : Aheads s' := by
  refine h.calm hlength happend ?_ fun _ hw => Or.inl (hpending ▸ hw)
  rw [hcache]
  exact Heap.forall_update (fun c buffer hbuffer => Or.inl ⟨buffer, hbuffer, rfl⟩)
    (Or.inr hheap.brk_unused)

/-- Some buffers leave. -/
theorem leave (h : Aheads s) (hlength : s'.file.length = s.file.length)
    (happend : s'.file.appendPos = s.file.appendPos)
    (hbuffers : ∀ c buffer, s'.file.cache.buffers c = some buffer →
      s.file.cache.buffers c = some buffer) (hpending : s'.pending = s.pending) : Aheads s' :=
  h.calm hlength happend
    (fun c buffer hbuffer => Or.inl ⟨buffer, hbuffers c buffer hbuffer, rfl⟩)
    fun _ hw => Or.inl (hpending ▸ hw)

/-! ### Appends -/

theorem cacheAppendBuffer (h : Aheads s) (hheap : Heap True s) {ok : Bool} {r : Option BufRef}
    (hstep : s.cacheAppendBuffer ok = .ok (r, s')) : Aheads s' := by
  rcases (FileState.cacheAppendBuffer_ok hstep).2.2 with ⟨-, rfl⟩ | ⟨-, -, -, rfl⟩
  · exact h
  · exact h.inserted hheap rfl rfl rfl rfl

theorem startFill (h : Aheads s) {payload : List UInt8}
    (hstep : s.startFill id payload a = .ok s') : Aheads s' := by
  rcases FileState.startFill_ok hstep with rfl | ⟨last, -, rfl⟩
  · exact h.fields rfl rfl rfl rfl
  · exact h.send rfl

theorem append (h : Aheads s) (hheap : Heap True s) {offset : Nat} {payload : List UInt8}
    (hcached : ¬ s.GoesPast a) (hstep : s.append bs id offset payload a = .ok s') : Aheads s' := by
  obtain ⟨s₁, hopen, hrest⟩ := FileState.append_ok hstep
  have hopened : Aheads s.opened := h.fields rfl rfl rfl rfl
  have h₁ : Aheads s₁ := by
    rcases FileState.openLast_ok hopen with ⟨rfl, -⟩ | ⟨-, -, r, happend⟩
    · exact hopened
    · exact hopened.cacheAppendBuffer (hheap.fields rfl rfl rfl rfl rfl) happend
  rcases hrest with ⟨hnone, -⟩ | ⟨-, -, ⟨-, rfl⟩ | ⟨-, hfill⟩⟩
  · exact absurd (FileState.openLast_none hopen hnone).1 hcached
  · exact h₁.send rfl
  · exact h₁.startFill hfill

/-- Where a readahead is short of its unit, no append goes on. -/
theorem copied (h : Aheads s) (hbacked : Backed bs s) (hheap : Heap True s) {old : CacheBuffer}
    {payload : List UInt8} (hold : s.file.cache.buffers b = some old)
    (hnot : ∀ w ∈ s.pending, w.ahead ≠ some b)
    (hends : 0 < FileState.fillLength old payload →
      old.offset + old.bytesFilled = s.file.appendPos)
    (hn : s.file.appendPos + payload.length < 2 ^ 64) : Aheads (s.copied b old payload) := by
  have hcopy : FileState.fillLength old payload ≤ payload.length := Nat.min_le_right _ _
  have hgrown : (s.file.appendPos + FileState.fillLength old payload) % 2 ^ 64 =
      s.file.appendPos + FileState.fillLength old payload := Nat.mod_eq_of_lt (by omega)
  constructor
  · change max s.file.length ((s.file.appendPos + _) % 2 ^ 64) = (s.file.appendPos + _) % 2 ^ 64
    rw [h.length, hgrown]
    exact Nat.max_eq_right (Nat.le_add_right _ _)
  intro w hw c n hof buffer hbuffer
  have hahead := Work.ahead_of hof
  have hne : c ≠ b := by
    rintro rfl
    exact hnot w hw hahead
  replace hbuffer : s.file.cache.buffers c = some buffer :=
    (Function.update_of_ne hne ..).symm.trans hbuffer
  by_cases hunit : n = cacheBufferSize
  · exact Or.inl hunit
  have hreach := (h.whole w hw c n hof buffer hbuffer).resolve_left hunit
  refine Or.inr ?_
  change (s.file.appendPos + _) % 2 ^ 64 ≤ _
  rw [hgrown]
  rcases Nat.eq_zero_or_pos (FileState.fillLength old payload) with hzero | hsome
  · rw [hzero]
    exact hreach
  -- the end of the file is in the units of both buffers
  exfalso
  have hfilled := (hheap.sits b old hold).filled
  have hroom : old.bytesFilled < cacheBufferSize := by
    rw [FileState.fillLength_eq hfilled] at hsome
    omega
  have hbehind : buffer.offset + n ≤ s.file.lengthFlushed := by
    have hsuits := hbacked.works w hw
    cases w with
    | readahead d m | readaheadRead d m =>
        obtain ⟨rfl, rfl⟩ := Prod.mk.inj (Option.some.inj hof)
        exact hsuits buffer hbuffer
    | _ => cases hof
  have hle : n ≤ cacheBufferSize := by
    have hfits := hheap.fits w hw c (Work.io_of_ahead hahead) buffer hbuffer
    cases w with
    | readahead d m | readaheadRead d m =>
        obtain ⟨rfl, rfl⟩ := Prod.mk.inj (Option.some.inj hof)
        exact hfits.2.2
    | _ => cases hof
  have hflushed := hbacked.flushed
  have hend := hends hsome
  have hsame : buffer.offset = old.offset := same_unit (p := s.file.appendPos)
    (hheap.sits c buffer hbuffer).aligned (hheap.sits b old hold).aligned (by omega) (by omega)
    (by omega) (by omega)
  exact hne (hheap.distinct b old hold c buffer hbuffer hsame)

theorem fillRound (h : Aheads s) (hbacked : Backed bs s) {payload : List UInt8} {filled : Nat}
    (hheap : Heap True (s.held (.fill id b payload filled))) (hb : s.AtEndOrFull b)
    (hn : s.file.appendPos + payload.length < 2 ^ 64)
    (hstep : s.fillRound id b payload filled a = .ok s') : Aheads s' := by
  obtain ⟨last, hlast, hround⟩ := FileState.fillRound_ok hstep
  have hsits := hheap.sits b last hlast
  have hdropped := hheap.drop rfl
  have hcopied := (hheap.copied rfl hlast payload).drop rfl
  have hnot : ∀ w ∈ s.pending, w.ahead ≠ some b := fun w hw =>
    (hheap.targets b (Or.inr ⟨_, List.mem_cons_self, rfl⟩)).2 w (List.mem_cons_of_mem _ hw)
  have h₁ := h.copied hbacked hdropped hlast hnot
    (FileState.copies_at_end hsits.filled hlast hb) hn
  rcases hround with ⟨-, rfl⟩ | ⟨-, r, s₁, happend, ⟨c, -, rfl⟩ | ⟨-, rfl⟩⟩
  · exact h₁.send rfl
  · exact (h₁.cacheAppendBuffer hcopied happend).send rfl
  · exact (h₁.cacheAppendBuffer hcopied happend).fields rfl rfl rfl rfl

/-! ### Flushes and reads -/

theorem fileFlush (h : Aheads s) (hstep : s.fileFlush = .ok s') : Aheads s' := by
  rcases FileState.fileFlush_ok hstep with
    ⟨-, rfl⟩ | ⟨b, next, -, hnext, ⟨rfl, -⟩ | ⟨rfl, -⟩ | ⟨-, -, -, rfl⟩⟩
  · have hmoved : Aheads (s.setFile { s.file with lengthFlushed := s.file.appendPos }) :=
      h.fields rfl rfl rfl rfl
    exact hmoved.send rfl
  · exact h
  · exact h.send rfl
  · have hset : Aheads (s.setFile (s.file.setBuffer b { next with inProgress := true })) :=
      h.setBuffer hnext rfl
    exact hset.send rfl

theorem flushWrite (h : Aheads s) {next : CacheBuffer} {offset length : Nat}
    (hnext : s.file.cache.buffers b = some next)
    (hle : s.file.lengthFlushed + length ≤ s.file.appendPos) (hlt : s.file.appendPos < 2 ^ 64)
    {s₁ : FileState} (hwrite : s.flushed bs b next offset length a = .ok s₁)
    (hdone : s₁.fileFlushDone bs b next length = .ok s') : Aheads s' := by
  obtain rfl := FileState.fileFlushDone_ok hdone
  have hmoved : Aheads (s₁.flushDone b next length) := by
    have hwritten : s₁.file = s.file ∧ s₁.pending = s.pending := by
      rcases FileState.flushed_ok hwrite with ⟨-, rfl⟩ | ⟨-, -, rfl⟩
      · exact ⟨rfl, rfl⟩
      · exact ⟨rfl, rfl⟩
    refine h.calm ?_ ?_ ?_ fun w hw => Or.inl (hwritten.2 ▸ hw)
    · change max s₁.file.length ((s₁.file.lengthFlushed + length) % 2 ^ 64) = _
      rw [hwritten.1, h.length, Nat.mod_eq_of_lt (hle.trans_lt hlt)]
      exact Nat.max_eq_left hle
    · change s₁.file.appendPos = _
      rw [hwritten.1]
    · change ∀ c buffer, Function.update s₁.file.cache.buffers b _ c = some buffer → _
      rw [hwritten.1]
      exact Heap.forall_update (fun _ buffer hbuffer => Or.inl ⟨buffer, hbuffer, rfl⟩)
        (Or.inl ⟨next, hnext, rfl⟩)
  exact hmoved.send rfl

/-- A readahead is of the unit, or up to the end of the file. -/
theorem checkReadahead (h : Aheads s) (hheap : Heap True s)
    (hroom : s.file.appendPos + cacheBufferSize ≤ 2 ^ 64) {offset : Nat} {ok : Bool}
    (hstep : s.checkReadahead offset ok = .ok s') : Aheads s' := by
  rcases FileState.checkReadahead_ok hstep with rfl | ⟨-, -, hshort, rfl⟩
  · exact h
  have hcache := Heap.ahead_cache s (nextCacheBufferOffset offset)
  have hbegun : Aheads (s.ahead (nextCacheBufferOffset offset)) :=
    h.inserted hheap rfl rfl hcache rfl
  refine hbegun.sendAhead rfl fun buffer hbuffer => ?_
  rw [hcache] at hbuffer
  obtain rfl := Option.some.inj ((Function.update_self s.brk _ _).symm.trans hbuffer)
  change s.aheadLength _ = _ ∨ s.file.appendPos ≤ nextCacheBufferOffset offset + s.aheadLength _
  obtain ⟨unit, hunit⟩ : cacheBufferSize ∣ nextCacheBufferOffset offset := Nat.dvd_mul_left _ _
  have hlength := h.length
  have hsize : cacheBufferSize = 2 ^ 18 := by decide
  simp only [FileState.aheadLength, hunit, hsize] at hroom hshort ⊢
  rw [Nat.mod_eq_of_lt (by omega)]
  split
  · exact Or.inr (by omega)
  · exact Or.inl rfl

theorem fileRead (h : Aheads s) (hheap : Heap True s) {offset length : Nat}
    (hroom : s.file.appendPos + cacheBufferSize ≤ 2 ^ 64)
    (hstep : s.fileRead offset length a = .ok s') : Aheads s' := by
  rcases FileState.fileRead_ok hstep with rfl | ⟨n, s₁, -, haheads, rfl⟩
  · exact h.fields rfl rfl rfl rfl
  have hseq : Aheads (s.sequential offset n) := h.fields rfl rfl rfl rfl
  have hseq' : Heap True (s.sequential offset n) := hheap.fields rfl rfl rfl rfl rfl
  refine send ?_ rfl
  rcases FileState.checkReadaheads_ok haheads with rfl | ⟨-, s₂, hfirst, hsecond⟩
  · exact hseq
  have hroom₂ : s₂.file.appendPos + cacheBufferSize ≤ 2 ^ 64 := by
    rcases FileState.checkReadahead_ok hfirst with rfl | ⟨-, -, -, rfl⟩
    · exact hroom
    · exact hroom
  exact (hseq.checkReadahead hseq' hroom hfirst).checkReadahead (hseq'.checkReadahead hfirst) hroom₂
    hsecond

theorem readRound (h : Aheads s) {offset final : Nat}
    (hstep : s.readRound offset final a = .ok s') : Aheads s' := by
  rcases FileState.readRound_ok hstep with
    rfl | ⟨-, rfl⟩ | ⟨b, buffer, -, -, -, ⟨-, rfl⟩ | ⟨-, rfl⟩⟩
  · exact h
  · exact send (h.send rfl) rfl
  · refine send (h.leave rfl rfl (fun c other hother => ?_) rfl) rfl
    have hne : c ≠ b := by
      rintro rfl
      cases (Function.update_self ..).symm.trans hother
    exact (Function.update_of_ne hne ..).symm.trans hother
  · exact h.send rfl

theorem treeFreeBuffers (h : Aheads s) : Aheads s.treeFreeBuffers :=
  h.leave rfl rfl (fun _ _ => Tail.treeFreeBuffers_some) rfl

theorem reclaimCacheBuffers (h : Aheads s) : Aheads s.reclaimCacheBuffers := by
  unfold FileState.reclaimCacheBuffers
  split
  · exact h
  dsimp only
  split
  · exact h.treeFreeBuffers.fields rfl rfl rfl rfl
  · exact h.treeFreeBuffers

theorem fileFree (h : Aheads s) (hstep : s.fileFree = .ok s') : Aheads s' := by
  unfold FileState.fileFree at hstep
  split at hstep
  · obtain rfl := Except.ok.inj hstep
    exact h.fields rfl rfl rfl rfl
  dsimp only at hstep
  split at hstep
  · obtain rfl := Except.ok.inj hstep
    exact h.treeFreeBuffers.fields rfl rfl rfl rfl
  · cases hstep

/-! ### Steps -/

theorem complete (h : Aheads s) (hwhole : Whole bs s) {i : Nat} (hw : s.pending[i]? = some w)
    (hkeeps : KeepsBytes s (.complete i, a)) (hstep : (s.take i).perform bs a w = .ok s') :
    Aheads s' := by
  have hcached := hkeeps.cached w hw
  have htake := h.take i
  have hheld := hwhole.heap.taken hw
  have hdrop : w.io = none → Heap True (s.take i) := fun hio => hheld.drop hio
  have hbacked : Backed bs (s.take i) := hwhole.backed.take i
  cases w with
  | append id offset payload => exact htake.append (hdrop rfl) hcached hstep
  | extendResize id numClusters payload =>
      simp only [FileState.perform] at hstep
      split at hstep
      · obtain rfl := Except.ok.inj hstep
        exact htake.fields rfl rfl rfl rfl
      · obtain ⟨-, rfl⟩ := FileState.blobOp_ok hstep
        have hresized : Aheads { s.take i with
            blob := (s.take i).blob.resize bs numClusters a.contents } :=
          htake.fields rfl rfl rfl rfl
        exact hresized.send rfl
  | startFill id payload => exact htake.startFill hstep
  | fill id b payload filled =>
      simp only [FileState.perform] at hstep
      split at hstep
      · obtain rfl := Except.ok.inj hstep
        exact htake.frame (.endFill _ _ _)
      · have hb : s.AtEndOrFull b := FileState.atEndOrFull hwhole.tail (mem_taken hw) rfl
        exact htake.fillRound hbacked hheld hb ((hkeeps.last.1 _ hw).1 _ rfl) hstep
  | rw id stage =>
      obtain ⟨rw, rfl, hread⟩ := hwhole.backed.works _ (mem_taken hw)
      obtain ⟨iov, hstage⟩ := FileState.rwRead_ok hread hstep
      exact htake.frame (.rwStage hstage)
  | flush => exact htake.fileFlush hstep
  | flushWrite b offset length =>
      obtain ⟨next, hnext, hstep⟩ := bind_ok.mp hstep
      obtain ⟨s₁, hwrite, hdone⟩ := bind_ok.mp hstep
      exact htake.flushWrite (CachedFile.buffer_ok.mp hnext)
        (hwhole.backed.keepsCursors hwhole.heap hkeeps _ hw) hwhole.cursors.appendPos_lt hwrite hdone
  | readahead b length =>
      obtain rfl := Frame.readahead hstep
      exact htake.sendAhead (c := b) (n := length) rfl (h.whole _ (mem_taken hw) b length rfl)
  | readaheadRead b length =>
      obtain ⟨buffer, hbuffer, hstep⟩ := bind_ok.mp hstep
      obtain ⟨s₁, hread, hret⟩ := bind_ok.mp hstep
      obtain rfl := Except.ok.inj hret
      obtain ⟨image, rfl, -⟩ := FileState.readAhead_ok hread
      have hfound : Aheads ((s.take i).setMem b image) := htake.fields rfl rfl rfl rfl
      exact hfound.setBuffer (CachedFile.buffer_ok.mp hbuffer) rfl
  | readLoop offset final => exact htake.readRound hstep
  | truncateResize id n =>
      rcases FileState.fsTruncateResizeCb_ok hstep with ⟨-, rfl⟩ | ⟨hzero, -⟩
      · exact htake.fields rfl rfl rfl rfl
      · exact absurd hzero hcached
  | _ => exact htake.frame (Frame.perform hstep trivial)

theorem step (h : Aheads s) (hwhole : Whole bs s) {e : FileEvent × Answer}
    (hkeeps : KeepsBytes s e) (hstep : FileSteps bs s e s') : Aheads s' := by
  obtain ⟨event, a⟩ := e
  obtain ⟨-, hact⟩ := FileState.step_ok hstep
  cases event with
  | read offset length => exact h.fileRead hwhole.heap (hkeeps.reads _ rfl) hact
  | reclaim =>
      obtain rfl := Except.ok.inj hact
      exact h.reclaimCacheBuffers
  | free => exact h.fileFree hact
  | complete i =>
      obtain ⟨w, hw, hperform⟩ := FileState.complete_ok hact
      exact h.complete hwhole hw hkeeps hperform
  | _ => exact h.frame (Frame.act hact trivial)

theorem initial (h : s.Initial bs) : Aheads s where
  length := h.appendPos.symm
  whole := by simp [h.pending]

/-- No buffer is left filled short of `append_pos`. -/
theorem keepsReach (h : Aheads s) (hwhole : Whole bs s) {e : FileEvent × Answer}
    (hkeeps : KeepsBytes s e) : KeepsReach s e := by
  refine ⟨hkeeps.last.1, fun range hrange => ?_, fun w hw => ?_⟩
  · exact Nat.le_sub_of_add_le (hkeeps.reads range hrange)
  have hmem : w ∈ s.pending := by
    obtain ⟨event, a⟩ := e
    cases event with
    | complete i => exact mem_taken hw
    | _ => cases hw
  have hcached := hkeeps.cached w hw
  refine ⟨fun n hn hzero => ?_, fun n hn hgoes => ?_, fun ahead hahead buffer hbuffer => ?_⟩
  · cases w with
    | rw id stage =>
        obtain ⟨rw, rfl, -⟩ := hwhole.backed.works _ hmem
        cases hn
    | truncateResize id m => exact absurd hzero hcached
    | _ => cases hn
  · cases w with
    | append id offset payload => exact absurd hgoes hcached
    | _ => cases hn
  · cases w with
    | readaheadRead b n =>
        obtain rfl := Option.some.inj hahead
        exact h.whole _ hmem b n rfl buffer hbuffer
    | _ => cases hahead

end Aheads

end Nbfs.Cache
