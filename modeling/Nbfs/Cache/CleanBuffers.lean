import Nbfs.Cache.BufferHeap

set_option autoImplicit false

/-!
# Only clean buffers leave the cache

A read that comes to the end of a buffer removes it, whatever its state; the reclaim and
`file_free` look for buffers that are clean.  No buffer should leave before what it holds
is written, or while an operation is under way for it.
-/

namespace Nbfs.Cache

open Nbfs.Lib
open Nbfs.Async (Blobstore Stage ENOMEM)

/-- Buffers that were freed were clean, and every operation has its buffer. -/
structure OnlyCleanLeave (s : FileState) : Prop where
  freed : ∀ buffer, .freed buffer ∈ s.notes →
    buffer.bytesFlushed = buffer.bytesFilled ∧ buffer.inProgress = false
  outstanding : ∀ w ∈ s.pending, ∀ b, w.io = some b → b ∈ s.file.cache.refs

/-- A read comes to the end of a buffer only when all in it is flushed. -/
def ReadsFlushed (s : FileState) (e : FileEvent × Answer) : Prop :=
  ∀ w ∈ s.completed e.1, ∀ round ∈ w.round, ∀ b ∈ s.file.cache.findFilled round.1,
    ∀ buffer ∈ s.file.cache.buffers b,
      (round.1 + FileState.readLen buffer round.1 (FileState.roundLength round.1 round.2)) %
        2 ^ 64 % cacheBufferSize = 0 → buffer.bytesFlushed = buffer.bytesFilled

instance (s : FileState) (e : FileEvent × Answer) : Decidable (ReadsFlushed s e) :=
  inferInstanceAs (Decidable (∀ w ∈ s.completed e.1, ∀ round ∈ w.round,
    ∀ b ∈ s.file.cache.findFilled round.1, ∀ buffer ∈ s.file.cache.buffers b, _ → _))

theorem Present.findFilled_some {c : Present} {o : Nat} {b : BufRef} (h : c.findFilled o = some b) :
    c.find o = some b ∧ ∃ buffer, c.buffers b = some buffer ∧ 0 < buffer.bytesFilled := by
  obtain ⟨hfind, hfilled⟩ := Option.filter_eq_some_iff.mp h
  rw [Option.any_eq_true] at hfilled
  obtain ⟨buffer, hbuffer, hpos⟩ := hfilled
  exact ⟨hfind, buffer, hbuffer, of_decide_eq_true hpos⟩

namespace Heap

variable {clean : Prop} {s s' : FileState} {bs : Blobstore} {a : Answer} {w w' : Work} {b : BufRef}
  {id : Nat}
  {old new : CacheBuffer}

theorem onlyCleanLeave (h : Heap True s) : OnlyCleanLeave s where
  freed := h.freed trivial
  outstanding := by
    intro w hw b hio
    obtain ⟨buffer, hbuffer⟩ := h.outstanding trivial w hw b hio
    exact (h.sits b buffer hbuffer).listed

/-- A buffer with something in it, all of it flushed, has no operation. -/
theorem clean_of_flushed (h : Heap clean s) (hold : s.file.cache.buffers b = some old)
    (hpos : 0 < old.bytesFilled) (hflushed : old.bytesFlushed = old.bytesFilled) : old.Clean := by
  refine ⟨hflushed, Bool.eq_false_of_not_eq_true fun hin => ?_⟩
  obtain ⟨w, hw, hio⟩ := List.mem_filterMap.mp
    ((h.leases.busy_iff b true (Present.progress_some.mpr ⟨old, hold, hin⟩)).mp rfl)
  have hfits := h.fits w hw b hio old hold
  cases w with
  | flushWrite c offset length =>
      obtain ⟨-, hlength, hle⟩ := hfits
      omega
  | readahead c length => exact Nat.ne_of_gt hpos hfits.1
  | readaheadRead c length => exact Nat.ne_of_gt hpos hfits.1
  | _ => cases hio

/-! ### Calls -/

theorem fileCloseAsync (h : Heap clean s) (hstep : s.fileCloseAsync id = .ok s') :
    Heap clean s' := by
  rcases FileState.fileCloseAsync_ok hstep with rfl | rfl | rfl
  · exact h.reply
  · exact Heap.reply (h.fields rfl rfl rfl rfl rfl)
  · exact Heap.plain (h.fields rfl rfl rfl rfl rfl) rfl rfl

theorem callSyncCb (h : Heap clean s) {rc : Int} {cb : SyncCb}
    (hstep : s.callSyncCb rc cb = .ok s') :
    Heap clean s' := by
  cases cb with
  | client id =>
      obtain rfl := Except.ok.inj hstep
      exact h.reply
  | closeAsync id => exact h.fileCloseAsync hstep
  | close id =>
      obtain rfl := Except.ok.inj hstep
      exact h.plain rfl rfl

theorem checkSyncReqs (h : Heap clean s) (hstep : s.checkSyncReqs = .ok s') : Heap clean s' := by
  rcases FileState.checkSyncReqs_ok hstep with rfl | ⟨r, -, -, -, rfl⟩
  · exact h
  · exact Heap.plain (h.fields rfl rfl rfl rfl rfl) rfl rfl

theorem fileCacheFinishSync (h : Heap clean s) {ref : Nat} {bserrno : Int}
    (hstep : s.fileCacheFinishSync ref bserrno = .ok s') : Heap clean s' := by
  obtain ⟨r, -, -, s₁, hcb, rfl⟩ := FileState.fileCacheFinishSync_ok hstep
  refine Heap.plain (Heap.callSyncCb (Heap.note (n := .called ..) ?_ nofun) hcb) rfl rfl
  exact h.fields rfl rfl rfl rfl rfl

theorem fileSync (h : Heap clean s) {cb : SyncCb} (hstep : s.fileSync cb a = .ok s') :
    Heap clean s' := by
  rcases FileState.fileSync_ok hstep with ⟨-, hcb⟩ | hcb | ⟨-, rfl⟩
  · exact h.callSyncCb hcb
  · exact h.callSyncCb hcb
  · refine Heap.plain (Heap.note (n := .queued _) (Heap.alloc ?_) nofun) rfl rfl
    exact h.fields rfl rfl rfl rfl rfl

/-! ### Flushes -/

/-- A flush is of what is filled and not flushed. -/
theorem flushLength_eq (h : Heap clean s) (hold : s.file.cache.buffers b = some old) :
    FileState.flushLength old = old.bytesFilled - old.bytesFlushed := by
  have hsits := h.sits b old hold
  have hflushed := hsits.flushed
  have hfilled := hsits.filled
  have hsize : cacheBufferSize = 2 ^ 18 := by decide
  unfold FileState.flushLength
  omega

theorem fileFlush (h : Heap clean s) (hstep : s.fileFlush = .ok s') : Heap clean s' := by
  rcases FileState.fileFlush_ok hstep with
    ⟨-, rfl⟩ | ⟨b, next, -, hnext, ⟨rfl, -⟩ | ⟨rfl, -⟩ | ⟨-, hidle, hne, rfl⟩⟩
  · exact Heap.plain (h.fields rfl rfl rfl rfl rfl) rfl rfl
  · exact h
  · exact h.plain rfl rfl
  · refine (h.begin (w := .flushWrite b _ _) hnext hidle rfl rfl rfl
      ⟨rfl, Nat.pos_of_ne_zero hne, ?_⟩).send
    have hflushed := (h.sits b next hnext).flushed
    dsimp only
    rw [h.flushLength_eq hnext]
    omega

theorem flushWrite {offset length : Nat} (h : Heap clean (s.held (.flushWrite b offset length)))
    (hold : s.file.cache.buffers b = some old) {s₁ : FileState}
    (hwrite : s.flushed bs b old offset length a = .ok s₁)
    (hdone : s₁.fileFlushDone bs b old length = .ok s') : Heap clean s' := by
  obtain ⟨-, -, hle⟩ := h.fits _ List.mem_cons_self b rfl old hold
  have hfilled := (h.sits b old hold).filled
  have hsize : cacheBufferSize = 2 ^ 18 := by decide
  obtain rfl := FileState.fileFlushDone_ok hdone
  have hbounds : (old.bytesFlushed + length) % 2 ^ 32 ≤ old.bytesFilled ∧
      old.bytesFilled ≤ cacheBufferSize := by
    refine ⟨?_, hfilled⟩
    rw [Nat.mod_eq_of_lt (by omega)]
    exact hle
  have hfinished := h.finish { old with
    inProgress := false, bytesFlushed := (old.bytesFlushed + length) % 2 ^ 32 } rfl hold rfl rfl
      hbounds
  refine Heap.plain ?_ rfl rfl
  rcases FileState.flushed_ok hwrite with ⟨-, rfl⟩ | ⟨-, -, rfl⟩
  all_goals
    refine hfinished.frame rfl (Or.inl rfl) (Nat.le_refl _) (.refl _) fun buffer hmem => ?_
    exact (FileState.mem_note hmem).resolve_right nofun

/-! ### Appends -/

theorem cacheAppendBuffer (h : Heap clean s) {ok : Bool} {r : Option BufRef}
    (hstep : s.cacheAppendBuffer ok = .ok (r, s')) :
    Heap clean s' ∧ ∀ c, r = some c → s'.file.last = some c := by
  obtain ⟨-, haligned, happend⟩ := FileState.cacheAppendBuffer_ok hstep
  rcases happend with ⟨rfl, rfl⟩ | ⟨rfl, -, hfind, rfl⟩
  · exact ⟨h, nofun⟩
  · exact ⟨h.appended (Nat.dvd_of_mod_eq_zero haligned) hfind, fun c hc => hc⟩

/-- An append that fills the last buffer. -/
theorem holdLast (h : Heap clean s) (hio : w.io = none) (hlast : w.target = s.file.last) :
    Heap clean (s.held w) :=
  h.hold hio fun b hb => h.targets b (Or.inl (hlast.symm.trans hb))

theorem startFill (h : Heap clean s) {payload : List UInt8}
    (hstep : s.startFill id payload a = .ok s') :
    Heap clean s' := by
  rcases FileState.startFill_ok hstep with rfl | ⟨last, hlast, rfl⟩
  · exact h.reply
  · exact (h.holdLast (w := .fill id last payload 0) rfl hlast.symm).send

theorem openLast (h : Heap clean s) (hstep : s.openLast a = .ok s') : Heap clean s' := by
  have hopened : Heap clean s.opened :=
    h.fields rfl rfl rfl rfl rfl
  rcases FileState.openLast_ok hstep with ⟨rfl, -⟩ | ⟨-, -, r, happend⟩
  · exact hopened
  · exact (hopened.cacheAppendBuffer happend).1

theorem append (h : Heap clean s) {offset : Nat} {payload : List UInt8}
    (hstep : s.append bs id offset payload a = .ok s') : Heap clean s' := by
  obtain ⟨s₁, hopen, hrest⟩ := FileState.append_ok hstep
  have h₁ := h.openLast hopen
  have hpast : Heap clean (s₁.appendedPast payload.length) :=
    h₁.fields rfl rfl rfl rfl rfl
  rcases hrest with ⟨-, rfl | rfl⟩ | ⟨-, -, ⟨-, rfl⟩ | ⟨-, hfill⟩⟩
  · exact hpast.plain rfl rfl
  · exact hpast.reply
  · exact h₁.plain rfl rfl
  · exact h₁.startFill hfill

/-- The copy of a round fits the buffer. -/
theorem fillLength_le (hfilled : old.bytesFilled ≤ cacheBufferSize) (payload : List UInt8) :
    FileState.fillLength old payload ≤ cacheBufferSize - old.bytesFilled := by
  have hsize : cacheBufferSize = 2 ^ 18 := by decide
  refine (Nat.min_le_left _ _).trans ?_
  omega

/-- A copy into the buffer that an append fills. -/
theorem copied (h : Heap clean (s.held w)) (htarget : w.target = some b)
    (hold : s.file.cache.buffers b = some old) (payload : List UInt8) :
    Heap clean ((s.copied b old payload).held w) := by
  have hsits := h.sits b old hold
  have hflushed := hsits.flushed
  have hfull := hsits.filled
  have hcopy := fillLength_le hfull payload
  have hsize : cacheBufferSize = 2 ^ 18 := by decide
  have hno := (h.targets b (Or.inr ⟨w, List.mem_cons_self, htarget⟩)).2
  have hfilled : (old.bytesFilled + FileState.fillLength old payload) % 2 ^ 32 =
      old.bytesFilled + FileState.fillLength old payload := Nat.mod_eq_of_lt (by omega)
  have hstored := h.store { old with
      bytesFilled := (old.bytesFilled + FileState.fillLength old payload) % 2 ^ 32 }
    hold rfl rfl ⟨by dsimp only; omega, by dsimp only; omega⟩ fun w' hw' hio hfits => ?_
  · exact hstored.fields rfl rfl rfl rfl rfl
  · cases w' with
    | flushWrite c offset length =>
        obtain ⟨hoffset, hlength, hle⟩ := hfits
        exact ⟨hoffset, hlength, by dsimp only; omega⟩
    | readahead c length => exact absurd hio (hno _ hw')
    | readaheadRead c length => exact absurd hio (hno _ hw')
    | _ => trivial

theorem fillRound {payload : List UInt8} {filled : Nat}
    (h : Heap clean (s.held (.fill id b payload filled)))
    (hstep : s.fillRound id b payload filled a = .ok s') : Heap clean s' := by
  obtain ⟨last, hlast, hround⟩ := FileState.fillRound_ok hstep
  have hcopied := h.copied rfl hlast payload
  have hdropped := hcopied.drop rfl
  rcases hround with ⟨-, rfl⟩ | ⟨-, r, s₁, happend, ⟨c, rfl, rfl⟩ | ⟨rfl, rfl⟩⟩
  · refine (hdropped.hold (w := .fill id b _ _) rfl fun c hc => ?_).send
    have htarget := hcopied.targets c (Or.inr ⟨_, List.mem_cons_self, hc⟩)
    exact ⟨htarget.1, fun w' hw' => htarget.2 w' (List.mem_cons_of_mem _ hw')⟩
  · obtain ⟨h₁, hnew⟩ := hdropped.cacheAppendBuffer happend
    exact (h₁.holdLast (w := .fill id c _ _) rfl (hnew c rfl).symm).send
  · exact (hdropped.cacheAppendBuffer happend).1.reply

/-! ### Requests past the cache -/

theorem rwStage (h : Heap clean s) {op : Option Nat} {stage : Stage}
    (hstep : s.rwStage op stage = .ok s') :
    Heap clean s' := by
  rcases FileState.rwStage_ok hstep with ⟨rc, iov, -, ⟨-, rfl⟩ | ⟨id, -, rfl⟩⟩ | ⟨-, -, rfl⟩
  · exact h
  · exact h.reply
  · exact h.plain rfl rfl

theorem rwComplete (h : Heap clean s) {op : Option Nat} {stage : Stage}
    (hstep : s.rwComplete bs op stage a = .ok s') : Heap clean s' := by
  obtain ⟨t, -, hstage⟩ := FileState.rwComplete_ok hstep
  exact Heap.rwStage (s := s.setAsyncFile t.file) (h.fields rfl rfl rfl rfl rfl) hstage

/-! ### Reads -/

theorem checkReadahead (h : Heap clean s) {offset : Nat} {ok : Bool}
    (hstep : s.checkReadahead offset ok = .ok s') : Heap clean s' := by
  rcases FileState.checkReadahead_ok hstep with rfl | ⟨-, hfind, -, rfl⟩
  · exact h
  · refine (h.ahead ?_ (Nat.dvd_mul_left _ _) hfind).send
    unfold FileState.aheadLength
    split
    · exact Nat.le_of_lt (Nat.mod_lt _ (by decide))
    · exact Nat.le_refl _

theorem fileRead (h : Heap clean s) {offset length : Nat}
    (hstep : s.fileRead offset length a = .ok s') :
    Heap clean s' := by
  rcases FileState.fileRead_ok hstep with rfl | ⟨n, s₁, -, haheads, rfl⟩
  · exact h.fields rfl rfl rfl rfl rfl
  · have hseq : Heap clean (s.sequential offset n) :=
      h.fields rfl rfl rfl rfl rfl
    refine Heap.plain ?_ rfl rfl
    rcases FileState.checkReadaheads_ok haheads with rfl | ⟨-, s₂, hfirst, hsecond⟩
    · exact hseq
    · exact (hseq.checkReadahead hfirst).checkReadahead hsecond

theorem readRound (h : Heap clean s) {offset finalOffset : Nat}
    (hflushed : clean → ∀ b, s.file.cache.findFilled offset = some b → ∀ buffer,
      s.file.cache.buffers b = some buffer →
      (offset + FileState.readLen buffer offset (FileState.roundLength offset finalOffset)) %
        2 ^ 64 % cacheBufferSize = 0 → buffer.bytesFlushed = buffer.bytesFilled)
    (hstep : s.readRound offset finalOffset a = .ok s') : Heap clean s' := by
  rcases FileState.readRound_ok hstep with
    rfl | ⟨-, rfl⟩ | ⟨b, buffer, hfind, hbuffer, -, ⟨hend, rfl⟩ | ⟨-, rfl⟩⟩
  · exact h
  · exact Heap.plain (h.plain rfl rfl) rfl rfl
  · obtain ⟨-, other, hother, hpos⟩ := Present.findFilled_some hfind
    obtain rfl := Option.some.inj (hbuffer.symm.trans hother)
    exact (h.removeBuffer hbuffer fun hclean =>
      h.clean_of_flushed hbuffer hpos (hflushed hclean b hfind buffer hbuffer hend)).plain rfl rfl
  · exact h.plain rfl rfl

/-- A readahead goes on to its read. -/
theorem aheadRead {length : Nat} (h : Heap clean (s.held (.readahead b length))) :
    Heap clean (s.held (.readaheadRead b length)) where
  leases := ⟨h.leases.single, h.leases.busy_iff⟩
  fits := by
    intro w hw c hio buffer hbuffer
    rcases List.mem_cons.mp hw with rfl | hw
    · exact h.fits _ List.mem_cons_self c hio buffer hbuffer
    · exact h.fits w (List.mem_cons_of_mem _ hw) c hio buffer hbuffer
  sits := h.sits
  distinct := h.distinct
  present := h.present
  held := by
    intro w hw c hio
    rcases List.mem_cons.mp hw with rfl | hw
    · exact h.held _ List.mem_cons_self c hio
    · exact h.held w (List.mem_cons_of_mem _ hw) c hio
  targets := by
    intro c hc
    refine (h.targets c (hc.imp_right ?_)).imp_right fun hno w hw => ?_
    · rintro ⟨w, hw, hfill⟩
      rcases List.mem_cons.mp hw with rfl | hw
      · cases hfill
      · exact ⟨w, List.mem_cons_of_mem _ hw, hfill⟩
    · rcases List.mem_cons.mp hw with rfl | hw
      · exact hno (.readahead b length) List.mem_cons_self
      · exact hno w (List.mem_cons_of_mem _ hw)
  freed := h.freed
  outstanding := by
    intro hclean w hw c hio
    rcases List.mem_cons.mp hw with rfl | hw
    · exact h.outstanding hclean _ List.mem_cons_self c hio
    · exact h.outstanding hclean w (List.mem_cons_of_mem _ hw) c hio

theorem readaheadRead {length : Nat} (h : Heap clean (s.held (.readaheadRead b length)))
    (hold : s.file.cache.buffers b = some old) {s₁ : FileState}
    (hread : s.readAhead bs b old length a = .ok s₁) :
    Heap clean (s₁.readaheadDone b old length) := by
  obtain ⟨-, -, hlength⟩ := h.fits _ List.mem_cons_self b rfl old hold
  obtain ⟨image, rfl, -⟩ := FileState.readAhead_ok hread
  have hfinished := h.finish { old with
    bytesFilled := length, bytesFlushed := length, inProgress := false } rfl hold rfl rfl
    ⟨Nat.le_refl _, hlength⟩
  exact hfinished.fields rfl rfl rfl rfl rfl

/-! ### Truncates -/

theorem fileTruncateAsync (h : Heap clean s) {length : Nat}
    (hstep : s.fileTruncateAsync id length a = .ok s') : Heap clean s' := by
  rcases FileState.fileTruncateAsync_ok hstep with ⟨-, rfl⟩ | rfl | rfl
  · exact h.reply
  · exact h.reply
  · exact h.plain rfl rfl

theorem fsTruncateResizeCb (h : Heap clean s) {length : Nat}
    (hstep : s.fsTruncateResizeCb bs id length a = .ok s') : Heap clean s' := by
  rcases FileState.fsTruncateResizeCb_ok hstep with ⟨-, rfl⟩ | ⟨-, rfl⟩
  · exact h.reply
  · exact Heap.plain (h.fields rfl rfl rfl rfl rfl) rfl rfl

theorem fileWrite (h : Heap clean s) (offset : Nat) (payload : List UInt8) :
    Heap clean (s.fileWrite offset payload) := by
  unfold FileState.fileWrite
  split
  · exact h.alloc.reply
  split
  · exact h.alloc.reply
  · exact h.alloc.plain rfl rfl

theorem reclaimCacheBuffers (h : Heap clean s) : Heap clean s.reclaimCacheBuffers := by
  unfold FileState.reclaimCacheBuffers
  split
  · exact h
  dsimp only
  split
  · exact h.treeFreeBuffers.frame rfl (Or.inr rfl) (Nat.le_refl _) (.refl _) fun _ hmem => hmem
  · exact h.treeFreeBuffers

theorem fileFree (h : Heap clean s) (hstep : s.fileFree = .ok s') : Heap clean s' := by
  unfold FileState.fileFree at hstep
  split at hstep
  · obtain rfl := Except.ok.inj hstep
    exact h.fields rfl rfl rfl rfl rfl
  dsimp only at hstep
  split at hstep
  · obtain rfl := Except.ok.inj hstep
    exact h.treeFreeBuffers.fields rfl rfl rfl rfl rfl
  · cases hstep

/-! ### Runs -/

/-- Something that is pending is done. -/
theorem complete (h : Heap clean s) {i : Nat} (hw : s.pending[i]? = some w)
    (hflushed : clean → ReadsFlushed s (.complete i, a))
    (hstep : (s.take i).perform bs a w = .ok s') :
    Heap clean s' := by
  have hheld := h.taken hw
  have htake : w.io = none → Heap clean (s.take i) := hheld.drop
  cases w with
  | append id offset payload => exact (htake rfl).append hstep
  | extend id numClusters payload => exact (htake rfl).blobOp rfl rfl hstep
  | extendResize id numClusters payload =>
      simp only [FileState.perform] at hstep
      split at hstep
      · obtain rfl := Except.ok.inj hstep
        exact (htake rfl).reply
      · refine Heap.blobOp ?_ rfl rfl hstep
        exact (htake rfl).fields rfl rfl rfl rfl rfl
  | extendSync id payload =>
      simp only [FileState.perform] at hstep
      split at hstep
      all_goals obtain rfl := Except.ok.inj hstep
      · exact (htake rfl).reply
      · exact (htake rfl).plain rfl rfl
  | startFill id payload => exact (htake rfl).startFill hstep
  | fill id b payload filled =>
      simp only [FileState.perform] at hstep
      split at hstep
      · obtain rfl := Except.ok.inj hstep
        unfold FileState.endFill
        split
        · exact (htake rfl).reply
        · exact (htake rfl).reply.plain rfl rfl
      · exact hheld.fillRound hstep
  | rwFromFile id call => exact (htake rfl).rwStage hstep
  | rw id stage => exact (htake rfl).rwComplete hstep
  | flush => exact (htake rfl).fileFlush hstep
  | flushWrite b offset length =>
      obtain ⟨next, hnext, hstep⟩ := bind_ok.mp hstep
      obtain ⟨s₁, hwrite, hdone⟩ := bind_ok.mp hstep
      exact hheld.flushWrite (CachedFile.buffer_ok.mp hnext) hwrite hdone
  | check thenFlush =>
      obtain ⟨s₁, hcheck, hret⟩ := bind_ok.mp hstep
      obtain rfl := Except.ok.inj hret
      have hchecked := (htake rfl).checkSyncReqs hcheck
      split
      · exact hchecked.plain rfl rfl
      · exact hchecked
  | syncXattr ref => exact (htake rfl).fileCacheFinishSync hstep
  | readahead b length =>
      obtain ⟨buffer, -, hstep⟩ := bind_ok.mp hstep
      split at hstep
      · cases hstep
      · obtain ⟨-, rfl⟩ := FileState.blobOp_ok hstep
        exact hheld.aheadRead.send
  | readaheadRead b length =>
      obtain ⟨buffer, hbuffer, hstep⟩ := bind_ok.mp hstep
      obtain ⟨s₁, hread, hret⟩ := bind_ok.mp hstep
      obtain rfl := Except.ok.inj hret
      exact hheld.readaheadRead (CachedFile.buffer_ok.mp hbuffer) hread
  | readLoop offset finalOffset =>
      exact (htake rfl).readRound (fun hclean => hflushed hclean _ hw _ rfl) hstep
  | truncate id length => exact (htake rfl).fileTruncateAsync hstep
  | truncateResize id length => exact (htake rfl).fsTruncateResizeCb hstep
  | truncateSync id =>
      obtain rfl := Except.ok.inj hstep
      exact (htake rfl).reply
  | close id => exact (htake rfl).fileCloseAsync hstep
  | closeBlob id =>
      obtain rfl := Except.ok.inj hstep
      exact (htake rfl).reply

/-- A step keeps the invariant. -/
theorem step (h : Heap clean s) {e : FileEvent × Answer} (hflushed : clean → ReadsFlushed s e)
    (hstep : FileSteps bs s e s') : Heap clean s' := by
  obtain ⟨event, a⟩ := e
  obtain ⟨-, hact⟩ := FileState.step_ok hstep
  have hask : Heap clean s.ask := h.alloc.note nofun
  have hsync : ∀ cb, (if a.request then s.ask.fileSync cb a
      else .ok (s.ask.reply s.brk (-ENOMEM))) = .ok s' → Heap clean s' := by
    intro cb hclose
    split at hclose
    · exact hask.fileSync hclose
    · obtain rfl := Except.ok.inj hclose
      exact hask.reply
  cases event with
  | write offset payload =>
      obtain rfl := Except.ok.inj hact
      exact h.fileWrite offset payload
  | read offset length => exact h.fileRead hact
  | sync => exact hask.fileSync hact
  | closeAsync => exact hsync _ hact
  | close => exact hsync _ hact
  | truncate length =>
      simp only [FileState.act] at hact
      split at hact
      all_goals obtain rfl := Except.ok.inj hact
      · exact h.alloc.plain rfl rfl
      · exact h.alloc.reply
  | reclaim =>
      obtain rfl := Except.ok.inj hact
      exact h.reclaimCacheBuffers
  | free => exact h.fileFree hact
  | complete i =>
      obtain ⟨w, hw, hperform⟩ := FileState.complete_ok hact
      exact h.complete hw hflushed hperform

theorem initial (h : s.Initial bs) : Heap clean s where
  leases := by
    rw [h.pending, h.cache]
    exact Leases.nil fun _ => rfl
  fits := by simp [h.pending]
  sits := by simp [h.cache]
  distinct := by simp [h.cache]
  present := by simp [h.cache]
  held := by simp [h.pending]
  targets := by simp [h.last, h.pending]
  freed := by simp [h.notes]
  outstanding := by simp [h.pending]

/-- The invariant holds in every state that is reached. -/
theorem of_runs {start : FileState} {ok : FileState → FileEvent × Answer → Prop}
    (hinitial : start.Initial bs) (hrun : Runs (FileSteps bs) ok start s) : Heap False s :=
  hrun.keeps (Heap.initial hinitial) fun h _ hstep => h.step False.elim hstep

end Heap

/-- In a run in which a read comes to the end of a buffer only when all in it is flushed, only
clean buffers leave. -/
theorem onlyCleanLeave_of_runs {bs : Blobstore} {start s : FileState} (hinitial : start.Initial bs)
    (hrun : Runs (FileSteps bs) ReadsFlushed start s) : OnlyCleanLeave s :=
  (hrun.keeps (@Heap.initial True _ _ hinitial) fun h hflushed hstep =>
    h.step (fun _ => hflushed) hstep).onlyCleanLeave

/-- A file that was loaded with two units of the cache. -/
def loadedUnits : FileState :=
  { loadedByte with
    file := { loadedByte.file with
      length := 2 ^ 19, lengthFlushed := 2 ^ 19, lengthXattr := 2 ^ 19, appendPos := 2 ^ 19 }
    blob := ⟨1, fun _ => 0, 2 ^ 19⟩ }

theorem loadedUnits_initial : loadedUnits.Initial oneMegabyte := by
  constructor
  all_goals first | rfl | decide

/-- The second unit is read ahead, and leaves when a read comes to its end. -/
def readsUnit : List FileEvent :=
  [.read 0 (2 ^ 17), .complete 0, .complete 1, .read (2 ^ 18) (2 ^ 18), .complete 1]

theorem onlyCleanLeave_readsUnit : ∃ s : FileState, s.notes.length = 1 ∧ OnlyCleanLeave s := by
  have hrun : (readsUnit.map fun e => (e, success)).foldlM (fun s e =>
      if ReadsFlushed s e then s.step oneMegabyte e.2 e.1 else .error .noEvent)
      loadedUnits = .ok _ := rfl
  exact ⟨_, by decide, onlyCleanLeave_of_runs loadedUnits_initial (Runs.of_events hrun)⟩

/-- As many bytes as a buffer has room for. -/
def fullUnit : List UInt8 := List.replicate cacheBufferSize 7

theorem fullUnit_length : fullUnit.length = cacheBufferSize := List.length_replicate

/-- The first append finds a buffer for it. -/
def openedFile : FileState := createdFile.alloc.opened.appended

/-- It fills the buffer. -/
def filledFile : FileState :=
  (openedFile.setFile { openedFile.file.setBuffer 1 ⟨0, cacheBufferSize, 0, false⟩ with
    appendPos := cacheBufferSize
    length := cacheBufferSize }).setMem 1
    (splice (openedFile.mem 1) 0 cacheBufferSize fun k => fullUnit.getD k 0)

/-- An append of no more than the cluster. -/
theorem openedFile_appends {payload : List UInt8} (h : payload.length = cacheBufferSize) :
    FileSteps oneMegabyte (createdFile.alloc.send (.append 0 0 payload)) (.complete 0, success)
      (openedFile.send (.fill 0 1 payload 0)) := by
  have hopen : createdFile.alloc.openLast success = .ok openedFile := rfl
  change (createdFile.alloc.openLast success >>= _) = _
  rw [hopen]
  change (if 2 ^ 20 < (0 + payload.length) % 2 ^ 64 then _ else _) = _
  rw [h]
  rfl

/-- A read comes to the end of a buffer before anything in it is flushed. -/
theorem onlyCleanLeave_unflushed : ¬ ∀ (bs : Blobstore) (start s : FileState), start.Initial bs →
    Runs (FileSteps bs) (fun _ _ => True) start s → OnlyCleanLeave s := by
  intro hall
  have hne : fullUnit ≠ [] := List.ne_nil_of_length_pos (fullUnit_length ▸ by decide)
  have hwrite : FileSteps oneMegabyte createdFile (.write 0 fullUnit, success)
      (createdFile.alloc.send (.append 0 0 fullUnit)) := by
    change Except.ok (if fullUnit = [] then _ else _) = _
    rw [if_neg hne]
    rfl
  have hfill : FileSteps oneMegabyte (openedFile.send (.fill 0 1 fullUnit 0)) (.complete 0, success)
      (filledFile.appended.send (.fill 0 2 (fullUnit.drop cacheBufferSize) 1)) := by
    change (if fullUnit = [] then .ok (openedFile.endFill 0 0)
      else openedFile.fillRound 0 1 fullUnit 0 success) = _
    rw [if_neg hne]
    simp only [FileState.fillRound, fullUnit_length]
    rfl
  have hread : Runs (FileSteps oneMegabyte) (fun _ _ => True) createdFile _ :=
    .tail (e := (.complete 1, success)) (.tail (e := (.read 0 cacheBufferSize, success))
      (.tail (.tail (.one trivial hwrite) trivial (openedFile_appends fullUnit_length)) trivial
        hfill) trivial (by exact rfl)) trivial (by exact rfl)
  have hfreed := (hall oneMegabyte createdFile _ createdFile_initial hread).freed
    ⟨0, cacheBufferSize, 0, false⟩ (List.mem_singleton.mpr rfl)
  exact absurd hfreed.1 (by decide)

end Nbfs.Cache
