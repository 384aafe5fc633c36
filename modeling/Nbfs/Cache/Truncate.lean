import Nbfs.Cache.CleanBuffers
import Nbfs.Cache.Cursors
import Nbfs.Async.LostUpdate

set_option autoImplicit false

/-!
# After a truncate

A truncate sets the length of a file, its `append_pos` and the xattr `"length"`; what is
cached, and the cursors of what is flushed and stored, stay as they are.  Where these are
within the new length, they stay within it until something is appended.
-/

namespace Nbfs.Cache

open Nbfs.Lib
open Nbfs.Async (Blobstore Stage bytesToClusters bytesToClusters_bound ENOMEM)

/-- The buffer holds no byte at or beyond `n`. -/
def CacheBuffer.Ends (n : Nat) (buffer : CacheBuffer) : Prop :=
  0 < buffer.bytesFilled → buffer.offset + buffer.bytesFilled ≤ n

/-- The buffer is not read ahead beyond `n`. -/
def Work.Ends (n : Nat) (buffer : CacheBuffer) : Work → Prop
  | readahead _ length | readaheadRead _ length => buffer.offset + length ≤ n
  | _ => True

theorem Work.Ends.congr {n : Nat} {old new : CacheBuffer} {w : Work} (h : w.Ends n old)
    (hoffset : new.offset = old.offset) : w.Ends n new := by
  cases w with
  | readahead c length | readaheadRead c length =>
      change new.offset + length ≤ n
      rw [hoffset]
      exact h
  | _ => trivial

/-- Nothing is appended, and the file is not truncated. -/
def Calm (s : FileState) (e : FileEvent × Answer) : Prop :=
  ∀ w ∈ s.completed e.1,
    match w with
    | .append .. | .extendResize .. | .fill .. | .rw _ (.resize ..) | .truncateResize .. => False
    | _ => True

/-- The file ends at `n`, and what is cached of it too. -/
structure Within (bs : Blobstore) (n : Nat) (s : FileState) : Prop where
  length : s.file.length = n
  appendPos : s.file.appendPos ≤ n
  inBlob : n ≤ s.blob.numClusters * bs.clusterSz
  cached : ∀ b buffer, s.file.cache.buffers b = some buffer → buffer.Ends n
  aheads : ∀ w ∈ s.pending, ∀ b, w.ahead = some b → ∀ buffer,
    s.file.cache.buffers b = some buffer → w.Ends n buffer

namespace Within

variable {bs : Blobstore} {n : Nat} {s s' : FileState} {a : Answer} {w : Work} {b : BufRef}
  {id : Nat}

/-- A part of a step that fills no buffer. -/
theorem calm (h : Within bs n s) (hlength : s'.file.length = s.file.length)
    (happend : s'.file.appendPos = s.file.appendPos)
    (hclusters : s'.blob.numClusters = s.blob.numClusters)
    (hbuffers : ∀ b buffer, s'.file.cache.buffers b = some buffer →
      ∃ old, s.file.cache.buffers b = some old ∧ buffer.offset = old.offset ∧
        buffer.bytesFilled = old.bytesFilled)
    (hpending : ∀ w ∈ s'.pending, w ∈ s.pending ∨ w.ahead = none) : Within bs n s' where
  length := hlength.trans h.length
  appendPos := happend ▸ h.appendPos
  inBlob := hclusters ▸ h.inBlob
  cached := by
    intro b buffer hbuffer
    obtain ⟨old, hold, hoffset, hfilled⟩ := hbuffers b buffer hbuffer
    have hends := h.cached b old hold
    unfold CacheBuffer.Ends at hends ⊢
    rwa [hoffset, hfilled]
  aheads := by
    intro w hw b hahead buffer hbuffer
    obtain ⟨old, hold, hoffset, -⟩ := hbuffers b buffer hbuffer
    rcases hpending w hw with hw | hnone
    · exact (h.aheads w hw b hahead old hold).congr hoffset
    · cases hnone.symm.trans hahead

/-- A change of fields that are not looked at. -/
theorem fields (h : Within bs n s) (hlength : s'.file.length = s.file.length)
    (happend : s'.file.appendPos = s.file.appendPos)
    (hclusters : s'.blob.numClusters = s.blob.numClusters) (hcache : s'.file.cache = s.file.cache)
    (hpending : s'.pending = s.pending) : Within bs n s' :=
  h.calm hlength happend hclusters
    (fun _ buffer hbuffer => ⟨buffer, hcache ▸ hbuffer, rfl, rfl⟩)
    fun _ hw => Or.inl (hpending ▸ hw)

theorem take (h : Within bs n s) (i : Nat) : Within bs n (s.take i) :=
  h.calm rfl rfl rfl (fun _ buffer hbuffer => ⟨buffer, hbuffer, rfl, rfl⟩)
    fun _ hw => Or.inl (mem_of_taken hw)

theorem send (h : Within bs n s) (hahead : w.ahead = none) : Within bs n (s.send w) := by
  refine h.calm rfl rfl rfl (fun _ buffer hbuffer => ⟨buffer, hbuffer, rfl, rfl⟩) fun w' hw' => ?_
  rcases List.mem_append.mp hw' with hw' | hnew
  · exact Or.inl hw'
  · exact Or.inr (List.mem_singleton.mp hnew ▸ hahead)

theorem note {m : Note} (h : Within bs n s) : Within bs n (s.note m) := h.fields rfl rfl rfl rfl rfl

theorem blobOp (h : Within bs n s) (hahead : w.ahead = none) (hstep : s.blobOp w = .ok s') :
    Within bs n s' := by
  obtain ⟨-, rfl⟩ := FileState.blobOp_ok hstep
  exact h.send hahead

/-! ### Syncs and flushes -/

theorem fileCloseAsync (h : Within bs n s) (hstep : s.fileCloseAsync id = .ok s') :
    Within bs n s' := by
  rcases FileState.fileCloseAsync_ok hstep with rfl | rfl | rfl
  · exact h.note
  · exact h.fields rfl rfl rfl rfl rfl
  · exact send (h.fields rfl rfl rfl rfl rfl) rfl

theorem callSyncCb (h : Within bs n s) {rc : Int} {cb : SyncCb}
    (hstep : s.callSyncCb rc cb = .ok s') : Within bs n s' := by
  cases cb with
  | closeAsync id => exact h.fileCloseAsync hstep
  | client id =>
      obtain rfl := Except.ok.inj hstep
      exact h.note
  | close id =>
      obtain rfl := Except.ok.inj hstep
      exact h.send rfl

theorem checkSyncReqs (h : Within bs n s) (hstep : s.checkSyncReqs = .ok s') : Within bs n s' := by
  rcases FileState.checkSyncReqs_ok hstep with rfl | ⟨r, -, -, -, rfl⟩
  · exact h
  · exact send (h.fields rfl rfl rfl rfl rfl) rfl

theorem fileCacheFinishSync (h : Within bs n s) {ref : Nat} {bserrno : Int}
    (hstep : s.fileCacheFinishSync ref bserrno = .ok s') : Within bs n s' := by
  obtain ⟨r, -, -, s₁, hcb, rfl⟩ := FileState.fileCacheFinishSync_ok hstep
  refine send (callSyncCb (note ?_) hcb) rfl
  exact h.fields rfl rfl rfl rfl rfl

theorem fileSync (h : Within bs n s) {cb : SyncCb} (hstep : s.fileSync cb a = .ok s') :
    Within bs n s' := by
  rcases FileState.fileSync_ok hstep with ⟨-, hcb⟩ | hcb | ⟨-, rfl⟩
  · exact h.callSyncCb hcb
  · exact h.callSyncCb hcb
  · exact send (note (h.fields rfl rfl rfl rfl rfl)) rfl

/-- A buffer keeps its place and what it holds. -/
theorem setBuffer (h : Within bs n s) {old new : CacheBuffer}
    (hold : s.file.cache.buffers b = some old) (hoffset : new.offset = old.offset)
    (hfilled : new.bytesFilled = old.bytesFilled) :
    Within bs n (s.setFile (s.file.setBuffer b new)) :=
  h.calm rfl rfl rfl (Heap.forall_update (fun _ buffer hbuffer => ⟨buffer, hbuffer, rfl, rfl⟩)
    ⟨old, hold, hoffset, hfilled⟩) fun _ hw => Or.inl hw

theorem fileFlush (h : Within bs n s) (hstep : s.fileFlush = .ok s') : Within bs n s' := by
  rcases FileState.fileFlush_ok hstep with
    ⟨-, rfl⟩ | ⟨b, next, -, hnext, ⟨rfl, -⟩ | ⟨rfl, -⟩ | ⟨-, -, -, rfl⟩⟩
  · exact send (h.fields rfl rfl rfl rfl rfl) rfl
  · exact h
  · exact h.send rfl
  · exact send (h.setBuffer hnext rfl rfl) rfl

theorem flushWrite (h : Within bs n s) {next : CacheBuffer} {offset length : Nat}
    (hnext : s.file.cache.buffers b = some next)
    (hkeeps : s.file.lengthFlushed + length ≤ s.file.appendPos) {s₁ : FileState}
    (hwrite : s.flushed bs b next offset length a = .ok s₁)
    (hdone : s₁.fileFlushDone bs b next length = .ok s') : Within bs n s' := by
  obtain rfl := FileState.fileFlushDone_ok hdone
  have hpos := h.appendPos
  have hlength := h.length
  have hshort : max s.file.length ((s.file.lengthFlushed + length) % 2 ^ 64) = s.file.length :=
    Nat.max_eq_left ((Nat.mod_le _ _).trans (by omega))
  have hset : Within bs n (s.setFile (s.file.setBuffer b { next with
      inProgress := false, bytesFlushed := (next.bytesFlushed + length) % 2 ^ 32 })) :=
    h.setBuffer hnext rfl rfl
  have hdone : Within bs n (s₁.flushDone b next length) := by
    rcases FileState.flushed_ok hwrite with ⟨-, rfl⟩ | ⟨-, -, rfl⟩
    all_goals exact hset.fields hshort rfl rfl rfl rfl
  exact hdone.send rfl

/-! ### Reads -/

/-- Buffers leave. -/
theorem leave (h : Within bs n s) (hlength : s'.file.length = s.file.length)
    (happend : s'.file.appendPos = s.file.appendPos)
    (hclusters : s'.blob.numClusters = s.blob.numClusters)
    (hbuffers : ∀ b buffer, s'.file.cache.buffers b = some buffer →
      s.file.cache.buffers b = some buffer) (hpending : s'.pending = s.pending) :
    Within bs n s' :=
  h.calm hlength happend hclusters
    (fun b buffer hbuffer => ⟨buffer, hbuffers b buffer hbuffer, rfl, rfl⟩)
    fun _ hw => Or.inl (hpending ▸ hw)

theorem removeBuffer (h : Within bs n s) (b : BufRef) (buffer : CacheBuffer) :
    Within bs n (s.removeBuffer b buffer) := by
  refine h.leave rfl rfl rfl (fun c buffer hbuffer => ?_) rfl
  have hne : c ≠ b := by
    rintro rfl
    cases (Function.update_self ..).symm.trans hbuffer
  exact (Function.update_of_ne hne ..).symm.trans hbuffer

theorem treeFreeBuffers (h : Within bs n s) : Within bs n s.treeFreeBuffers := by
  refine h.leave rfl rfl rfl (fun c buffer hbuffer => ?_) rfl
  change (if c ∈ s.file.cache.refs ∧ idleIn s.file.cache.buffers c = true then none
    else s.file.cache.buffers c) = some buffer at hbuffer
  split at hbuffer
  · cases hbuffer
  · exact hbuffer

theorem reclaimCacheBuffers (h : Within bs n s) : Within bs n s.reclaimCacheBuffers := by
  unfold FileState.reclaimCacheBuffers
  split
  · exact h
  dsimp only
  split
  · exact h.treeFreeBuffers.fields rfl rfl rfl rfl rfl
  · exact h.treeFreeBuffers

theorem fileFree (h : Within bs n s) (hstep : s.fileFree = .ok s') : Within bs n s' := by
  unfold FileState.fileFree at hstep
  split at hstep
  · obtain rfl := Except.ok.inj hstep
    exact h.fields rfl rfl rfl rfl rfl
  dsimp only at hstep
  split at hstep
  · obtain rfl := Except.ok.inj hstep
    exact h.treeFreeBuffers.fields rfl rfl rfl rfl rfl
  · cases hstep

/-- A readahead is of no more than the file has. -/
theorem ahead_le (h : Within bs n s) (hn : n + cacheBufferSize ≤ 2 ^ 64) {offset : Nat}
    (haligned : cacheBufferSize ∣ offset) (hshort : offset < s.file.length) :
    offset + s.aheadLength offset ≤ n := by
  have hlength := h.length
  obtain ⟨unit, rfl⟩ := haligned
  have hsize : cacheBufferSize = 2 ^ 18 := by decide
  simp only [FileState.aheadLength, hsize] at hn hshort ⊢
  rw [Nat.mod_eq_of_lt (by omega)]
  split
  · omega
  · omega

theorem checkReadahead (h : Within bs n s) (hheap : Heap False s)
    (hn : n + cacheBufferSize ≤ 2 ^ 64)
    {offset : Nat} {ok : Bool} (hstep : s.checkReadahead offset ok = .ok s') : Within bs n s' := by
  rcases FileState.checkReadahead_ok hstep with rfl | ⟨-, -, hshort, rfl⟩
  · exact h
  have hle := h.ahead_le hn (Nat.dvd_mul_left _ _) hshort
  exact {
    length := h.length
    appendPos := h.appendPos
    inBlob := h.inBlob
    cached := by
      change ∀ b buffer, (s.ahead _).file.cache.buffers b = some buffer → _
      rw [Heap.ahead_cache]
      exact Heap.forall_update h.cached (fun hpos => absurd hpos (Nat.lt_irrefl _))
    aheads := by
      change ∀ w ∈ _, ∀ b, _ → ∀ buffer, (s.ahead _).file.cache.buffers b = some buffer → _
      rw [Heap.ahead_cache]
      intro w hw b hahead buffer hbuffer
      rcases List.mem_append.mp hw with hold | hnew
      · have hne : b ≠ s.brk := by
          rintro rfl
          exact hheap.brk_unused w hold (Work.io_of_ahead hahead)
        exact h.aheads w hold b hahead buffer ((Function.update_of_ne hne ..).symm.trans hbuffer)
      · obtain rfl := List.mem_singleton.mp hnew
        obtain rfl : s.brk = b := Option.some.inj hahead
        obtain rfl := Option.some.inj ((Function.update_self s.brk _ _).symm.trans hbuffer)
        exact hle }

theorem fileRead (h : Within bs n s) (hheap : Heap False s) (hn : n + cacheBufferSize ≤ 2 ^ 64)
    {offset length : Nat} (hstep : s.fileRead offset length a = .ok s') : Within bs n s' := by
  rcases FileState.fileRead_ok hstep with rfl | ⟨m, s₁, -, haheads, rfl⟩
  · exact h.fields rfl rfl rfl rfl rfl
  · have hseq : Within bs n (s.sequential offset m) := h.fields rfl rfl rfl rfl rfl
    have hseq' : Heap False (s.sequential offset m) := hheap.fields rfl rfl rfl rfl rfl
    refine send ?_ rfl
    rcases FileState.checkReadaheads_ok haheads with rfl | ⟨-, s₂, hfirst, hsecond⟩
    · exact hseq
    · exact (hseq.checkReadahead hseq' hn hfirst).checkReadahead (hseq'.checkReadahead hfirst) hn
        hsecond

theorem readRound (h : Within bs n s) {offset finalOffset : Nat}
    (hstep : s.readRound offset finalOffset a = .ok s') : Within bs n s' := by
  rcases FileState.readRound_ok hstep with
    rfl | ⟨-, rfl⟩ | ⟨b, buffer, -, -, -, ⟨-, rfl⟩ | ⟨-, rfl⟩⟩
  · exact h
  · exact send (send h rfl) rfl
  · exact send (h.removeBuffer b buffer) rfl
  · exact send h rfl

/-- What was read ahead is as much as was asked for. -/
theorem readaheadDone (h : Within bs n s) {old : CacheBuffer} {length : Nat}
    (hold : s.file.cache.buffers b = some old) (hends : old.offset + length ≤ n) :
    Within bs n (s.readaheadDone b old length) where
  length := h.length
  appendPos := h.appendPos
  inBlob := h.inBlob
  cached := Heap.forall_update h.cached fun _ => hends
  aheads := by
    intro w hw c hahead buffer hbuffer
    refine Heap.forall_update (P := fun c buffer => w.ahead = some c → w.Ends n buffer)
      (fun c buffer hbuffer hahead => h.aheads w hw c hahead buffer hbuffer) ?_ c buffer hbuffer
      hahead
    exact fun hahead => (h.aheads w hw b hahead old hold).congr rfl

/-! ### Runs -/

theorem complete (h : Within bs n s) {i : Nat} (hw : s.pending[i]? = some w)
    (hcalm : Calm s (.complete i, a)) (hkeeps : KeepsCursors s (.complete i, a))
    (hstep : (s.take i).perform bs a w = .ok s') : Within bs n s' := by
  replace hcalm := hcalm w hw
  replace hkeeps := hkeeps w hw
  have htake := h.take i
  cases w with
  | append id offset payload => exact hcalm.elim
  | extend id numClusters payload => exact htake.blobOp rfl hstep
  | extendResize id numClusters payload => exact hcalm.elim
  | extendSync id payload =>
      simp only [FileState.perform] at hstep
      split at hstep
      all_goals obtain rfl := Except.ok.inj hstep
      · exact htake.note
      · exact htake.send rfl
  | startFill id payload =>
      rcases FileState.startFill_ok hstep with rfl | ⟨last, -, rfl⟩
      · exact htake.note
      · exact htake.send rfl
  | fill id b payload filled => exact hcalm.elim
  | rwFromFile id call =>
      rcases FileState.rwStage_ok hstep with ⟨rc, iov, -, ⟨-, rfl⟩ | ⟨id, -, rfl⟩⟩ | ⟨-, -, rfl⟩
      · exact htake
      · exact htake.note
      · exact htake.send rfl
  | rw id stage =>
      obtain ⟨t, hasync, hstage⟩ := FileState.rwComplete_ok hstep
      have hnext : Within bs n ((s.take i).setAsyncFile t.file) := by
        rcases FileState.asyncStep_ok rfl hasync with
          ⟨hlength, happend, -, hclusters⟩ | ⟨length, rw, rfl, -⟩
        · exact htake.fields hlength happend hclusters rfl rfl
        · exact hcalm.elim
      rcases FileState.rwStage_ok hstage with ⟨rc, iov, -, ⟨-, rfl⟩ | ⟨id, -, rfl⟩⟩ | ⟨-, -, rfl⟩
      · exact hnext
      · exact hnext.note
      · exact hnext.send rfl
  | flush => exact htake.fileFlush hstep
  | flushWrite b offset length =>
      obtain ⟨next, hnext, hstep⟩ := bind_ok.mp hstep
      obtain ⟨s₁, hwrite, hdone⟩ := bind_ok.mp hstep
      exact htake.flushWrite (CachedFile.buffer_ok.mp hnext) hkeeps hwrite hdone
  | check thenFlush =>
      obtain ⟨s₁, hcheck, hret⟩ := bind_ok.mp hstep
      obtain rfl := Except.ok.inj hret
      have hchecked := htake.checkSyncReqs hcheck
      split
      · exact hchecked.send rfl
      · exact hchecked
  | syncXattr ref => exact htake.fileCacheFinishSync hstep
  | readahead b length =>
      obtain ⟨buffer, -, hstep⟩ := bind_ok.mp hstep
      split at hstep
      · cases hstep
      obtain ⟨-, rfl⟩ := FileState.blobOp_ok hstep
      refine ⟨htake.length, htake.appendPos, htake.inBlob, htake.cached, fun w' hw' => ?_⟩
      rcases List.mem_append.mp hw' with hold | hnew
      · exact htake.aheads w' hold
      · rw [List.mem_singleton.mp hnew]
        exact h.aheads (.readahead b length) (mem_taken hw)
  | readaheadRead b length =>
      obtain ⟨buffer, hbuffer, hstep⟩ := bind_ok.mp hstep
      obtain ⟨s₁, hread, hret⟩ := bind_ok.mp hstep
      obtain rfl := Except.ok.inj hret
      obtain ⟨image, rfl, -⟩ := FileState.readAhead_ok hread
      have hold := CachedFile.buffer_ok.mp hbuffer
      refine Within.readaheadDone (s := (s.take i).setMem b image) ?_ hold
        (h.aheads _ (mem_taken hw) b rfl buffer hold)
      exact htake.fields rfl rfl rfl rfl rfl
  | readLoop offset finalOffset => exact htake.readRound hstep
  | truncate id length =>
      rcases FileState.fileTruncateAsync_ok hstep with ⟨-, rfl⟩ | rfl | rfl
      · exact htake.note
      · exact htake.note
      · exact htake.send rfl
  | truncateResize id length => exact hcalm.elim
  | truncateSync id =>
      obtain rfl := Except.ok.inj hstep
      exact htake.note
  | close id => exact htake.fileCloseAsync hstep
  | closeBlob id =>
      obtain rfl := Except.ok.inj hstep
      exact htake.note

/-- A step at which nothing is appended and the file is not truncated. -/
theorem step (h : Within bs n s) (hheap : Heap False s) (hn : n + cacheBufferSize ≤ 2 ^ 64)
    {e : FileEvent × Answer} (hcalm : Calm s e) (hkeeps : KeepsCursors s e)
    (hstep : FileSteps bs s e s') : Within bs n s' := by
  obtain ⟨event, a⟩ := e
  obtain ⟨-, hact⟩ := FileState.step_ok hstep
  have halloc : Within bs n s.alloc := h.fields rfl rfl rfl rfl rfl
  have hask : Within bs n s.ask := halloc.note
  have hclose : ∀ cb, (if a.request then s.ask.fileSync cb a
      else .ok (s.ask.reply s.brk (-ENOMEM))) = .ok s' → Within bs n s' := by
    intro cb hclose
    split at hclose
    · exact hask.fileSync hclose
    · obtain rfl := Except.ok.inj hclose
      exact hask.note
  cases event with
  | write offset payload =>
      obtain rfl := Except.ok.inj hact
      unfold FileState.fileWrite
      split
      · exact halloc.note
      split
      · exact halloc.note
      · exact halloc.send rfl
  | read offset length => exact h.fileRead hheap hn hact
  | sync => exact hask.fileSync hact
  | closeAsync => exact hclose _ hact
  | close => exact hclose _ hact
  | truncate length =>
      simp only [FileState.act] at hact
      split at hact
      all_goals obtain rfl := Except.ok.inj hact
      · exact halloc.send rfl
      · exact halloc.note
  | reclaim =>
      obtain rfl := Except.ok.inj hact
      exact h.reclaimCacheBuffers
  | free => exact h.fileFree hact
  | complete i =>
      obtain ⟨w, hw, hperform⟩ := FileState.complete_ok hact
      exact h.complete hw hcalm hkeeps hperform

end Within

end Nbfs.Cache
