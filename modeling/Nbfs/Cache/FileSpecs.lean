import Nbfs.Cache.FileState
import Nbfs.Lib.Fallible

set_option autoImplicit false

/-!
# What the functions of a file do

For each function, all the ways in which it can end without a fault.
-/

namespace Nbfs.Cache

open Nbfs.Lib
open Nbfs.Async (Blobstore Blob Stage bytesToClusters getPageParameters ENOMEM)

theorem CachedFile.buffer_ok {f : CachedFile} {b : BufRef} {buffer : CacheBuffer} :
    f.buffer b = .ok buffer ↔ f.cache.buffers b = some buffer := by
  unfold CachedFile.buffer
  cases f.cache.buffers b with
  | none => simp
  | some old => simp

/-- A file whose cache has the new buffer `b`. -/
def CachedFile.inserted (f : CachedFile) (b : BufRef) (offset : Nat) : CachedFile :=
  { f with cache := (f.cache.step (.store b ⟨offset, 0, 0, false⟩)).step (.insert b) }

theorem CachedFile.cacheInsertBuffer_ok {f f' : CachedFile} {b : BufRef} {offset : Nat}
    (h : f.cacheInsertBuffer b offset = .ok f') :
    f.cache.buffers b = none ∧ f.cache.find offset = none ∧ f' = f.inserted b offset := by
  unfold CachedFile.cacheInsertBuffer at h
  split at h
  · cases h
  rename_i hnew
  split at h
  · cases h
  rename_i hfind
  exact ⟨by simpa using hnew, by simpa using hfind, (Except.ok.inj h).symm⟩

namespace FileState

variable {s s' : FileState} {bs : Blobstore} {a : Answer} {w : Work} {b : BufRef} {id : Nat}

/-! ### Notes and pending work -/

theorem note_none {γ : Type} {f : Note → Option γ} {n : Note} (h : f n = none) :
    (s.note n).notes.filterMap f = s.notes.filterMap f := by
  change (s.notes ++ [n]).filterMap f = _
  rw [List.filterMap_append, List.filterMap_cons_none h, List.filterMap_nil, List.append_nil]

theorem note_some {γ : Type} {f : Note → Option γ} {n : Note} {x : γ} (h : f n = some x) :
    (s.note n).notes.filterMap f = s.notes.filterMap f ++ [x] := by
  change (s.notes ++ [n]).filterMap f = _
  rw [List.filterMap_append, List.filterMap_cons_some h, List.filterMap_nil]

theorem mem_note {n m : Note} (h : m ∈ (s.note n).notes) : m ∈ s.notes ∨ m = n := by
  rcases List.mem_append.mp h with hold | hnew
  · exact Or.inl hold
  · exact Or.inr (List.mem_singleton.mp hnew)

theorem blobOp_ok (h : s.blobOp w = .ok s') : s.blobOpen = true ∧ s' = s.send w := by
  unfold blobOp at h
  split at h
  · exact ⟨‹_›, (Except.ok.inj h).symm⟩
  · cases h

theorem fileGetBlobSize_ok {size : Nat} (h : s.fileGetBlobSize bs = .ok size) :
    s.blobOpen = true ∧ size = bs.clusterSz * s.blob.numClusters := by
  unfold fileGetBlobSize at h
  split at h
  · exact ⟨‹_›, (Except.ok.inj h).symm⟩
  · cases h

/-! ### Buffers -/

/-- The state after the buffer with the next address was inserted. -/
def inserted (s : FileState) (offset : Nat) : FileState :=
  (s.setFile (s.file.inserted s.brk offset)).alloc

theorem cacheInsertBuffer_ok {offset : Nat} {ok : Bool} {r : Option BufRef}
    (h : s.cacheInsertBuffer offset ok = .ok (r, s')) : r = none ∧ s' = s ∨
      r = some s.brk ∧ s.file.cache.buffers s.brk = none ∧ s.file.cache.find offset = none ∧
        s' = s.inserted offset := by
  unfold cacheInsertBuffer at h
  split at h
  · obtain ⟨file, hfile, h⟩ := bind_ok.mp h
    obtain ⟨hnew, hfind, rfl⟩ := CachedFile.cacheInsertBuffer_ok hfile
    obtain ⟨rfl, rfl⟩ := Prod.mk.inj (Except.ok.inj h)
    exact Or.inr ⟨rfl, hnew, hfind, rfl⟩
  · obtain ⟨rfl, rfl⟩ := Prod.mk.inj (Except.ok.inj h)
    exact Or.inl ⟨rfl, rfl⟩

/-- The buffer `last` is full. -/
def LastFull (s : FileState) : Prop := ∀ b, s.file.last = some b →
  ∃ last, s.file.cache.buffers b = some last ∧ last.bytesFilled = cacheBufferSize

theorem lastIsFull_ok (h : s.lastIsFull = .ok true) : s.LastFull := by
  intro b hb
  unfold lastIsFull at h
  rw [hb] at h
  obtain ⟨last, hlast, h⟩ := bind_ok.mp h
  exact ⟨last, CachedFile.buffer_ok.mp hlast, of_decide_eq_true (Except.ok.inj h)⟩

/-- The state after `cache_append_buffer`. -/
def appended (s : FileState) : FileState :=
  { s with
    file := { s.file.inserted s.brk s.file.appendPos with last := some s.brk }
    brk := s.brk + 1 }

theorem cacheAppendBuffer_ok {ok : Bool} {r : Option BufRef}
    (h : s.cacheAppendBuffer ok = .ok (r, s')) :
    s.LastFull ∧ s.file.appendPos % cacheBufferSize = 0 ∧ (r = none ∧ s' = s ∨
      r = some s.brk ∧ s.file.cache.buffers s.brk = none ∧
        s.file.cache.find s.file.appendPos = none ∧ s' = s.appended) := by
  obtain ⟨full, hfull, h⟩ := bind_ok.mp h
  split at h
  · rename_i htrue
    split at h
    · rename_i haligned
      refine ⟨lastIsFull_ok (htrue ▸ hfull), haligned, ?_⟩
      obtain ⟨⟨r₁, s₁⟩, hinsert, hret⟩ := bind_ok.mp h
      rcases cacheInsertBuffer_ok hinsert with ⟨rfl, rfl⟩ | ⟨rfl, hnew, hfind, rfl⟩
      · obtain ⟨rfl, rfl⟩ := Prod.mk.inj (Except.ok.inj hret)
        exact Or.inl ⟨rfl, rfl⟩
      · obtain ⟨rfl, rfl⟩ := Prod.mk.inj (Except.ok.inj hret)
        exact Or.inr ⟨rfl, hnew, hfind, rfl⟩
    · cases h
  · cases h

/-- No buffer comes of it only without memory. -/
theorem cacheAppendBuffer_none {ok : Bool} (h : s.cacheAppendBuffer ok = .ok (none, s')) :
    ok = false := by
  refine Bool.eq_false_of_not_eq_true fun hok => ?_
  obtain ⟨full, -, hinsert⟩ := bind_ok.mp h
  split at hinsert
  · split at hinsert
    · obtain ⟨⟨r, s₁⟩, hnew, hret⟩ := bind_ok.mp hinsert
      rw [cacheInsertBuffer, if_pos hok] at hnew
      obtain ⟨file, -, hret'⟩ := bind_ok.mp hnew
      obtain ⟨rfl, rfl⟩ := Prod.mk.inj (Except.ok.inj hret')
      cases hret
    · cases hinsert
  · cases hinsert

/-- A buffer comes of it only with memory. -/
theorem cacheAppendBuffer_some {ok : Bool} (h : s.cacheAppendBuffer ok = .ok (some b, s')) :
    ok = true := by
  refine Bool.eq_true_of_not_eq_false fun hok => ?_
  subst hok
  obtain ⟨full, -, hinsert⟩ := bind_ok.mp h
  split at hinsert
  · split at hinsert
    · obtain ⟨⟨r, s₁⟩, hnew, hret⟩ := bind_ok.mp hinsert
      obtain ⟨rfl, rfl⟩ := Prod.mk.inj (Except.ok.inj hnew)
      cases hret
    · cases hinsert
  · cases hinsert

/-! ### Closing -/

theorem fileCloseAsync_ok (h : s.fileCloseAsync id = .ok s') :
    s' = s.reply id (-EBADF) ∨ s' = { s with refCount := s.refCount - 1 }.reply id 0 ∨
      s' = { s with refCount := 0, blobOpen := false }.send (.closeBlob id) := by
  unfold fileCloseAsync at h
  split at h
  · exact Or.inl (Except.ok.inj h).symm
  split at h
  · exact Or.inr (Or.inl (Except.ok.inj h).symm)
  split at h
  · exact Or.inr (Or.inr (Except.ok.inj h).symm)
  · cases h

/-! ### Flushing and syncing -/

theorem checkSyncReqs_ok (h : s.checkSyncReqs = .ok s') : s' = s ∨
    ∃ r, s.file.syncRequests.find? (fun r => decide (r.offset ≤ s.file.lengthFlushed)) = some r ∧
      r.xattrInProgress = false ∧ s.blobOpen = true ∧
      s' = { s with
        file := { s.file with
          syncRequests := s.file.syncRequests.map fun q : SyncRequest =>
            if q.ref = r.ref then { r with xattrInProgress := true, length := s.file.lengthFlushed }
            else q }
        blob := { s.blob with xattrLength := s.file.lengthFlushed } }.send (.syncXattr r.ref) := by
  unfold checkSyncReqs at h
  split at h
  · exact Or.inl (Except.ok.inj h).symm
  rename_i r hfind
  split at h
  · exact Or.inl (Except.ok.inj h).symm
  · rename_i hstarted
    obtain ⟨hopen, rfl⟩ := blobOp_ok h
    exact Or.inr ⟨r, hfind, by simpa using hstarted, hopen, rfl⟩

theorem fileCacheFinishSync_ok {ref : Nat} {bserrno : Int}
    (h : s.fileCacheFinishSync ref bserrno = .ok s') :
    ∃ r, s.file.syncRequests.find? (fun r => decide (r.ref = ref)) = some r ∧
      r.offset ≤ s.file.lengthFlushed ∧ ∃ s₁,
        callSyncCb ((s.setFile { s.file with
          lengthXattr := r.length
          syncRequests := s.file.syncRequests.filter fun q : SyncRequest => q.ref ≠ ref }).note
          (.called ref r.offset s.file.lengthFlushed)) bserrno r.cb = .ok s₁ ∧
        s' = s₁.send (.check false) := by
  unfold fileCacheFinishSync at h
  split at h
  · cases h
  rename_i r hfind
  split at h
  · cases h
  rename_i hreached
  obtain ⟨s₁, hcb, h⟩ := bind_ok.mp h
  exact ⟨r, hfind, Nat.not_lt.mp hreached, s₁, hcb, (Except.ok.inj h).symm⟩

/-- How many bytes of a buffer `__file_flush` writes. -/
def flushLength (next : CacheBuffer) : Nat :=
  (next.bytesFilled + 2 ^ 32 - next.bytesFlushed) % 2 ^ 32

theorem fileFlush_ok (h : s.fileFlush = .ok s') :
    s.file.cache.find s.file.lengthFlushed = none ∧
        s' = (s.setFile { s.file with lengthFlushed := s.file.appendPos }).send (.check false) ∨
      ∃ b next, s.file.cache.find s.file.lengthFlushed = some b ∧
        s.file.cache.buffers b = some next ∧
        (s' = s ∧ (next.inProgress = true ∨
            next.bytesFilled < cacheBufferSize ∧ s.file.syncRequests.isEmpty = true) ∨
          s' = s.send (.check false) ∧ next.inProgress = false ∧ flushLength next = 0 ∨
          s.blobOpen = true ∧ next.inProgress = false ∧ flushLength next ≠ 0 ∧
            s' = (s.setFile (s.file.setBuffer b { next with inProgress := true })).send
              (.flushWrite b (next.offset + next.bytesFlushed) (flushLength next))) := by
  unfold fileFlush at h
  split at h
  · exact Or.inl ⟨‹_›, (Except.ok.inj h).symm⟩
  rename_i b hfind
  obtain ⟨next, hnext, h⟩ := bind_ok.mp h
  refine Or.inr ⟨b, next, hfind, CachedFile.buffer_ok.mp hnext, ?_⟩
  split at h
  · exact Or.inl ⟨(Except.ok.inj h).symm, ‹_›⟩
  rename_i hidle
  have hnot : next.inProgress = false := by simpa using fun hin => hidle (Or.inl hin)
  dsimp only at h
  split at h
  · exact Or.inr (Or.inl ⟨(Except.ok.inj h).symm, hnot, ‹_›⟩)
  · rename_i hne
    obtain ⟨hopen, rfl⟩ := blobOp_ok h
    exact Or.inr (Or.inr ⟨hopen, hnot, hne, rfl⟩)

theorem flushed_ok {next : CacheBuffer} {offset length : Nat}
    (h : s.flushed bs b next offset length a = .ok s') :
    a.bserrno ≠ 0 ∧ s' = { s.note (.wrote offset length a.bserrno) with
        blob := s.blob.ioWrite bs a.contents (getPageParameters bs offset length).1
          (getPageParameters bs offset length).2 } ∨
      a.bserrno = 0 ∧ s.blob.HasUnits bs (getPageParameters bs offset length).1
          (getPageParameters bs offset length).2 ∧
        s' = { s.note (.wrote offset length a.bserrno) with
          blob := s.blob.ioWrite bs (fun k => s.mem b
              ((getPageParameters bs offset length).1 * bs.ioUnitSize - next.offset + k))
            (getPageParameters bs offset length).1 (getPageParameters bs offset length).2 } := by
  unfold flushed at h
  dsimp only at h
  split at h
  · exact Or.inl ⟨‹_›, (Except.ok.inj h).symm⟩
  rename_i hzero
  split at h
  · exact Or.inr ⟨not_not.mp hzero, ‹_›, (Except.ok.inj h).symm⟩
  · cases h

theorem assertInBlob_ok {found : Option BufRef} (h : s.assertInBlob bs found = .ok s') :
    s' = s := by
  unfold assertInBlob at h
  split at h
  · exact (Except.ok.inj h).symm
  · obtain ⟨next, -, h⟩ := bind_ok.mp h
    obtain ⟨size, -, h⟩ := bind_ok.mp h
    split at h
    · exact (Except.ok.inj h).symm
    · cases h

/-- The state after `__file_flush_done`, up to its call of `__check_sync_reqs`. -/
def flushDone (s : FileState) (b : BufRef) (next : CacheBuffer) (length : Nat) : FileState :=
  s.setFile { s.file.setBuffer b { next with
      inProgress := false, bytesFlushed := (next.bytesFlushed + length) % 2 ^ 32 } with
    lengthFlushed := (s.file.lengthFlushed + length) % 2 ^ 64
    length := max s.file.length ((s.file.lengthFlushed + length) % 2 ^ 64) }

theorem fileFlushDone_ok {next : CacheBuffer} {length : Nat}
    (h : s.fileFlushDone bs b next length = .ok s') :
    s' = (s.flushDone b next length).send (.check true) := by
  obtain ⟨s₁, hassert, h⟩ := bind_ok.mp h
  obtain rfl := assertInBlob_ok hassert
  exact (Except.ok.inj h).symm

/-- The state after a sync request was queued. -/
def enqueued (s : FileState) (cb : SyncCb) : FileState :=
  (((s.setFile { s.file with
    syncRequests := s.file.syncRequests ++ [⟨s.brk, cb, s.file.appendPos, false, 0⟩] }).alloc).note
      (.queued s.brk)).send .flush

theorem fileSync_ok {cb : SyncCb} (h : s.fileSync cb a = .ok s') :
    s.file.appendPos ≤ s.file.lengthXattr ∧ s.callSyncCb 0 cb = .ok s' ∨
      s.callSyncCb (-ENOMEM) cb = .ok s' ∨
      s.file.lengthXattr < s.file.appendPos ∧ s' = s.enqueued cb := by
  unfold fileSync at h
  split at h
  · exact Or.inl ⟨‹_›, h⟩
  rename_i hbeyond
  split at h
  · exact Or.inr (Or.inl h)
  · exact Or.inr (Or.inr ⟨Nat.not_le.mp hbeyond, (Except.ok.inj h).symm⟩)

/-! ### Appending -/

theorem startFill_ok {payload : List UInt8} (h : s.startFill id payload a = .ok s') :
    s' = s.reply id (-ENOMEM) ∨
      ∃ last, s.file.last = some last ∧ s' = s.send (.fill id last payload 0) := by
  unfold startFill at h
  split at h
  · split at h
    · exact Or.inr ⟨_, ‹_›, (Except.ok.inj h).symm⟩
    · cases h
  · exact Or.inl (Except.ok.inj h).symm

/-- The state in which `spdk_file_write` looks for its last buffer. -/
def opened (s : FileState) : FileState := s.setFile { s.file with openForWriting := true }

/-- Where there is no last buffer, `append_pos` grows before the data is written. -/
def appendedPast (s : FileState) (length : Nat) : FileState :=
  s.setFile { s.file with appendPos := (s.file.appendPos + length) % 2 ^ 64 }

theorem openLast_ok (h : s.openLast a = .ok s') :
    s' = s.opened ∧ (s.file.last ≠ none ∨ s.file.appendPos % cacheBufferSize ≠ 0) ∨
      s.file.last = none ∧ s.file.appendPos % cacheBufferSize = 0 ∧
        ∃ r, s.opened.cacheAppendBuffer a.buffer = .ok (r, s') := by
  unfold openLast at h
  dsimp only at h
  split at h
  · rename_i hnone
    obtain ⟨⟨r, s₁⟩, happend, hret⟩ := bind_ok.mp h
    obtain rfl := Except.ok.inj hret
    exact Or.inr ⟨hnone.1, hnone.2, r, happend⟩
  · rename_i hsome
    exact Or.inl ⟨(Except.ok.inj h).symm, not_and_or.mp hsome⟩

/-- An append finds no last buffer, and gets none. -/
def GoesPast (s : FileState) (a : Answer) : Prop :=
  s.file.last = none ∧ (s.file.appendPos % cacheBufferSize ≠ 0 ∨ a.buffer = false)

instance (a : Answer) : Decidable (s.GoesPast a) := inferInstanceAs (Decidable (_ ∧ _))

theorem openLast_none (h : s.openLast a = .ok s') (hnone : s'.file.last = none) :
    s.GoesPast a ∧ s' = s.opened := by
  rcases openLast_ok h with ⟨rfl, hwhy⟩ | ⟨hfirst, -, r, happend⟩
  · exact ⟨⟨hnone, Or.inl (hwhy.resolve_left fun hlast => hlast hnone)⟩, rfl⟩
  · rcases (cacheAppendBuffer_ok happend).2.2 with ⟨rfl, rfl⟩ | ⟨-, -, -, rfl⟩
    · exact ⟨⟨hfirst, Or.inr (cacheAppendBuffer_none happend)⟩, rfl⟩
    · cases hnone

theorem append_ok {offset : Nat} {payload : List UInt8}
    (h : s.append bs id offset payload a = .ok s') :
    ∃ s₁, s.openLast a = .ok s₁ ∧
      (s₁.file.last = none ∧
          (s' = (s₁.appendedPast payload.length).send
              (.rwFromFile (some id) ⟨false, offset, payload⟩) ∨
            s' = (s₁.appendedPast payload.length).reply id (-ENOMEM)) ∨
        s₁.file.last ≠ none ∧ s₁.blobOpen = true ∧
          (bs.clusterSz * s₁.blob.numClusters < (offset + payload.length) % 2 ^ 64 ∧
              s' = s₁.send (.extend id
                (bytesToClusters ((offset + payload.length) % 2 ^ 64) bs.clusterSz) payload) ∨
            ¬ bs.clusterSz * s₁.blob.numClusters < (offset + payload.length) % 2 ^ 64 ∧
              s₁.startFill id payload a = .ok s')) := by
  obtain ⟨s₁, hfirst, hrest⟩ := bind_ok.mp h
  refine ⟨s₁, hfirst, ?_⟩
  split at hrest
  · rename_i hnone
    refine Or.inl ⟨hnone, ?_⟩
    dsimp only at hrest
    split at hrest
    · exact Or.inl (Except.ok.inj hrest).symm
    · exact Or.inr (Except.ok.inj hrest).symm
  · rename_i hsome
    obtain ⟨size, hsize, hgrow⟩ := bind_ok.mp hrest
    obtain ⟨hopen, rfl⟩ := fileGetBlobSize_ok hsize
    refine Or.inr ⟨hsome, hopen, ?_⟩
    dsimp only at hgrow
    split at hgrow
    · exact Or.inl ⟨‹_›, (Except.ok.inj hgrow).symm⟩
    · exact Or.inr ⟨‹_›, hgrow⟩

/-- A write past the cache is sent on, if its request is allocated. -/
theorem append_none {s₁ : FileState} {offset : Nat} {payload : List UInt8}
    (hopen : s.openLast a = .ok s₁) (hnone : s₁.file.last = none)
    (h : s.append bs id offset payload a = .ok s') :
    a.request = true ∧ s' = (s₁.appendedPast payload.length).send
        (.rwFromFile (some id) ⟨false, offset, payload⟩) ∨
      a.request = false ∧ s' = (s₁.appendedPast payload.length).reply id (-ENOMEM) := by
  obtain ⟨s₂, hopen₂, h⟩ := bind_ok.mp h
  obtain rfl := Except.ok.inj (hopen.symm.trans hopen₂)
  rw [if_pos hnone] at h
  dsimp only at h
  split at h
  · exact Or.inl ⟨‹_›, (Except.ok.inj h).symm⟩
  · exact Or.inr ⟨Bool.eq_false_of_not_eq_true ‹_›, (Except.ok.inj h).symm⟩

theorem append_past {s₁ : FileState} {offset : Nat} {payload : List UInt8}
    (hopen : s.openLast a = .ok s₁) (hnone : s₁.file.last = none) (hrequest : a.request = true)
    (h : s.append bs id offset payload a = .ok s') :
    s' = (s₁.appendedPast payload.length).send
      (.rwFromFile (some id) ⟨false, offset, payload⟩) := by
  rcases append_none hopen hnone h with ⟨-, rfl⟩ | ⟨hrefused, -⟩
  · rfl
  · cases hrequest.symm.trans hrefused

/-- How many bytes a round of `spdk_file_write` copies into a buffer. -/
def fillLength (last : CacheBuffer) (payload : List UInt8) : Nat :=
  min ((cacheBufferSize + 2 ^ 32 - last.bytesFilled) % 2 ^ 32) payload.length

/-- The state after the copy of a round. -/
def copied (s : FileState) (b : BufRef) (last : CacheBuffer) (payload : List UInt8) : FileState :=
  let copy := fillLength last payload
  (s.setFile
    { s.file.setBuffer b { last with bytesFilled := (last.bytesFilled + copy) % 2 ^ 32 } with
      appendPos := (s.file.appendPos + copy) % 2 ^ 64
      length := max s.file.length ((s.file.appendPos + copy) % 2 ^ 64) }).setMem b
    (splice (s.mem b) last.bytesFilled copy fun k => payload.getD k 0)

theorem fillRound_ok {payload : List UInt8} {filled : Nat}
    (h : s.fillRound id b payload filled a = .ok s') :
    ∃ last, s.file.cache.buffers b = some last ∧
      ((last.bytesFilled + fillLength last payload) % 2 ^ 32 ≠ cacheBufferSize ∧
          s' = (s.copied b last payload).send
            (.fill id b (payload.drop (fillLength last payload)) filled) ∨
        (last.bytesFilled + fillLength last payload) % 2 ^ 32 = cacheBufferSize ∧
          ∃ r s₁, (s.copied b last payload).cacheAppendBuffer a.buffer = .ok (r, s₁) ∧
            ((∃ c, r = some c ∧ s' = s₁.send
                (.fill id c (payload.drop (fillLength last payload)) (filled + 1))) ∨
              r = none ∧ s' = s₁.reply id (-ENOMEM))) := by
  obtain ⟨last, hlast, hround⟩ := bind_ok.mp h
  refine ⟨last, CachedFile.buffer_ok.mp hlast, ?_⟩
  dsimp only at hround
  split at hround
  · rename_i hfull
    obtain ⟨⟨r, s₁⟩, happend, hnext⟩ := bind_ok.mp hround
    refine Or.inr ⟨hfull, r, s₁, happend, ?_⟩
    cases r with
    | some c => exact Or.inl ⟨c, rfl, (Except.ok.inj hnext).symm⟩
    | none => exact Or.inr ⟨rfl, (Except.ok.inj hnext).symm⟩
  · exact Or.inl ⟨‹_›, (Except.ok.inj hround).symm⟩

/-! ### Requests past the cache -/

theorem rwStage_ok {op : Option Nat} {stage : Stage} (h : s.rwStage op stage = .ok s') :
    (∃ rc iov, stage = .done rc iov ∧
    (op = none ∧ s' = s ∨ ∃ id, op = some id ∧ s' = s.reply id rc)) ∨
      (∀ rc iov, stage ≠ .done rc iov) ∧ s.blobOpen = true ∧ s' = s.send (.rw op stage) := by
  unfold rwStage at h
  split at h
  · rename_i rc iov
    refine Or.inl ⟨rc, iov, rfl, ?_⟩
    split at h
    · exact Or.inr ⟨_, rfl, (Except.ok.inj h).symm⟩
    · exact Or.inl ⟨rfl, (Except.ok.inj h).symm⟩
  · rename_i hnot
    obtain ⟨hopen, rfl⟩ := blobOp_ok h
    exact Or.inr ⟨fun rc iov heq => hnot rc iov heq, hopen, rfl⟩

theorem rwComplete_ok {op : Option Nat} {stage : Stage} (h : s.rwComplete bs op stage a = .ok s') :
    ∃ t, Async.step bs (fun _ : Unit => ⟨false, 0, []⟩) ⟨s.asyncFile, fun _ => stage⟩
        (.complete () a.toAnswer) = some t ∧
      (s.setAsyncFile t.file).rwStage op (t.stage ()) = .ok s' := by
  unfold rwComplete at h
  split at h
  · cases h
  · exact ⟨_, ‹_›, h⟩

/-- What an operation of a request does to the position and the stored length: a truncate that it
makes sets both, and no other operation does. -/
theorem asyncStep_ok {bs : Blobstore} {s t : Async.State Unit} {stage : Stage}
    {answer : Async.Answer} (hstage : s.stage () = stage)
    (hstep : Async.step bs (fun _ => ⟨false, 0, []⟩) s (.complete () answer) = some t) :
    t.file.length = s.file.length ∧ t.file.appendPos = s.file.appendPos ∧
        t.file.blob.xattrLength = s.file.blob.xattrLength ∧
        t.file.blob.numClusters = s.file.blob.numClusters ∨
      ∃ length rw, stage = .resize length rw ∧ answer.bserrno = 0 ∧ t.file.length = length ∧
        t.file.appendPos = min s.file.appendPos length ∧ t.file.blob.xattrLength = length := by
  subst hstage
  simp only [Async.step] at hstep
  split at hstep
  · rename_i length rw hstage
    obtain rfl := Option.some.inj hstep
    by_cases hzero : answer.bserrno = 0
    · refine Or.inr ⟨length, rw, hstage, hzero, ?_⟩
      simp only [Async.fsTruncateResizeCb, hzero, ne_eq, not_true_eq_false, if_true, if_false,
        true_and, and_true]
      split <;> omega
    · exact Or.inl (by simp [Async.fsTruncateResizeCb, hzero])
  · obtain rfl := Option.some.inj hstep
    exact Or.inl ⟨rfl, rfl, rfl, rfl⟩
  · split at hstep
    · obtain rfl := Option.some.inj hstep
      exact Or.inl ⟨rfl, rfl, rfl, rfl⟩
    split at hstep
    · obtain rfl := Option.some.inj hstep
      exact Or.inl ⟨rfl, rfl, rfl, rfl⟩
    · cases hstep
  · split at hstep
    · obtain rfl := Option.some.inj hstep
      exact Or.inl ⟨rfl, rfl, rfl, rfl⟩
    split at hstep
    · obtain rfl := Option.some.inj hstep
      exact Or.inl ⟨rfl, rfl, rfl, rfl⟩
    · cases hstep
  all_goals cases hstep

/-- The truncate of a request sets `length`. -/
theorem asyncStep_resize {bs : Blobstore} {s t : Async.State Unit} {length : Nat} {rw : Async.Rw}
    {answer : Async.Answer} (hstage : s.stage () = .resize length rw) (hzero : answer.bserrno = 0)
    (hstep : Async.step bs (fun _ => ⟨false, 0, []⟩) s (.complete () answer) = some t) :
    t.file.length = length := by
  simp only [Async.step, hstage, Option.some.injEq] at hstep
  subst hstep
  simp [Async.fsTruncateResizeCb, hzero]

/-! ### Reading -/

/-- The state after a readahead was begun at the next address. -/
def ahead (s : FileState) (offset : Nat) : FileState :=
  (s.inserted offset).setFile ((s.inserted offset).file.setBuffer s.brk ⟨offset, 0, 0, true⟩)

/-- How many bytes `check_readahead` asks for. -/
def aheadLength (s : FileState) (offset : Nat) : Nat :=
  if s.file.length < (offset + cacheBufferSize) % 2 ^ 64 then s.file.length % cacheBufferSize
  else cacheBufferSize

theorem checkReadahead_ok {offset : Nat} {ok : Bool} (h : s.checkReadahead offset ok = .ok s') :
    s' = s ∨ s.file.cache.buffers s.brk = none ∧
      s.file.cache.find (nextCacheBufferOffset offset) = none ∧
      nextCacheBufferOffset offset < s.file.length ∧
      s' = (s.ahead (nextCacheBufferOffset offset)).send
        (.readahead s.brk (s.aheadLength (nextCacheBufferOffset offset))) := by
  unfold checkReadahead at h
  dsimp only at h
  split at h
  · exact Or.inl (Except.ok.inj h).symm
  rename_i hnew
  obtain ⟨⟨r, s₁⟩, hinsert, hnext⟩ := bind_ok.mp h
  rcases cacheInsertBuffer_ok hinsert with ⟨rfl, rfl⟩ | ⟨rfl, hfresh, hfind, rfl⟩
  · exact Or.inl (Except.ok.inj hnext).symm
  · refine Or.inr ⟨hfresh, hfind, ?_, (Except.ok.inj hnext).symm⟩
    exact Nat.not_le.mp fun hle => hnew (Or.inr hle)

theorem checkReadaheads_ok {offset : Nat} (h : s.checkReadaheads offset a = .ok s') :
    s' = s ∨ cacheReadaheadThreshold ≤ s.file.seqByteCount ∧
      ∃ s₁, s.checkReadahead offset a.aheads.1 = .ok s₁ ∧
        s₁.checkReadahead ((offset + cacheBufferSize) % 2 ^ 64) a.aheads.2 = .ok s' := by
  unfold checkReadaheads at h
  split at h
  · exact Or.inr ⟨‹_›, bind_ok.mp h⟩
  · exact Or.inl (Except.ok.inj h).symm

theorem fileRead_ok {offset length : Nat} (h : s.fileRead offset length a = .ok s') :
    s' = s.setFile { s.file with openForWriting := false } ∨
      ∃ n s₁, (length ≠ 0 ∧ offset < s.file.appendPos ∧ n = s.readableLength offset length) ∧
        (s.sequential offset n).checkReadaheads offset a = .ok s₁ ∧
        s' = s₁.send (.readLoop offset ((offset + n) % 2 ^ 64)) := by
  unfold fileRead at h
  split at h
  · exact Or.inl (Except.ok.inj h).symm
  · rename_i hsome
    obtain ⟨hlength, hoffset⟩ := not_or.mp hsome
    obtain ⟨s₁, haheads, hloop⟩ := bind_ok.mp h
    exact Or.inr ⟨_, s₁, ⟨hlength, Nat.not_le.mp hoffset, rfl⟩, haheads, (Except.ok.inj hloop).symm⟩

/-- How many bytes a round of `spdk_file_read` is for. -/
def roundLength (offset finalOffset : Nat) : Nat :=
  min ((nextCacheBufferOffset offset + 2 ^ 64 - offset) % 2 ^ 64) (finalOffset - offset)

/-- The next round. -/
def nextRound (offset finalOffset : Nat) : Work :=
  .readLoop ((offset + roundLength offset finalOffset) % 2 ^ 64) finalOffset

theorem readRound_ok {offset finalOffset : Nat} (h : s.readRound offset finalOffset a = .ok s') :
    s' = s ∨ s.file.cache.findFilled offset = none ∧
        s' = (s.send (.rwFromFile none
          ⟨true, offset, List.replicate (roundLength offset finalOffset) 0⟩)).send
            (nextRound offset finalOffset) ∨
      ∃ b buffer, s.file.cache.findFilled offset = some b ∧ s.file.cache.buffers b = some buffer ∧
        offset - buffer.offset + readLen buffer offset (roundLength offset finalOffset) ≤
          cacheBufferSize ∧
        ((offset + readLen buffer offset (roundLength offset finalOffset)) % 2 ^ 64 %
              cacheBufferSize = 0 ∧
            s' = (s.removeBuffer b buffer).send (nextRound offset finalOffset) ∨
          (offset + readLen buffer offset (roundLength offset finalOffset)) % 2 ^ 64 %
              cacheBufferSize ≠ 0 ∧ s' = s.send (nextRound offset finalOffset)) := by
  unfold readRound at h
  split at h
  · dsimp only at h
    split at h
    · rename_i hnone
      split at h
      · exact Or.inr (Or.inl ⟨hnone, (Except.ok.inj h).symm⟩)
      · exact Or.inl (Except.ok.inj h).symm
    · rename_i b hsome
      obtain ⟨buffer, hbuffer, hcopy⟩ := bind_ok.mp h
      split at hcopy
      · rename_i hfits
        refine Or.inr (Or.inr ⟨b, buffer, hsome, CachedFile.buffer_ok.mp hbuffer, hfits, ?_⟩)
        split at hcopy
        · exact Or.inl ⟨‹_›, (Except.ok.inj hcopy).symm⟩
        · exact Or.inr ⟨‹_›, (Except.ok.inj hcopy).symm⟩
      · cases hcopy
  · exact Or.inl (Except.ok.inj h).symm

theorem readAhead_ok {buffer : CacheBuffer} {length : Nat}
    (h : s.readAhead bs b buffer length a = .ok s') :
    ∃ image, s' = s.setMem b image ∧ (a.bserrno = 0 →
      image = s.blob.ioRead bs (s.mem b) (getPageParameters bs buffer.offset length).1
        (getPageParameters bs buffer.offset length).2) := by
  unfold readAhead at h
  dsimp only at h
  split at h
  · rename_i hfailed
    exact ⟨a.contents, (Except.ok.inj h).symm, fun hok => absurd hok hfailed⟩
  · split at h
    · exact ⟨_, (Except.ok.inj h).symm, fun _ => rfl⟩
    · cases h

/-! ### Truncating -/

theorem fileTruncateAsync_ok {length : Nat} (h : s.fileTruncateAsync id length a = .ok s') :
    length = s.file.length ∧ s' = s.reply id 0 ∨ s' = s.reply id (-ENOMEM) ∨
      s' = s.send (.truncateResize id length) := by
  unfold fileTruncateAsync at h
  split at h
  · exact Or.inl ⟨‹_›, (Except.ok.inj h).symm⟩
  split at h
  · exact Or.inr (Or.inl (Except.ok.inj h).symm)
  · exact Or.inr (Or.inr (blobOp_ok h).2)

/-- The state after `fs_truncate_resize_cb`, up to its metadata sync. -/
def truncated (s : FileState) (bs : Blobstore) (length : Nat) (contents : Nat → UInt8) :
    FileState :=
  { s with
    file := { s.file with length, appendPos := min s.file.appendPos length }
    blob := { s.blob.resize bs (bytesToClusters length bs.clusterSz) contents with
      xattrLength := length } }

theorem fsTruncateResizeCb_ok {length : Nat} (h : s.fsTruncateResizeCb bs id length a = .ok s') :
    a.bserrno ≠ 0 ∧ s' = s.reply id a.bserrno ∨
      a.bserrno = 0 ∧ s' = (s.truncated bs length a.contents).send (.truncateSync id) := by
  unfold fsTruncateResizeCb at h
  split at h
  · exact Or.inl ⟨‹_›, (Except.ok.inj h).symm⟩
  · rename_i hzero
    exact Or.inr ⟨not_not.mp hzero, (blobOp_ok h).2⟩

theorem step_ok {e : FileEvent} (h : s.step bs a e = .ok s') :
    s.isFree = false ∧ s.act bs a e = .ok s' := by
  unfold step at h
  split at h
  · cases h
  · exact ⟨Bool.eq_false_of_not_eq_true ‹_›, h⟩

theorem complete_ok {i : Nat} (h : s.act bs a (.complete i) = .ok s') :
    ∃ w, s.pending[i]? = some w ∧ (s.take i).perform bs a w = .ok s' := by
  unfold act at h
  dsimp only at h
  split at h
  · cases h
  · exact ⟨_, ‹_›, h⟩

end FileState

end Nbfs.Cache
