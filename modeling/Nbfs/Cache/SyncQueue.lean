import Nbfs.Cache.FileSpecs

set_option autoImplicit false

/-!
# The queue of sync requests

A sync request waits until `length_flushed` has come to what was appended before it; then
the xattr `"length"` is updated for it, and it calls back.  Requests should do so in the
order they were queued.
-/

namespace Nbfs.Cache

open Nbfs.Lib
open Nbfs.Async (Blobstore Stage ENOMEM)

/-- The request whose xattr update is to be completed. -/
def Work.xattrRef : Work → Option Nat
  | syncXattr ref => some ref
  | _ => none

def Note.queuedRef : Note → Option Nat
  | queued ref => some ref
  | _ => none

def Note.calledRef : Note → Option Nat
  | called ref _ _ => some ref
  | _ => none

/-- Sync requests call back in order. -/
structure SyncsInOrder (s : FileState) : Prop where
  /-- One xattr update is in flight at a time. -/
  oneInFlight : (s.pending.filterMap Work.xattrRef).length ≤ 1
  /-- The requests that called back are those that were queued first, -/
  inOrder : s.notes.filterMap Note.queuedRef =
    s.notes.filterMap Note.calledRef ++ s.file.syncRequests.map SyncRequest.ref
  /-- each once. -/
  once : (s.notes.filterMap Note.queuedRef).Nodup
  /-- `length_flushed` had come to the request's `append_pos`. -/
  reached : ∀ ref offset lengthFlushed, .called ref offset lengthFlushed ∈ s.notes →
    offset ≤ lengthFlushed
  /-- The assertion of `__file_cache_finish_sync` holds when it comes to it. -/
  asserted : ∀ ref, .syncXattr ref ∈ s.pending → ∀ r ∈ s.file.syncRequests, r.ref = ref →
    r.offset ≤ s.file.lengthFlushed

/-- No position passes 2^64, and no truncate, of a caller or of a direct write, completes
below `append_pos`. -/
def KeepsAppendPos (s : FileState) (e : FileEvent × Answer) : Prop :=
  match e.1 with
  | .complete i =>
      match s.pending[i]? with
      | some (.append _ _ payload) | some (.fill _ _ payload _) =>
          s.file.appendPos + payload.length < 2 ^ 64
      | some (.flushWrite _ _ length) => s.file.lengthFlushed + length < 2 ^ 64
      | some (.rw _ (.resize length _)) | some (.truncateResize _ length) =>
          e.2.bserrno = 0 → s.file.appendPos ≤ length
      | _ => True
  | _ => True

/-- The invariant: offsets on the queue grow up to `append_pos`, and only the first request
has its update in flight. -/
structure Queue (s : FileState) : Prop where
  sorted : (s.file.syncRequests.map SyncRequest.offset).Pairwise (· ≤ ·)
  below : ∀ r ∈ s.file.syncRequests, r.offset ≤ s.file.appendPos
  reached : ∀ r ∈ s.file.syncRequests, r.xattrInProgress = true → r.offset ≤ s.file.lengthFlushed
  head : ∀ r ∈ s.file.syncRequests.tail, r.xattrInProgress = false
  inFlight : s.pending.filterMap Work.xattrRef =
    (s.file.syncRequests.filter SyncRequest.xattrInProgress).map SyncRequest.ref
  inOrder : s.notes.filterMap Note.queuedRef =
    s.notes.filterMap Note.calledRef ++ s.file.syncRequests.map SyncRequest.ref
  once : (s.notes.filterMap Note.queuedRef).Nodup
  fresh : ∀ ref ∈ s.notes.filterMap Note.queuedRef, ref < s.brk
  called : ∀ ref offset lengthFlushed, .called ref offset lengthFlushed ∈ s.notes →
    offset ≤ lengthFlushed

/-- A part of a step that is not about the queue. -/
structure SameQueue (s s' : FileState) : Prop where
  requests : s'.file.syncRequests = s.file.syncRequests
  inFlight : s'.pending.filterMap Work.xattrRef = s.pending.filterMap Work.xattrRef
  queued : s'.notes.filterMap Note.queuedRef = s.notes.filterMap Note.queuedRef
  calledRefs : s'.notes.filterMap Note.calledRef = s.notes.filterMap Note.calledRef
  called : ∀ ref offset lengthFlushed, .called ref offset lengthFlushed ∈ s'.notes →
    .called ref offset lengthFlushed ∈ s.notes
  brk : s.brk ≤ s'.brk
  appendPos : s.file.appendPos ≤ s'.file.appendPos
  /-- What was flushed still is. -/
  flushed : ∀ offset ≤ s.file.appendPos, offset ≤ s.file.lengthFlushed →
    offset ≤ s'.file.lengthFlushed

theorem Queue.same {s s' : FileState} (h : Queue s) (hsame : SameQueue s s') : Queue s' where
  sorted := hsame.requests ▸ h.sorted
  below := by
    rw [hsame.requests]
    exact fun r hr => (h.below r hr).trans hsame.appendPos
  reached := by
    rw [hsame.requests]
    exact fun r hr hstarted => hsame.flushed _ (h.below r hr) (h.reached r hr hstarted)
  head := hsame.requests ▸ h.head
  inFlight := by rw [hsame.inFlight, hsame.requests, h.inFlight]
  inOrder := by rw [hsame.queued, hsame.calledRefs, hsame.requests, h.inOrder]
  once := hsame.queued ▸ h.once
  fresh := by
    rw [hsame.queued]
    exact fun ref href => (h.fresh ref href).trans_le hsame.brk
  called := fun ref offset flushed hmem => h.called ref offset flushed (hsame.called _ _ _ hmem)

/-- The queue is as it should be. -/
theorem Queue.syncsInOrder {s : FileState} (h : Queue s) : SyncsInOrder s where
  oneInFlight := by
    rw [h.inFlight, List.length_map]
    cases hrequests : s.file.syncRequests with
    | nil => exact Nat.zero_le 1
    | cons r rest =>
        have hrest : rest.filter SyncRequest.xattrInProgress = [] := by
          refine List.filter_eq_nil_iff.mpr fun q hq => ?_
          rw [h.head q (hrequests ▸ hq)]
          exact nofun
        rw [List.filter_cons, hrest]
        split
        · exact Nat.le_refl 1
        · exact Nat.zero_le 1
  inOrder := h.inOrder
  once := h.once
  reached := h.called
  asserted := by
    intro ref hpending r hr href
    have hmem : ref ∈ s.pending.filterMap Work.xattrRef :=
      List.mem_filterMap.mpr ⟨_, hpending, rfl⟩
    rw [h.inFlight, List.mem_map] at hmem
    obtain ⟨q, hq, rfl⟩ := hmem
    obtain ⟨hq, hstarted⟩ := List.mem_filter.mp hq
    have hnodup : (s.file.syncRequests.map SyncRequest.ref).Nodup := by
      have honce := h.once
      rw [h.inOrder] at honce
      exact honce.of_append_right
    obtain rfl : r = q := List.inj_on_of_nodup_map hnodup hr hq href
    exact h.reached r hr hstarted

namespace SameQueue

variable {s s' s'' : FileState} {bs : Blobstore} {a : Answer} {w : Work} {id : Nat}

theorem refl (s : FileState) : SameQueue s s :=
  ⟨rfl, rfl, rfl, rfl, fun _ _ _ h => h, Nat.le_refl _, Nat.le_refl _, fun _ _ h => h⟩

theorem trans (h : SameQueue s s') (h' : SameQueue s' s'') : SameQueue s s'' where
  requests := h'.requests.trans h.requests
  inFlight := h'.inFlight.trans h.inFlight
  queued := h'.queued.trans h.queued
  calledRefs := h'.calledRefs.trans h.calledRefs
  called := fun _ _ _ hmem => h.called _ _ _ (h'.called _ _ _ hmem)
  brk := h.brk.trans h'.brk
  appendPos := h.appendPos.trans h'.appendPos
  flushed := fun offset hpos hflushed =>
    h'.flushed offset (hpos.trans h.appendPos) (h.flushed offset hpos hflushed)

/-! ### Parts of steps -/

/-- The fields of the file change, but not its queue. -/
theorem fields (hrequests : s'.file.syncRequests = s.file.syncRequests)
    (happend : s.file.appendPos ≤ s'.file.appendPos)
    (hflushed : s'.file.lengthFlushed = s.file.lengthFlushed) (hpending : s'.pending = s.pending)
    (hnotes : s'.notes = s.notes) (hbrk : s.brk ≤ s'.brk) : SameQueue s s' where
  requests := hrequests
  inFlight := by rw [hpending]
  queued := by rw [hnotes]
  calledRefs := by rw [hnotes]
  called := fun _ _ _ hmem => hnotes ▸ hmem
  brk := hbrk
  appendPos := happend
  flushed := fun _ _ hle => hflushed ▸ hle

theorem send (s : FileState) (hw : w.xattrRef = none) : SameQueue s (s.send w) :=
  { refl s with
    inFlight := by simp [FileState.send, hw] }

theorem notes {l : List Note} (hnotes : s'.notes = s.notes ++ l)
    (hqueued : l.filterMap Note.queuedRef = []) (hcalled : l.filterMap Note.calledRef = [])
    (hrest : SameQueue s { s' with notes := s.notes }) : SameQueue s s' :=
  { hrest with
    queued := by simp [hnotes, hqueued]
    calledRefs := by simp [hnotes, hcalled]
    called := by
      intro ref offset lengthFlushed hmem
      rw [hnotes, List.mem_append] at hmem
      refine hmem.resolve_right fun hnew => ?_
      have hnone := List.filterMap_eq_nil_iff.mp hcalled _ hnew
      cases hnone }

theorem note {n : Note} (s : FileState) (hqueued : n.queuedRef = none)
    (hcalled : n.calledRef = none) : SameQueue s (s.note n) :=
  notes (l := [n]) rfl (by simp [hqueued]) (by simp [hcalled]) (refl s)

theorem reply (s : FileState) (id : Nat) (rc : Int) : SameQueue s (s.reply id rc) :=
  note s rfl rfl

theorem alloc (s : FileState) : SameQueue s s.alloc :=
  fields rfl (Nat.le_refl _) rfl rfl rfl (Nat.le_succ _)

theorem then_send (hw : w.xattrRef = none) (h : SameQueue s s') : SameQueue s (s'.send w) :=
  h.trans (send s' hw)

theorem then_reply {rc : Int} (h : SameQueue s s') : SameQueue s (s'.reply id rc) :=
  h.trans (reply s' id rc)

/-- An item that is taken is not on the queue, unless it is an xattr update. -/
theorem take {i : Nat} (hw : s.pending[i]? = some w) (hnone : w.xattrRef = none) :
    SameQueue s (s.take i) :=
  { refl s with
    inFlight := filterMap_taken hw hnone }

theorem cacheInsertBuffer {offset : Nat} {ok : Bool} {r : Option BufRef}
    (h : s.cacheInsertBuffer offset ok = .ok (r, s')) : SameQueue s s' := by
  rcases FileState.cacheInsertBuffer_ok h with ⟨-, rfl⟩ | ⟨-, -, -, rfl⟩
  · exact refl s'
  · exact fields rfl (Nat.le_refl _) rfl rfl rfl (Nat.le_succ _)

theorem cacheAppendBuffer {ok : Bool} {r : Option BufRef}
    (h : s.cacheAppendBuffer ok = .ok (r, s')) : SameQueue s s' := by
  rcases (FileState.cacheAppendBuffer_ok h).2.2 with ⟨-, rfl⟩ | ⟨-, -, -, rfl⟩
  · exact refl s'
  · exact fields rfl (Nat.le_refl _) rfl rfl rfl (Nat.le_succ _)

theorem treeFreeBuffers (s : FileState) : SameQueue s s.treeFreeBuffers := by
  refine notes rfl ?_ ?_ (fields rfl (Nat.le_refl _) rfl rfl rfl (Nat.le_refl _))
  all_goals
    refine List.filterMap_eq_nil_iff.mpr fun n hn => ?_
    obtain ⟨b, -, hb⟩ := List.mem_filterMap.mp hn
    obtain ⟨buffer, -, rfl⟩ := Option.map_eq_some_iff.mp hb
    rfl

theorem reclaimCacheBuffers (s : FileState) : SameQueue s s.reclaimCacheBuffers := by
  unfold FileState.reclaimCacheBuffers
  split
  · exact refl s
  dsimp only
  split
  · exact (treeFreeBuffers s).trans (fields rfl (Nat.le_refl _) rfl rfl rfl (Nat.le_refl _))
  · exact treeFreeBuffers s

theorem fileFree (h : s.fileFree = .ok s') : SameQueue s s' := by
  unfold FileState.fileFree at h
  split at h
  · obtain rfl := Except.ok.inj h
    exact fields rfl (Nat.le_refl _) rfl rfl rfl (Nat.le_refl _)
  dsimp only at h
  split at h
  · obtain rfl := Except.ok.inj h
    exact (treeFreeBuffers s).trans (fields rfl (Nat.le_refl _) rfl rfl rfl (Nat.le_refl _))
  · cases h

theorem fileCloseAsync (h : s.fileCloseAsync id = .ok s') : SameQueue s s' := by
  rcases FileState.fileCloseAsync_ok h with rfl | rfl | rfl
  · exact reply s id _
  · exact then_reply (fields rfl (Nat.le_refl _) rfl rfl rfl (Nat.le_refl _))
  · exact then_send rfl (fields rfl (Nat.le_refl _) rfl rfl rfl (Nat.le_refl _))

theorem callSyncCb {rc : Int} {cb : SyncCb} (h : s.callSyncCb rc cb = .ok s') :
    SameQueue s s' := by
  cases cb with
  | client id =>
      obtain rfl := Except.ok.inj h
      exact reply s id rc
  | closeAsync id => exact fileCloseAsync h
  | close id =>
      obtain rfl := Except.ok.inj h
      exact send s rfl

theorem startFill {payload : List UInt8} (h : s.startFill id payload a = .ok s') :
    SameQueue s s' := by
  rcases FileState.startFill_ok h with rfl | ⟨last, -, rfl⟩
  · exact reply s id _
  · exact send s rfl

theorem openLast (h : s.openLast a = .ok s') : SameQueue s s' := by
  have hopened : SameQueue s s.opened := fields rfl (Nat.le_refl _) rfl rfl rfl (Nat.le_refl _)
  rcases FileState.openLast_ok h with ⟨rfl, -⟩ | ⟨-, -, r, happend⟩
  · exact hopened
  · exact hopened.trans (cacheAppendBuffer happend)

theorem append {offset : Nat} {payload : List UInt8}
    (hfits : s.file.appendPos + payload.length < 2 ^ 64)
    (h : s.append bs id offset payload a = .ok s') : SameQueue s s' := by
  obtain ⟨s₁, hopen, hrest⟩ := FileState.append_ok h
  have hsame := openLast hopen
  refine hsame.trans ?_
  have hpast : s₁.file.appendPos = s.file.appendPos →
      SameQueue s₁ (s₁.appendedPast payload.length) := by
    intro heq
    refine fields rfl ?_ rfl rfl rfl (Nat.le_refl _)
    change _ ≤ (s₁.file.appendPos + payload.length) % 2 ^ 64
    rw [Nat.mod_eq_of_lt (heq ▸ hfits)]
    exact Nat.le_add_right _ _
  have heq : s₁.file.appendPos = s.file.appendPos := by
    rcases FileState.openLast_ok hopen with ⟨rfl, -⟩ | ⟨-, -, r, happend⟩
    · rfl
    · rcases (FileState.cacheAppendBuffer_ok happend).2.2 with ⟨-, rfl⟩ | ⟨-, -, -, rfl⟩
      · rfl
      · rfl
  rcases hrest with ⟨-, rfl | rfl⟩ | ⟨-, -, ⟨-, rfl⟩ | ⟨-, hfill⟩⟩
  · exact then_send rfl (hpast heq)
  · exact then_reply (hpast heq)
  · exact send _ rfl
  · exact startFill hfill

theorem fillRound {b : BufRef} {payload : List UInt8} {filled : Nat}
    (hfits : s.file.appendPos + payload.length < 2 ^ 64)
    (h : s.fillRound id b payload filled a = .ok s') : SameQueue s s' := by
  obtain ⟨last, -, hround⟩ := FileState.fillRound_ok h
  have hcopied : SameQueue s (s.copied b last payload) := by
    refine fields rfl ?_ rfl rfl rfl (Nat.le_refl _)
    have hcopy : FileState.fillLength last payload ≤ payload.length := Nat.min_le_right _ _
    change _ ≤ (s.file.appendPos + FileState.fillLength last payload) % 2 ^ 64
    rw [Nat.mod_eq_of_lt (by omega)]
    exact Nat.le_add_right _ _
  rcases hround with ⟨-, rfl⟩ | ⟨-, r, s₁, happend, ⟨c, -, rfl⟩ | ⟨-, rfl⟩⟩
  · exact then_send rfl hcopied
  · exact then_send rfl (hcopied.trans (cacheAppendBuffer happend))
  · exact then_reply (hcopied.trans (cacheAppendBuffer happend))

theorem rwStage {op : Option Nat} {stage : Stage} (h : s.rwStage op stage = .ok s') :
    SameQueue s s' := by
  rcases FileState.rwStage_ok h with ⟨rc, iov, -, ⟨-, rfl⟩ | ⟨id, -, rfl⟩⟩ | ⟨-, -, rfl⟩
  · exact refl _
  · exact reply s id rc
  · exact send s rfl

theorem checkReadahead {offset : Nat} {ok : Bool} (h : s.checkReadahead offset ok = .ok s') :
    SameQueue s s' := by
  rcases FileState.checkReadahead_ok h with rfl | ⟨-, -, -, rfl⟩
  · exact refl _
  · exact then_send rfl (fields rfl (Nat.le_refl _) rfl rfl rfl (Nat.le_succ _))

theorem fileRead {offset length : Nat} (h : s.fileRead offset length a = .ok s') :
    SameQueue s s' := by
  rcases FileState.fileRead_ok h with rfl | ⟨n, s₁, -, haheads, rfl⟩
  · exact fields rfl (Nat.le_refl _) rfl rfl rfl (Nat.le_refl _)
  · have hseq : SameQueue s (s.sequential offset n) :=
      fields rfl (Nat.le_refl _) rfl rfl rfl (Nat.le_refl _)
    refine (hseq.trans ?_).trans (send _ rfl)
    rcases FileState.checkReadaheads_ok haheads with rfl | ⟨-, s₂, hfirst, hsecond⟩
    · exact refl _
    · exact (checkReadahead hfirst).trans (checkReadahead hsecond)

theorem readRound {offset finalOffset : Nat} (h : s.readRound offset finalOffset a = .ok s') :
    SameQueue s s' := by
  rcases FileState.readRound_ok h with
    rfl | ⟨-, rfl⟩ | ⟨b, buffer, -, -, -, ⟨-, rfl⟩ | ⟨-, rfl⟩⟩
  · exact refl _
  · exact then_send rfl (send s rfl)
  · have hleft : SameQueue s (s.setFile (s.file.treeRemoveBuffer b)) :=
      fields rfl (Nat.le_refl _) rfl rfl rfl (Nat.le_refl _)
    exact then_send rfl (hleft.trans (note (n := .freed buffer) _ rfl rfl))
  · exact send s rfl

theorem fileFlush (h : s.fileFlush = .ok s') : SameQueue s s' := by
  rcases FileState.fileFlush_ok h with
    ⟨-, rfl⟩ | ⟨b, next, -, -, ⟨rfl, -⟩ | ⟨rfl, -⟩ | ⟨-, -, -, rfl⟩⟩
  · exact then_send rfl { refl s with flushed := fun _ hpos _ => hpos }
  · exact refl _
  · exact send s rfl
  · exact then_send rfl (fields rfl (Nat.le_refl _) rfl rfl rfl (Nat.le_refl _))

theorem flushWrite {b : BufRef} {next : CacheBuffer} {offset length : Nat}
    (h : s.flushed bs b next offset length a = .ok s') :
    SameQueue s s' ∧ s'.file = s.file := by
  rcases FileState.flushed_ok h with ⟨-, rfl⟩ | ⟨-, -, rfl⟩
  all_goals
    refine ⟨(note s (n := .wrote offset length a.bserrno) rfl rfl).trans ?_, rfl⟩
    exact fields rfl (Nat.le_refl _) rfl rfl rfl (Nat.le_refl _)

theorem fileFlushDone {b : BufRef} {next : CacheBuffer} {length : Nat}
    (hfits : s.file.lengthFlushed + length < 2 ^ 64)
    (h : s.fileFlushDone bs b next length = .ok s') : SameQueue s s' := by
  obtain rfl := FileState.fileFlushDone_ok h
  refine then_send rfl { refl s with flushed := fun offset _ hle => ?_ }
  change offset ≤ (s.file.lengthFlushed + length) % 2 ^ 64
  rw [Nat.mod_eq_of_lt hfits]
  omega

theorem readAhead {b : BufRef} {buffer : CacheBuffer} {length : Nat}
    (h : s.readAhead bs b buffer length a = .ok s') : SameQueue s s' := by
  obtain ⟨image, rfl, -⟩ := FileState.readAhead_ok h
  exact fields rfl (Nat.le_refl _) rfl rfl rfl (Nat.le_refl _)

theorem fileTruncateAsync {length : Nat} (h : s.fileTruncateAsync id length a = .ok s') :
    SameQueue s s' := by
  rcases FileState.fileTruncateAsync_ok h with ⟨-, rfl⟩ | rfl | rfl
  · exact reply s id 0
  · exact reply s id _
  · exact send s rfl

theorem fsTruncateResizeCb {length : Nat} (hkeeps : a.bserrno = 0 → s.file.appendPos ≤ length)
    (h : s.fsTruncateResizeCb bs id length a = .ok s') : SameQueue s s' := by
  rcases FileState.fsTruncateResizeCb_ok h with ⟨-, rfl⟩ | ⟨hzero, rfl⟩
  · exact reply s id _
  · refine then_send rfl (fields rfl ?_ rfl rfl rfl (Nat.le_refl _))
    exact Nat.le_min.mpr ⟨Nat.le_refl _, hkeeps hzero⟩

end SameQueue

/-- An operation of a request past the cache leaves `append_pos`, unless it is the resize of a
truncate below. -/
theorem asyncStep_appendPos {bs : Blobstore} {f : Async.File} {stage : Stage} {a : Async.Answer}
    {t : Async.State Unit} {c : Unit → Async.Call}
    (hkeeps : ∀ length rw, stage = .resize length rw → a.bserrno = 0 → f.appendPos ≤ length)
    (h : Async.step bs c ⟨f, fun _ => stage⟩ (.complete () a) = some t) :
    t.file.appendPos = f.appendPos := by
  cases stage with
  | resize length rw =>
      obtain rfl := Option.some.inj h
      change (Async.fsTruncateResizeCb _ length rw a.bserrno).1.appendPos = _
      unfold Async.fsTruncateResizeCb
      split
      · rfl
      · rename_i hzero
        exact if_neg (Nat.not_lt.mpr (hkeeps length rw rfl (not_not.mp hzero)))
  | syncMd rw =>
      obtain rfl := Option.some.inj h
      rfl
  | read rw =>
      simp only [Async.step] at h
      split at h
      · obtain rfl := Option.some.inj h
        rfl
      · split at h
        · obtain rfl := Option.some.inj h
          rfl
        · cases h
  | write rw =>
      simp only [Async.step] at h
      split at h
      · obtain rfl := Option.some.inj h
        rfl
      · split at h
        · obtain rfl := Option.some.inj h
          rfl
        · cases h
  | idle => cases h
  | done rc iov => cases h

theorem SameQueue.rwComplete {s s' : FileState} {bs : Blobstore} {a : Answer} {op : Option Nat}
    {stage : Stage}
    (hkeeps : ∀ length rw, stage = .resize length rw → a.bserrno = 0 → s.file.appendPos ≤ length)
    (h : s.rwComplete bs op stage a = .ok s') : SameQueue s s' := by
  obtain ⟨t, hstep, hstage⟩ := FileState.rwComplete_ok h
  have hpos : t.file.appendPos = s.file.appendPos := asyncStep_appendPos hkeeps hstep
  have hset : SameQueue s (s.setAsyncFile t.file) :=
    fields rfl (Nat.le_of_eq hpos.symm) rfl rfl rfl (Nat.le_refl _)
  exact hset.trans (rwStage hstage)

/-! ### The queue moves -/

namespace Queue

variable {s s' : FileState} {bs : Blobstore} {a : Answer}

theorem refs_nodup (h : Queue s) : (s.file.syncRequests.map SyncRequest.ref).Nodup := by
  have honce := h.once
  rw [h.inOrder] at honce
  exact honce.of_append_right

/-- The request that `__check_sync_reqs` finds is the first one. -/
theorem find_head (h : Queue s) {r : SyncRequest}
    (hfind : s.file.syncRequests.find? (fun r => decide (r.offset ≤ s.file.lengthFlushed)) =
    some r) :
    ∃ rest, s.file.syncRequests = r :: rest := by
  obtain ⟨hr, before, rest, hsplit, hbefore⟩ := List.find?_eq_some_iff_append.mp hfind
  have hreached : r.offset ≤ s.file.lengthFlushed := of_decide_eq_true hr
  cases before with
  | nil => exact ⟨rest, hsplit⟩
  | cons q before =>
      have hlater : ¬ q.offset ≤ s.file.lengthFlushed := by
        simpa using hbefore q List.mem_cons_self
      have hsorted := h.sorted
      rw [hsplit, List.cons_append, List.map_cons, List.pairwise_cons] at hsorted
      refine absurd (Nat.le_trans (hsorted.1 r.offset ?_) hreached) hlater
      exact List.mem_map_of_mem (List.mem_append_right _ List.mem_cons_self)

/-- Only the first request can be in flight. -/
theorem started_cons (h : Queue s) {r : SyncRequest} {rest : List SyncRequest}
    (hrequests : s.file.syncRequests = r :: rest) :
    s.file.syncRequests.filter SyncRequest.xattrInProgress =
      if r.xattrInProgress then [r] else [] := by
  have hrest : rest.filter SyncRequest.xattrInProgress = [] := by
    refine List.filter_eq_nil_iff.mpr fun q hq => ?_
    rw [h.head q (hrequests ▸ hq)]
    exact nofun
  rw [hrequests, List.filter_cons, hrest]

theorem checkSyncReqs (h : Queue s) (hstep : s.checkSyncReqs = .ok s') : Queue s' := by
  rcases FileState.checkSyncReqs_ok hstep with rfl | ⟨r, hfind, hidle, -, rfl⟩
  · exact h
  obtain ⟨rest, hrequests⟩ := h.find_head hfind
  have hreached : r.offset ≤ s.file.lengthFlushed :=
    of_decide_eq_true (List.find?_eq_some_iff_append.mp hfind).1
  obtain ⟨started, hstarted⟩ : ∃ started : SyncRequest, started =
      { r with xattrInProgress := true, length := s.file.lengthFlushed } := ⟨_, rfl⟩
  have hnodup := h.refs_nodup
  rw [hrequests, List.map_cons, List.nodup_cons] at hnodup
  have hmap : (s.file.syncRequests.map fun q : SyncRequest => if q.ref = r.ref then
      { r with xattrInProgress := true, length := s.file.lengthFlushed } else q) =
        started :: rest := by
    rw [hrequests, List.map_cons, if_pos rfl, ← hstarted, List.cons.injEq]
    refine ⟨rfl, (List.map_congr_left fun q hq => if_neg fun heq => ?_).trans (List.map_id' rest)⟩
    exact hnodup.1 (heq ▸ List.mem_map_of_mem hq)
  have hoffset : started.offset = r.offset := by rw [hstarted]
  have href : started.ref = r.ref := by rw [hstarted]
  have hrefs : (started :: rest).map SyncRequest.ref = s.file.syncRequests.map SyncRequest.ref := by
    rw [hrequests, List.map_cons, List.map_cons, href]
  have hmem : ∀ q ∈ started :: rest, q.offset ≤ s.file.appendPos := by
    intro q hq
    rcases List.mem_cons.mp hq with rfl | hq
    · exact hoffset ▸ h.below r (hrequests ▸ List.mem_cons_self)
    · exact h.below q (hrequests ▸ List.mem_cons_of_mem _ hq)
  have hrest : ∀ q ∈ rest, q.xattrInProgress = false := fun q hq => h.head q (hrequests ▸ hq)
  exact {
    sorted := by
      have hsorted := h.sorted
      rw [hrequests, List.map_cons] at hsorted
      change ((s.file.syncRequests.map _).map SyncRequest.offset).Pairwise _
      rw [hmap, List.map_cons, hoffset]
      exact hsorted
    below := by
      change ∀ q ∈ s.file.syncRequests.map _, _
      rw [hmap]
      exact hmem
    reached := by
      change ∀ q ∈ s.file.syncRequests.map _, _
      rw [hmap]
      intro q hq hin
      rcases List.mem_cons.mp hq with rfl | hq
      · exact hoffset ▸ hreached
      · cases (hrest q hq).symm.trans hin
    head := by
      change ∀ q ∈ (s.file.syncRequests.map _).tail, _
      rw [hmap]
      exact hrest
    inFlight := by
      change (s.pending ++ [_]).filterMap _ = ((s.file.syncRequests.map _).filter _).map _
      have hold := h.inFlight
      rw [h.started_cons hrequests, hidle] at hold
      have hnone : rest.filter SyncRequest.xattrInProgress = [] :=
        List.filter_eq_nil_iff.mpr fun q hq => by simp [hrest q hq]
      rw [hmap, List.filterMap_append, hold, List.filter_cons, hnone, hstarted]
      rfl
    inOrder := by
      change _ = _ ++ (s.file.syncRequests.map _).map _
      rw [hmap, hrefs]
      exact h.inOrder
    once := h.once
    fresh := h.fresh
    called := h.called }

/-- The request whose xattr update is taken is the first one. -/
theorem taken_head (h : Queue s) {i ref : Nat} (htaken : s.pending[i]? = some (.syncXattr ref)) :
    ∃ r rest, s.file.syncRequests = r :: rest ∧ r.ref = ref ∧
      (s.take i).pending.filterMap Work.xattrRef = [] := by
  have hperm : (s.pending.filterMap Work.xattrRef).Perm
      (ref :: (s.take i).pending.filterMap Work.xattrRef) :=
    (taken_perm htaken).filterMap Work.xattrRef
  rw [h.inFlight] at hperm
  cases hrequests : s.file.syncRequests with
  | nil =>
      rw [hrequests] at hperm
      exact absurd hperm.symm (List.not_perm_cons_nil)
  | cons r rest =>
      rw [h.started_cons hrequests] at hperm
      cases hin : r.xattrInProgress with
      | false =>
          rw [hin] at hperm
          exact absurd hperm.symm (List.not_perm_cons_nil)
      | true =>
          rw [hin] at hperm
          obtain ⟨href, hrest⟩ := List.cons.inj (List.singleton_perm.mp hperm)
          exact ⟨r, rest, rfl, href, hrest.symm⟩

theorem fileCacheFinishSync (h : Queue s) {i ref : Nat} {bserrno : Int}
    (htaken : s.pending[i]? = some (.syncXattr ref))
    (hstep : (s.take i).fileCacheFinishSync ref bserrno = .ok s') : Queue s' := by
  obtain ⟨r, rest, hrequests, href, hpending⟩ := h.taken_head htaken
  obtain ⟨q, hfind, hreached, s₁, hcb, rfl⟩ := FileState.fileCacheFinishSync_ok hstep
  have hq : q = r := by
    change s.file.syncRequests.find? _ = _ at hfind
    rw [hrequests, List.find?_cons_of_pos (by simp [href])] at hfind
    exact (Option.some.inj hfind).symm
  subst hq
  have hnodup := h.refs_nodup
  rw [hrequests, List.map_cons, List.nodup_cons] at hnodup
  have hfilter : (s.take i).file.syncRequests.filter (fun q : SyncRequest => q.ref ≠ ref) =
    rest := by
    change s.file.syncRequests.filter _ = rest
    rw [hrequests, List.filter_cons_of_neg (by simp [href])]
    refine List.filter_eq_self.mpr fun p hp => decide_eq_true fun heq => hnodup.1 ?_
    exact (href.trans heq.symm) ▸ List.mem_map_of_mem hp
  refine Queue.same ?_ (SameQueue.then_send rfl (SameQueue.callSyncCb hcb))
  have hsub : ∀ p ∈ rest, p ∈ s.file.syncRequests := fun p hp =>
    hrequests ▸ List.mem_cons_of_mem _ hp
  have hidle : ∀ p ∈ rest, p.xattrInProgress = false := fun p hp => h.head p (hrequests ▸ hp)
  have hsorted := h.sorted
  rw [hrequests, List.map_cons, List.pairwise_cons] at hsorted
  exact {
    sorted := by
      change (((s.take i).file.syncRequests.filter _).map SyncRequest.offset).Pairwise _
      rw [hfilter]
      exact hsorted.2
    below := by
      change ∀ p ∈ (s.take i).file.syncRequests.filter _, _
      rw [hfilter]
      exact fun p hp => h.below p (hsub p hp)
    reached := by
      change ∀ p ∈ (s.take i).file.syncRequests.filter _, _
      rw [hfilter]
      exact fun p hp hin => nomatch (hidle p hp).symm.trans hin
    head := by
      change ∀ p ∈ ((s.take i).file.syncRequests.filter _).tail, _
      rw [hfilter]
      exact fun p hp => hidle p (List.mem_of_mem_tail hp)
    inFlight := by
      change (s.take i).pending.filterMap _ =
        (((s.take i).file.syncRequests.filter _).filter _).map _
      have hnone : rest.filter SyncRequest.xattrInProgress = [] :=
        List.filter_eq_nil_iff.mpr fun p hp => by simp [hidle p hp]
      rw [hfilter, hpending, hnone]
      rfl
    inOrder := by
      have horder := h.inOrder
      rw [hrequests, List.map_cons, href] at horder
      rw [FileState.note_none (f := Note.queuedRef) rfl, FileState.note_some (x := ref) rfl]
      change s.notes.filterMap _ = (s.notes.filterMap _ ++ [ref]) ++
        ((s.take i).file.syncRequests.filter _).map _
      rw [hfilter, horder, List.append_assoc]
      rfl
    once := by
      rw [FileState.note_none rfl]
      exact h.once
    fresh := by
      rw [FileState.note_none rfl]
      exact h.fresh
    called := by
      intro ref' offset lengthFlushed hmem
      rcases FileState.mem_note hmem with hold | hnew
      · exact h.called _ _ _ hold
      · cases hnew
        exact hreached }

/-- A request is queued last. -/
theorem enqueued (h : Queue s) (cb : SyncCb) : Queue (s.enqueued cb) := by
  refine Queue.same (s := ((s.setFile { s.file with
    syncRequests := s.file.syncRequests ++ [⟨s.brk, cb, s.file.appendPos, false, 0⟩] }).alloc).note
      (.queued s.brk)) ?_ (SameQueue.send _ rfl)
  exact {
    sorted := by
      change ((s.file.syncRequests ++ [_]).map SyncRequest.offset).Pairwise _
      rw [List.map_append, List.pairwise_append]
      refine ⟨h.sorted, List.pairwise_singleton _ _, fun offset hoffset new hnew => ?_⟩
      obtain ⟨r, hr, rfl⟩ := List.mem_map.mp hoffset
      rw [List.mem_singleton.mp hnew]
      exact h.below r hr
    below := by
      intro r hr
      rcases List.mem_append.mp hr with hold | hnew
      · exact h.below r hold
      · rw [List.mem_singleton.mp hnew]
        exact Nat.le_refl _
    reached := by
      intro r hr hin
      rcases List.mem_append.mp hr with hold | hnew
      · exact h.reached r hold hin
      · rw [List.mem_singleton.mp hnew] at hin
        cases hin
    head := by
      intro r hr
      change r ∈ (s.file.syncRequests ++ [_]).tail at hr
      cases hrequests : s.file.syncRequests with
      | nil =>
          rw [hrequests] at hr
          cases hr
      | cons q rest =>
          rw [hrequests, List.cons_append, List.tail_cons, List.mem_append] at hr
          rcases hr with hold | hnew
          · exact h.head r (hrequests ▸ hold)
          · rw [List.mem_singleton.mp hnew]
    inFlight := by
      change s.pending.filterMap _ = ((s.file.syncRequests ++ [_]).filter _).map _
      rw [List.filter_append, h.inFlight]
      simp
    inOrder := by
      rw [FileState.note_none (f := Note.calledRef) rfl, FileState.note_some (x := s.brk) rfl]
      change s.notes.filterMap _ ++ _ = s.notes.filterMap _ ++ (s.file.syncRequests ++ [_]).map _
      rw [h.inOrder, List.map_append, List.append_assoc]
      rfl
    once := by
      rw [FileState.note_some (x := s.brk) rfl, List.nodup_append]
      refine ⟨h.once, List.nodup_singleton _, fun ref href new hnew => ?_⟩
      rw [List.mem_singleton.mp hnew]
      exact Nat.ne_of_lt (h.fresh ref href)
    fresh := by
      rw [FileState.note_some (x := s.brk) rfl]
      intro ref hmem
      change ref < s.brk + 1
      rcases List.mem_append.mp hmem with hold | hnew
      · exact Nat.lt_succ_of_lt (h.fresh ref hold)
      · exact List.mem_singleton.mp hnew ▸ Nat.lt_succ_self _
    called := by
      intro ref offset lengthFlushed hmem
      rcases FileState.mem_note hmem with hold | hnew
      · exact h.called _ _ _ hold
      · cases hnew }

theorem fileSync (h : Queue s) {cb : SyncCb} (hstep : s.fileSync cb a = .ok s') : Queue s' := by
  rcases FileState.fileSync_ok hstep with ⟨-, hcb⟩ | hcb | ⟨-, rfl⟩
  · exact h.same (SameQueue.callSyncCb hcb)
  · exact h.same (SameQueue.callSyncCb hcb)
  · exact h.enqueued cb

/-- Something that is pending is done. -/
theorem complete (h : Queue s) {i : Nat} {w : Work} (hw : s.pending[i]? = some w)
    (hkeeps : KeepsAppendPos s (.complete i, a)) (hstep : (s.take i).perform bs a w = .ok s') :
    Queue s' := by
  unfold KeepsAppendPos at hkeeps
  dsimp only at hkeeps
  rw [hw] at hkeeps
  have htake : w.xattrRef = none → Queue (s.take i) := fun hnone => h.same (.take hw hnone)
  cases w with
  | append id offset payload => exact (htake rfl).same (.append hkeeps hstep)
  | extend id numClusters payload =>
      obtain ⟨-, rfl⟩ := FileState.blobOp_ok hstep
      exact (htake rfl).same (.send _ rfl)
  | extendResize id numClusters payload =>
      simp only [FileState.perform] at hstep
      split at hstep
      · obtain rfl := Except.ok.inj hstep
        exact (htake rfl).same (.reply _ id _)
      · obtain ⟨-, rfl⟩ := FileState.blobOp_ok hstep
        refine (htake rfl).same (SameQueue.then_send rfl ?_)
        exact SameQueue.fields rfl (Nat.le_refl _) rfl rfl rfl (Nat.le_refl _)
  | extendSync id payload =>
      simp only [FileState.perform] at hstep
      split at hstep
      · obtain rfl := Except.ok.inj hstep
        exact (htake rfl).same (.reply _ id _)
      · obtain rfl := Except.ok.inj hstep
        exact (htake rfl).same (.send _ rfl)
  | startFill id payload => exact (htake rfl).same (.startFill hstep)
  | fill id b payload filled =>
      simp only [FileState.perform] at hstep
      split at hstep
      · obtain rfl := Except.ok.inj hstep
        unfold FileState.endFill
        split
        · exact (htake rfl).same (.reply _ id 0)
        · exact (htake rfl).same (SameQueue.then_send rfl (.reply _ id 0))
      · exact (htake rfl).same (.fillRound hkeeps hstep)
  | rwFromFile id call => exact (htake rfl).same (.rwStage hstep)
  | rw id stage =>
      refine (htake rfl).same (.rwComplete (fun length rw hstage hzero => ?_) hstep)
      subst hstage
      exact hkeeps hzero
  | flush => exact (htake rfl).same (.fileFlush hstep)
  | flushWrite b offset length =>
      obtain ⟨next, -, hstep⟩ := bind_ok.mp hstep
      obtain ⟨s₁, hwrite, hdone⟩ := bind_ok.mp hstep
      obtain ⟨hsame, hfile⟩ := SameQueue.flushWrite hwrite
      exact ((htake rfl).same hsame).same (.fileFlushDone (hfile ▸ hkeeps) hdone)
  | check thenFlush =>
      obtain ⟨s₁, hcheck, hret⟩ := bind_ok.mp hstep
      obtain rfl := Except.ok.inj hret
      have hchecked := (htake rfl).checkSyncReqs hcheck
      split
      · exact hchecked.same (.send _ rfl)
      · exact hchecked
  | syncXattr ref => exact h.fileCacheFinishSync hw hstep
  | readahead b length =>
      obtain ⟨buffer, -, hstep⟩ := bind_ok.mp hstep
      split at hstep
      · cases hstep
      · obtain ⟨-, rfl⟩ := FileState.blobOp_ok hstep
        exact (htake rfl).same (.send _ rfl)
  | readaheadRead b length =>
      obtain ⟨buffer, -, hstep⟩ := bind_ok.mp hstep
      obtain ⟨s₁, hread, hret⟩ := bind_ok.mp hstep
      obtain rfl := Except.ok.inj hret
      refine ((htake rfl).same (.readAhead hread)).same ?_
      exact SameQueue.fields rfl (Nat.le_refl _) rfl rfl rfl (Nat.le_refl _)
  | readLoop offset finalOffset => exact (htake rfl).same (.readRound hstep)
  | truncate id length => exact (htake rfl).same (.fileTruncateAsync hstep)
  | truncateResize id length => exact (htake rfl).same (.fsTruncateResizeCb hkeeps hstep)
  | truncateSync id =>
      obtain rfl := Except.ok.inj hstep
      exact (htake rfl).same (.reply _ id _)
  | close id => exact (htake rfl).same (.fileCloseAsync hstep)
  | closeBlob id =>
      obtain rfl := Except.ok.inj hstep
      exact (htake rfl).same (.reply _ id _)

/-- A step keeps the invariant. -/
theorem step (h : Queue s) {e : FileEvent × Answer} (hkeeps : KeepsAppendPos s e)
    (hstep : FileSteps bs s e s') : Queue s' := by
  obtain ⟨event, a⟩ := e
  obtain ⟨-, hact⟩ := FileState.step_ok hstep
  have hask : Queue s.ask := h.same ((SameQueue.alloc s).trans (.note _ rfl rfl))
  have hsync : ∀ cb, (if a.request then s.ask.fileSync cb a
      else .ok (s.ask.reply s.brk (-ENOMEM))) = .ok s' → Queue s' := by
    intro cb hclose
    split at hclose
    · exact hask.fileSync hclose
    · obtain rfl := Except.ok.inj hclose
      exact hask.same (.reply _ _ _)
  cases event with
  | write offset payload =>
      obtain rfl := Except.ok.inj hact
      refine h.same ?_
      unfold FileState.fileWrite
      split
      · exact SameQueue.then_reply (.alloc s)
      split
      · exact SameQueue.then_reply (.alloc s)
      · exact SameQueue.then_send rfl (.alloc s)
  | read offset length => exact h.same (.fileRead hact)
  | sync => exact hask.fileSync hact
  | closeAsync => exact hsync _ hact
  | close => exact hsync _ hact
  | truncate length =>
      simp only [FileState.act] at hact
      split at hact
      · obtain rfl := Except.ok.inj hact
        exact h.same (SameQueue.then_send rfl (.alloc s))
      · obtain rfl := Except.ok.inj hact
        exact h.same (SameQueue.then_reply (.alloc s))
  | reclaim =>
      obtain rfl := Except.ok.inj hact
      exact h.same (.reclaimCacheBuffers s)
  | free => exact h.same (.fileFree hact)
  | complete i =>
      obtain ⟨w, hw, hperform⟩ := FileState.complete_ok hact
      exact h.complete hw hkeeps hperform

theorem initial (h : s.Initial bs) : Queue s := by
  have hrequests := h.syncRequests
  have hpending := h.pending
  have hnotes := h.notes
  constructor
  all_goals simp [hrequests, hpending, hnotes]

end Queue

/-- In a run in which no position passes 2^64 and no truncate completes below `append_pos`, sync
requests call back in order. -/
theorem syncsInOrder_of_runs {bs : Blobstore} {start s : FileState} (hinitial : start.Initial bs)
    (hrun : Runs (FileSteps bs) KeepsAppendPos start s) : SyncsInOrder s :=
  (hrun.keeps (Queue.initial hinitial) fun h hkeeps hstep => h.step hkeeps hstep).syncsInOrder

/-- One append is synced. -/
theorem syncsInOrder_one : ∃ s : FileState, s.notes.filterMap Note.calledRef = [2] ∧
    SyncsInOrder s := by
  have hwrite : Runs (FileSteps oneMegabyte) KeepsAppendPos loadedByte _ :=
    .tail (e := (.complete 0, success)) (.one (e := (.write 1 [7], success)) trivial rfl)
      (show 1 + 1 < 2 ^ 64 by decide) rfl
  have hsync : Runs (FileSteps oneMegabyte) KeepsAppendPos loadedByte _ :=
    .tail (e := (.complete 1, success)) (.tail (e := (.complete 1, success))
      (.tail (e := (.complete 1, success)) (.tail (e := (.sync, success)) hwrite trivial rfl)
        trivial rfl) trivial rfl) trivial rfl
  exact ⟨_, rfl, syncsInOrder_of_runs loadedByte_initial hsync⟩

/-- Two appends of a byte each, written past the cache.  The truncate of the first completes
after the second, so that `append_pos` falls, and the second of two syncs calls back first. -/
def twoAppends : List FileEvent :=
  [.write 1 [7], .complete 0, .write 2 [8], .complete 1, .complete 0, .complete 0, .sync,
    .complete 0, .complete 1, .sync, .complete 2, .complete 3]

theorem syncsInOrder_twoAppends : ¬ ∀ (bs : Blobstore) (start s : FileState), start.Initial bs →
    Runs (FileSteps bs) (fun _ e => e.1.isTruncate = false) start s →
      SyncsInOrder s := by
  intro hall
  have hrun : (twoAppends.map fun e => (e, success)).foldlM (fun s e =>
      if e.1.isTruncate = false then s.step oneMegabyte e.2 e.1 else .error .noEvent)
      loadedByte = .ok _ := rfl
  have horder := (hall oneMegabyte loadedByte _ loadedByte_initial (Runs.of_events hrun)).inOrder
  exact absurd horder (by decide)

end Nbfs.Cache
