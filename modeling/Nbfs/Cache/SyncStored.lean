import Nbfs.Cache.Cursors
import Nbfs.Cache.Frames
import Nbfs.Cache.SyncQueue

set_option autoImplicit false

/-!
# What a sync has stored

A sync request calls back after the xattr `"length"` was updated for it.  The length that is
stored then covers what was appended before the sync, and goes on to cover it, as long as the
cursors of the file are in order.
-/

namespace Nbfs.Cache

open Nbfs.Lib
open Nbfs.Async (Blobstore Stage ENOMEM)

/-- The cursors follow each other, and what a sync called back for is stored. -/
structure SyncsStored (s : FileState) : Prop where
  inOrder : s.file.lengthXattr ≤ s.file.lengthFlushed ∧ s.file.lengthFlushed ≤ s.file.appendPos
  stored : s.file.lengthXattr ≤ s.blob.xattrLength
  called : ∀ ref offset lengthFlushed, .called ref offset lengthFlushed ∈ s.notes →
    offset ≤ s.blob.xattrLength

/-- A part of a step that stores no length and calls nothing back. -/
structure Apart (s s' : FileState) : Prop where
  requests : s'.file.syncRequests = s.file.syncRequests
  lengthFlushed : s'.file.lengthFlushed = s.file.lengthFlushed
  xattrLength : s'.blob.xattrLength = s.blob.xattrLength
  brk : s.brk ≤ s'.brk
  updates : ∀ ref, .syncXattr ref ∈ s'.pending → .syncXattr ref ∈ s.pending
  called : ∀ ref offset lengthFlushed, .called ref offset lengthFlushed ∈ s'.notes →
    .called ref offset lengthFlushed ∈ s.notes

namespace Apart

variable {s s' s'' : FileState} {bs : Blobstore} {a : Answer} {w : Work} {id : Nat}

theorem refl (s : FileState) : Apart s s :=
  ⟨rfl, rfl, rfl, Nat.le_refl _, fun _ h => h, fun _ _ _ h => h⟩

theorem trans (h : Apart s s') (h' : Apart s' s'') : Apart s s'' where
  requests := h'.requests.trans h.requests
  lengthFlushed := h'.lengthFlushed.trans h.lengthFlushed
  xattrLength := h'.xattrLength.trans h.xattrLength
  brk := h.brk.trans h'.brk
  updates := fun ref hmem => h.updates ref (h'.updates ref hmem)
  called := fun ref offset n hmem => h.called ref offset n (h'.called ref offset n hmem)

theorem fields (hrequests : s'.file.syncRequests = s.file.syncRequests)
    (hflushed : s'.file.lengthFlushed = s.file.lengthFlushed)
    (hxattr : s'.blob.xattrLength = s.blob.xattrLength) (hbrk : s.brk ≤ s'.brk)
    (hpending : s'.pending = s.pending) (hnotes : s'.notes = s.notes) : Apart s s' :=
  ⟨hrequests, hflushed, hxattr, hbrk, fun _ hmem => hpending ▸ hmem, fun _ _ _ hmem => hnotes ▸ hmem⟩

theorem send (s : FileState) (hw : ∀ ref, w ≠ .syncXattr ref) : Apart s (s.send w) :=
  { refl s with
    updates := fun ref hmem => (List.mem_append.mp hmem).resolve_right fun hnew =>
      hw ref (List.mem_singleton.mp hnew).symm }

theorem take (s : FileState) (i : Nat) : Apart s (s.take i) :=
  { refl s with
    updates := fun _ => mem_of_taken }

/-- Notes of no call back. -/
theorem noted {l : List Note} (hnotes : s'.notes = s.notes ++ l)
    (hl : ∀ ref offset n, .called ref offset n ∉ l) (hrest : Apart s { s' with notes := s.notes }) :
    Apart s s' :=
  { hrest with
    called := fun ref offset n hmem =>
      (List.mem_append.mp (hnotes ▸ hmem)).resolve_right (hl ref offset n) }

theorem note {n : Note} (s : FileState) (hn : ∀ ref offset m, n ≠ .called ref offset m) :
    Apart s (s.note n) :=
  noted rfl (fun ref offset m hmem => hn ref offset m (List.mem_singleton.mp hmem).symm) (refl s)

theorem reply (s : FileState) (id : Nat) (rc : Int) : Apart s (s.reply id rc) :=
  note s fun _ _ _ heq => by cases heq

theorem alloc (s : FileState) : Apart s s.alloc := fields rfl rfl rfl (Nat.le_succ _) rfl rfl

theorem ask (s : FileState) : Apart s s.ask :=
  (alloc s).trans (note s.alloc fun _ _ _ heq => by cases heq)

theorem then_send (h : Apart s s') (hw : ∀ ref, w ≠ .syncXattr ref) : Apart s (s'.send w) :=
  h.trans (send s' hw)

theorem then_reply {rc : Int} (h : Apart s s') : Apart s (s'.reply id rc) :=
  h.trans (reply s' id rc)

theorem blobOp (hw : ∀ ref, w ≠ .syncXattr ref) (h : s.blobOp w = .ok s') : Apart s s' := by
  obtain ⟨-, rfl⟩ := FileState.blobOp_ok h
  exact send s hw

/-! ### Parts of steps -/

theorem fileCloseAsync (h : s.fileCloseAsync id = .ok s') : Apart s s' := by
  rcases FileState.fileCloseAsync_ok h with rfl | rfl | rfl
  · exact reply s id _
  · exact then_reply (fields rfl rfl rfl (Nat.le_refl _) rfl rfl)
  · exact then_send (fields rfl rfl rfl (Nat.le_refl _) rfl rfl) (by simp)

theorem callSyncCb {rc : Int} {cb : SyncCb} (h : s.callSyncCb rc cb = .ok s') : Apart s s' := by
  cases cb with
  | client id =>
      obtain rfl := Except.ok.inj h
      exact reply s id rc
  | closeAsync id => exact fileCloseAsync h
  | close id =>
      obtain rfl := Except.ok.inj h
      exact send s (by simp)

theorem cacheAppendBuffer {ok : Bool} {r : Option BufRef}
    (h : s.cacheAppendBuffer ok = .ok (r, s')) : Apart s s' := by
  rcases (FileState.cacheAppendBuffer_ok h).2.2 with ⟨-, rfl⟩ | ⟨-, -, -, rfl⟩
  · exact refl _
  · exact fields rfl rfl rfl (Nat.le_succ _) rfl rfl

theorem openLast (h : s.openLast a = .ok s') : Apart s s' := by
  have hopened : Apart s s.opened := fields rfl rfl rfl (Nat.le_refl _) rfl rfl
  rcases FileState.openLast_ok h with ⟨rfl, -⟩ | ⟨-, -, r, happend⟩
  · exact hopened
  · exact hopened.trans (cacheAppendBuffer happend)

theorem startFill {payload : List UInt8} (h : s.startFill id payload a = .ok s') : Apart s s' := by
  rcases FileState.startFill_ok h with rfl | ⟨last, -, rfl⟩
  · exact reply s id _
  · exact send s (by simp)

theorem append {offset : Nat} {payload : List UInt8}
    (h : s.append bs id offset payload a = .ok s') : Apart s s' := by
  obtain ⟨s₁, hopen, hrest⟩ := FileState.append_ok h
  have hpast : Apart s₁ (s₁.appendedPast payload.length) :=
    fields rfl rfl rfl (Nat.le_refl _) rfl rfl
  refine (openLast hopen).trans ?_
  rcases hrest with ⟨-, rfl | rfl⟩ | ⟨-, -, ⟨-, rfl⟩ | ⟨-, hfill⟩⟩
  · exact then_send hpast (by simp)
  · exact then_reply hpast
  · exact send _ (by simp)
  · exact startFill hfill

theorem fillRound {b : BufRef} {payload : List UInt8} {filled : Nat}
    (h : s.fillRound id b payload filled a = .ok s') : Apart s s' := by
  obtain ⟨last, -, hround⟩ := FileState.fillRound_ok h
  have hcopied : Apart s (s.copied b last payload) := fields rfl rfl rfl (Nat.le_refl _) rfl rfl
  rcases hround with ⟨-, rfl⟩ | ⟨-, r, s₁, happend, ⟨c, -, rfl⟩ | ⟨-, rfl⟩⟩
  · exact then_send hcopied (by simp)
  · exact then_send (hcopied.trans (cacheAppendBuffer happend)) (by simp)
  · exact then_reply (hcopied.trans (cacheAppendBuffer happend))

theorem endFill (s : FileState) (id filled : Nat) : Apart s (s.endFill id filled) := by
  unfold FileState.endFill
  split
  · exact reply s id 0
  · exact then_send (reply s id 0) (by simp)

theorem rwStage {op : Option Nat} {stage : Stage} (h : s.rwStage op stage = .ok s') :
    Apart s s' := by
  rcases FileState.rwStage_ok h with ⟨rc, iov, -, ⟨-, rfl⟩ | ⟨id, -, rfl⟩⟩ | ⟨-, -, rfl⟩
  · exact refl _
  · exact reply s id rc
  · exact send s (by simp)

theorem checkReadahead {offset : Nat} {ok : Bool} (h : s.checkReadahead offset ok = .ok s') :
    Apart s s' := by
  rcases FileState.checkReadahead_ok h with rfl | ⟨-, -, -, rfl⟩
  · exact refl _
  · exact then_send (fields rfl rfl rfl (Nat.le_succ _) rfl rfl) (by simp)

theorem fileRead {offset length : Nat} (h : s.fileRead offset length a = .ok s') : Apart s s' := by
  rcases FileState.fileRead_ok h with rfl | ⟨n, s₁, -, haheads, rfl⟩
  · exact fields rfl rfl rfl (Nat.le_refl _) rfl rfl
  · have hseq : Apart s (s.sequential offset n) := fields rfl rfl rfl (Nat.le_refl _) rfl rfl
    refine then_send (hseq.trans ?_) (by simp)
    rcases FileState.checkReadaheads_ok haheads with rfl | ⟨-, s₂, hfirst, hsecond⟩
    · exact refl _
    · exact (checkReadahead hfirst).trans (checkReadahead hsecond)

theorem removeBuffer (s : FileState) (b : BufRef) (buffer : CacheBuffer) :
    Apart s (s.removeBuffer b buffer) :=
  noted rfl (by simp) (fields rfl rfl rfl (Nat.le_refl _) rfl rfl)

theorem readRound {offset finalOffset : Nat} (h : s.readRound offset finalOffset a = .ok s') :
    Apart s s' := by
  have hnext : ∀ ref, FileState.nextRound offset finalOffset ≠ .syncXattr ref := by
    simp [FileState.nextRound]
  rcases FileState.readRound_ok h with rfl | ⟨-, rfl⟩ | ⟨b, buffer, -, -, -, ⟨-, rfl⟩ | ⟨-, rfl⟩⟩
  · exact refl _
  · exact then_send (send s (by simp)) hnext
  · exact then_send (removeBuffer s b buffer) hnext
  · exact send s hnext

theorem treeFreeBuffers (s : FileState) : Apart s s.treeFreeBuffers := by
  refine noted rfl (fun ref offset n hmem => ?_) (fields rfl rfl rfl (Nat.le_refl _) rfl rfl)
  obtain ⟨b, -, hb⟩ := List.mem_filterMap.mp hmem
  obtain ⟨buffer, -, heq⟩ := Option.map_eq_some_iff.mp hb
  cases heq

theorem reclaimCacheBuffers (s : FileState) : Apart s s.reclaimCacheBuffers := by
  unfold FileState.reclaimCacheBuffers
  split
  · exact refl s
  dsimp only
  split
  · exact (treeFreeBuffers s).trans (fields rfl rfl rfl (Nat.le_refl _) rfl rfl)
  · exact treeFreeBuffers s

theorem fileFree (h : s.fileFree = .ok s') : Apart s s' := by
  unfold FileState.fileFree at h
  split at h
  · obtain rfl := Except.ok.inj h
    exact fields rfl rfl rfl (Nat.le_refl _) rfl rfl
  dsimp only at h
  split at h
  · obtain rfl := Except.ok.inj h
    exact (treeFreeBuffers s).trans (fields rfl rfl rfl (Nat.le_refl _) rfl rfl)
  · cases h

theorem fileWrite (s : FileState) (offset : Nat) (payload : List UInt8) :
    Apart s (s.fileWrite offset payload) := by
  unfold FileState.fileWrite
  split
  · exact then_reply (alloc s)
  split
  · exact then_reply (alloc s)
  · exact then_send (alloc s) (by simp)

theorem fileTruncateAsync {length : Nat} (h : s.fileTruncateAsync id length a = .ok s') :
    Apart s s' := by
  rcases FileState.fileTruncateAsync_ok h with ⟨-, rfl⟩ | rfl | rfl
  · exact reply s id 0
  · exact reply s id _
  · exact send s (by simp)

theorem flushed {b : BufRef} {next : CacheBuffer} {offset length : Nat}
    (h : s.flushed bs b next offset length a = .ok s') : Apart s s' := by
  rcases FileState.flushed_ok h with ⟨-, rfl⟩ | ⟨-, -, rfl⟩
  all_goals
    refine (note (n := .wrote offset length a.bserrno) s fun _ _ _ heq => by cases heq).trans ?_
    exact fields rfl rfl rfl (Nat.le_refl _) rfl rfl

end Apart

/-- Work that stores no length, moves no cursor of what is flushed and calls no sync back. -/
def Work.Aside : Work → Prop
  | flush | flushWrite .. | check _ | syncXattr _ | rw .. | truncateResize .. => False
  | _ => True

theorem Apart.perform {s s' : FileState} {bs : Blobstore} {a : Answer} {w : Work}
    (hstep : s.perform bs a w = .ok s') (hw : w.Aside) : Apart s s' := by
  cases w with
  | append id offset payload => exact .append hstep
  | extend id numClusters payload => exact .blobOp (by simp) hstep
  | extendResize id numClusters payload =>
      simp only [FileState.perform] at hstep
      split at hstep
      · obtain rfl := Except.ok.inj hstep
        exact .reply s id _
      · obtain ⟨-, rfl⟩ := FileState.blobOp_ok hstep
        exact .then_send (.fields rfl rfl rfl (Nat.le_refl _) rfl rfl) (by simp)
  | extendSync id payload =>
      simp only [FileState.perform] at hstep
      split at hstep
      all_goals obtain rfl := Except.ok.inj hstep
      · exact .reply s id _
      · exact .send s (by simp)
  | startFill id payload => exact .startFill hstep
  | fill id b payload filled =>
      simp only [FileState.perform] at hstep
      split at hstep
      · obtain rfl := Except.ok.inj hstep
        exact .endFill s id filled
      · exact .fillRound hstep
  | rwFromFile id call => exact .rwStage hstep
  | readahead b length =>
      obtain rfl := Frame.readahead hstep
      exact .send s (by simp)
  | readaheadRead b length =>
      obtain ⟨buffer, -, hstep⟩ := bind_ok.mp hstep
      obtain ⟨s₁, hread, hret⟩ := bind_ok.mp hstep
      obtain rfl := Except.ok.inj hret
      obtain ⟨image, rfl, -⟩ := FileState.readAhead_ok hread
      exact .fields rfl rfl rfl (Nat.le_refl _) rfl rfl
  | readLoop offset finalOffset => exact .readRound hstep
  | truncate id length => exact .fileTruncateAsync hstep
  | truncateSync id =>
      obtain rfl := Except.ok.inj hstep
      exact .reply s id _
  | close id => exact .fileCloseAsync hstep
  | closeBlob id =>
      obtain rfl := Except.ok.inj hstep
      exact .reply s id _
  | _ => exact hw.elim

/-- The requests whose update is in flight are marked so, with a length that covers them, and
what was called back for is flushed and stored. -/
structure Covered (s : FileState) : Prop where
  fresh : ∀ r ∈ s.file.syncRequests, r.ref < s.brk
  started : ∀ r ∈ s.file.syncRequests, r.xattrInProgress = true → r.offset ≤ r.length
  updates : ∀ ref, .syncXattr ref ∈ s.pending → ref < s.brk ∧
    ∀ r ∈ s.file.syncRequests, r.ref = ref → r.xattrInProgress = true
  called : ∀ ref offset lengthFlushed, .called ref offset lengthFlushed ∈ s.notes →
    offset ≤ s.file.lengthFlushed ∧ offset ≤ s.blob.xattrLength

namespace Covered

variable {s s' : FileState} {bs : Blobstore} {a : Answer} {w : Work} {id : Nat}

/-- The cursor goes forward, and a length that is stored has what was flushed. -/
theorem next (h : Covered s) (hrequests : s'.file.syncRequests = s.file.syncRequests)
    (hforward : s.file.lengthFlushed ≤ s'.file.lengthFlushed)
    (hxattr : s'.blob.xattrLength = s.blob.xattrLength ∨
      s.file.lengthFlushed ≤ s'.blob.xattrLength) (hbrk : s.brk ≤ s'.brk)
    (hupdates : ∀ ref, .syncXattr ref ∈ s'.pending → .syncXattr ref ∈ s.pending)
    (hcalled : ∀ ref offset n, .called ref offset n ∈ s'.notes → .called ref offset n ∈ s.notes) :
    Covered s' where
  fresh := by
    rw [hrequests]
    exact fun r hr => (h.fresh r hr).trans_le hbrk
  started := hrequests ▸ h.started
  updates := by
    intro ref hmem
    obtain ⟨hlt, hin⟩ := h.updates ref (hupdates ref hmem)
    exact ⟨hlt.trans_le hbrk, hrequests ▸ hin⟩
  called := by
    intro ref offset n hmem
    obtain ⟨hflushed, hstored⟩ := h.called ref offset n (hcalled ref offset n hmem)
    refine ⟨hflushed.trans hforward, ?_⟩
    rcases hxattr with heq | hpast
    · exact heq ▸ hstored
    · exact hflushed.trans hpast

theorem apart (h : Covered s) (hs : Apart s s') : Covered s' :=
  h.next hs.requests (Nat.le_of_eq hs.lengthFlushed.symm) (Or.inl hs.xattrLength) hs.brk hs.updates
    hs.called

/-! ### Syncs -/

/-- An update is started with the length that is flushed. -/
theorem checkSyncReqs (h : Covered s) (hstep : s.checkSyncReqs = .ok s') : Covered s' := by
  rcases FileState.checkSyncReqs_ok hstep with rfl | ⟨r, hfind, -, -, rfl⟩
  · exact h
  have hr := List.mem_of_find?_eq_some hfind
  have hreached : r.offset ≤ s.file.lengthFlushed :=
    of_decide_eq_true (List.find?_some hfind :)
  have hstarted : ∀ q ∈ s.file.syncRequests.map (fun q : SyncRequest => if q.ref = r.ref then
      { r with xattrInProgress := true, length := s.file.lengthFlushed } else q),
      q.ref = r.ref ∧ q.xattrInProgress = true ∧ q.offset ≤ q.length ∨
        q.ref ≠ r.ref ∧ q ∈ s.file.syncRequests := by
    intro q hq
    obtain ⟨q', hq', rfl⟩ := List.mem_map.mp hq
    split
    · exact Or.inl ⟨rfl, rfl, hreached⟩
    · exact Or.inr ⟨‹_›, hq'⟩
  exact {
    fresh := by
      intro q hq
      rcases hstarted q hq with ⟨href, -⟩ | ⟨-, hq⟩
      · exact href ▸ h.fresh r hr
      · exact h.fresh q hq
    started := by
      intro q hq hin
      rcases hstarted q hq with ⟨-, -, hle⟩ | ⟨-, hq⟩
      · exact hle
      · exact h.started q hq hin
    updates := by
      intro ref hmem
      rcases List.mem_append.mp hmem with hold | hlast
      · refine ⟨(h.updates ref hold).1, fun q hq href => ?_⟩
        rcases hstarted q hq with ⟨-, hin, -⟩ | ⟨-, hq⟩
        · exact hin
        · exact (h.updates ref hold).2 q hq href
      · cases List.mem_singleton.mp hlast
        refine ⟨h.fresh r hr, fun q hq href => ?_⟩
        rcases hstarted q hq with ⟨-, hin, -⟩ | ⟨hne, -⟩
        · exact hin
        · exact absurd href hne
    called := fun ref offset n hmem =>
      ⟨(h.called ref offset n hmem).1, (h.called ref offset n hmem).1⟩ }

/-- A request calls back after its update. -/
theorem fileCacheFinishSync (h : Covered s) (hcursors : Cursors s) {ref : Nat} {bserrno : Int}
    (hin : ∀ r ∈ s.file.syncRequests, r.ref = ref → r.xattrInProgress = true)
    (hstep : s.fileCacheFinishSync ref bserrno = .ok s') : Covered s' := by
  obtain ⟨r, hfind, hreached, s₁, hcb, rfl⟩ := FileState.fileCacheFinishSync_ok hstep
  have hr := List.mem_of_find?_eq_some hfind
  have href : r.ref = ref := of_decide_eq_true (List.find?_some hfind :)
  have hlength : r.length ≤ s.blob.xattrLength :=
    (hcursors.stored r.length (List.mem_cons_of_mem _ (List.mem_map_of_mem hr))).2
  have hcovers : r.offset ≤ r.length := h.started r hr (hin r hr href)
  refine apart ?_ (Apart.then_send (Apart.callSyncCb hcb) (by simp))
  exact {
    fresh := fun q hq => h.fresh q (List.mem_filter.mp hq).1
    started := fun q hq => h.started q (List.mem_filter.mp hq).1
    updates := fun ref' hmem =>
      ⟨(h.updates ref' hmem).1, fun q hq => (h.updates ref' hmem).2 q (List.mem_filter.mp hq).1⟩
    called := by
      intro ref' offset n hmem
      rcases FileState.mem_note hmem with hold | hnew
      · exact h.called ref' offset n hold
      · cases hnew
        exact ⟨hreached, hcovers.trans hlength⟩ }

theorem enqueued (h : Covered s) (cb : SyncCb) : Covered (s.enqueued cb) where
  fresh := by
    intro r hr
    rcases List.mem_append.mp hr with hold | hnew
    · exact Nat.lt_succ_of_lt (h.fresh r hold)
    · rw [List.mem_singleton.mp hnew]
      exact Nat.lt_succ_self _
  started := by
    intro r hr hin
    rcases List.mem_append.mp hr with hold | hnew
    · exact h.started r hold hin
    · rw [List.mem_singleton.mp hnew] at hin
      cases hin
  updates := by
    intro ref hmem
    have hold : .syncXattr ref ∈ s.pending :=
      (List.mem_append.mp hmem).resolve_right fun hnew => by cases List.mem_singleton.mp hnew
    obtain ⟨hlt, hin⟩ := h.updates ref hold
    refine ⟨Nat.lt_succ_of_lt hlt, fun r hr href => ?_⟩
    rcases List.mem_append.mp hr with hr | hnew
    · exact hin r hr href
    · rw [List.mem_singleton.mp hnew] at href
      exact absurd href (Nat.ne_of_gt hlt)
  called := by
    intro ref offset n hmem
    refine h.called ref offset n ((FileState.mem_note hmem).resolve_right fun hnew => ?_)
    cases hnew

theorem fileSync (h : Covered s) {cb : SyncCb} (hstep : s.fileSync cb a = .ok s') :
    Covered s' := by
  rcases FileState.fileSync_ok hstep with ⟨-, hcb⟩ | hcb | ⟨-, rfl⟩
  · exact h.apart (.callSyncCb hcb)
  · exact h.apart (.callSyncCb hcb)
  · exact h.enqueued cb

/-! ### Flushes and truncates -/

theorem fileFlush (h : Covered s) (hcursors : Cursors s) (hstep : s.fileFlush = .ok s') :
    Covered s' := by
  rcases FileState.fileFlush_ok hstep with
    ⟨-, rfl⟩ | ⟨b, next, -, -, ⟨rfl, -⟩ | ⟨rfl, -⟩ | ⟨-, -, -, rfl⟩⟩
  · refine apart ?_ (.send _ (by simp))
    exact h.next rfl hcursors.flushed (Or.inl rfl) (Nat.le_refl _) (fun _ hmem => hmem)
      fun _ _ _ hmem => hmem
  · exact h
  · exact h.apart (.send s (by simp))
  · exact h.apart (.then_send (.fields rfl rfl rfl (Nat.le_refl _) rfl rfl) (by simp))

theorem flushWrite (h : Covered s) {b : BufRef} {next : CacheBuffer} {offset length : Nat}
    (hlt : s.file.lengthFlushed + length < 2 ^ 64) {s₁ : FileState}
    (hwrite : s.flushed bs b next offset length a = .ok s₁)
    (hdone : s₁.fileFlushDone bs b next length = .ok s') : Covered s' := by
  obtain rfl := FileState.fileFlushDone_ok hdone
  have hflushed := Apart.flushed hwrite
  refine apart (s := s₁.flushDone b next length) ?_ (.send _ (by simp))
  refine (h.apart hflushed).next rfl ?_ (Or.inl rfl) (Nat.le_refl _) (fun _ hmem => hmem)
    fun _ _ _ hmem => hmem
  change s₁.file.lengthFlushed ≤ (s₁.file.lengthFlushed + length) % 2 ^ 64
  rw [hflushed.lengthFlushed, Nat.mod_eq_of_lt hlt]
  exact Nat.le_add_right _ _

/-- A truncate stores a length that has what was flushed. -/
theorem cut (h : Covered s) (hrequests : s'.file.syncRequests = s.file.syncRequests)
    (hflushed : s'.file.lengthFlushed = s.file.lengthFlushed)
    (hxattr : s.file.lengthFlushed ≤ s'.blob.xattrLength) (hbrk : s'.brk = s.brk)
    (hpending : s'.pending = s.pending) (hnotes : s'.notes = s.notes) : Covered s' :=
  h.next hrequests (Nat.le_of_eq hflushed.symm) (Or.inr hxattr) (Nat.le_of_eq hbrk.symm)
    (fun _ hmem => hpending ▸ hmem) fun _ _ _ hmem => hnotes ▸ hmem

theorem fsTruncateResizeCb (h : Covered s) {length : Nat}
    (hkeeps : a.bserrno = 0 → s.file.lengthFlushed ≤ length ∧ length < 2 ^ 64)
    (hstep : s.fsTruncateResizeCb bs id length a = .ok s') : Covered s' := by
  rcases FileState.fsTruncateResizeCb_ok hstep with ⟨-, rfl⟩ | ⟨hzero, rfl⟩
  · exact h.apart (.reply s id _)
  · have hcut : Covered (s.truncated bs length a.contents) :=
      h.cut rfl rfl (hkeeps hzero).1 rfl rfl rfl
    exact hcut.apart (.send _ (by simp))

theorem rwComplete (h : Covered s) {op : Option Nat} {stage : Stage}
    (hkeeps : ∀ length rw, stage = .resize length rw → a.bserrno = 0 →
      s.file.lengthFlushed ≤ length ∧ length < 2 ^ 64)
    (hstep : s.rwComplete bs op stage a = .ok s') : Covered s' := by
  obtain ⟨t, hasync, hstage⟩ := FileState.rwComplete_ok hstep
  refine apart (s := s.setAsyncFile t.file) ?_ (.rwStage hstage)
  rcases FileState.asyncStep_ok rfl hasync with
    ⟨-, -, hxattr, -⟩ | ⟨length, rw, heq, hzero, -, -, hxattr⟩
  · exact h.apart (.fields rfl rfl hxattr (Nat.le_refl _) rfl rfl)
  · exact h.cut rfl rfl (hxattr ▸ (hkeeps length rw heq hzero).1) rfl rfl rfl

/-! ### Runs -/

theorem complete (h : Covered s) (hcursors : Cursors s) {i : Nat} (hw : s.pending[i]? = some w)
    (hkeeps : KeepsCursors s (.complete i, a)) (hstep : (s.take i).perform bs a w = .ok s') :
    Covered s' := by
  replace hkeeps := hkeeps w hw
  have htake : Covered (s.take i) := h.apart (.take s i)
  have hcursors' : Cursors (s.take i) := hcursors.fields rfl rfl rfl rfl
  cases w with
  | rw id stage =>
      refine htake.rwComplete (fun length rw hstage => ?_) hstep
      subst hstage
      exact hkeeps
  | flush => exact htake.fileFlush hcursors' hstep
  | flushWrite b offset length =>
      obtain ⟨next, -, hstep⟩ := bind_ok.mp hstep
      obtain ⟨s₁, hwrite, hdone⟩ := bind_ok.mp hstep
      exact htake.flushWrite (hkeeps.trans_lt hcursors.appendPos_lt) hwrite hdone
  | check thenFlush =>
      obtain ⟨s₁, hcheck, hret⟩ := bind_ok.mp hstep
      obtain rfl := Except.ok.inj hret
      have hchecked := htake.checkSyncReqs hcheck
      split
      · exact hchecked.apart (.send s₁ (by simp))
      · exact hchecked
  | syncXattr ref =>
      exact htake.fileCacheFinishSync hcursors' (h.updates ref (mem_taken hw)).2 hstep
  | truncateResize id length => exact htake.fsTruncateResizeCb hkeeps hstep
  | _ => exact htake.apart (Apart.perform hstep trivial)

/-- A step keeps what is stored. -/
theorem step (h : Covered s) (hcursors : Cursors s) {e : FileEvent × Answer}
    (hkeeps : KeepsCursors s e) (hstep : FileSteps bs s e s') : Covered s' := by
  obtain ⟨event, a⟩ := e
  obtain ⟨-, hact⟩ := FileState.step_ok hstep
  have hask : Covered s.ask := h.apart (.ask s)
  have hclose : ∀ cb, (if a.request then s.ask.fileSync cb a
      else .ok (s.ask.reply s.brk (-ENOMEM))) = .ok s' → Covered s' := by
    intro cb hclose
    split at hclose
    · exact hask.fileSync hclose
    · obtain rfl := Except.ok.inj hclose
      exact hask.apart (.reply _ _ _)
  cases event with
  | write offset payload =>
      obtain rfl := Except.ok.inj hact
      exact h.apart (.fileWrite s offset payload)
  | read offset length => exact h.apart (.fileRead hact)
  | sync => exact hask.fileSync hact
  | closeAsync => exact hclose _ hact
  | close => exact hclose _ hact
  | truncate length =>
      simp only [FileState.act] at hact
      split at hact
      all_goals obtain rfl := Except.ok.inj hact
      · exact h.apart (.then_send (.alloc s) (by simp))
      · exact h.apart (.then_reply (.alloc s))
  | reclaim =>
      obtain rfl := Except.ok.inj hact
      exact h.apart (.reclaimCacheBuffers s)
  | free => exact h.apart (.fileFree hact)
  | complete i =>
      obtain ⟨w, hw, hperform⟩ := FileState.complete_ok hact
      exact h.complete hcursors hw hkeeps hperform

theorem initial (h : s.Initial bs) : Covered s where
  fresh := by simp [h.syncRequests]
  started := by simp [h.syncRequests]
  updates := by simp [h.pending]
  called := by simp [h.notes]

end Covered

/-- In a run in which no position passes 2^64, no truncate cuts what is flushed and no flush goes
past `append_pos`, the cursors follow each other, and what a sync called back for is stored. -/
theorem syncsStored_of_runs {bs : Blobstore} {start s : FileState} (hinitial : start.Initial bs)
    (hrun : Runs (FileSteps bs) KeepsCursors start s) : SyncsStored s := by
  have hinv : Cursors s ∧ Covered s :=
    Runs.keeps (P := fun s => Cursors s ∧ Covered s) hrun
      ⟨Cursors.initial hinitial, Covered.initial hinitial⟩ fun h hkeeps hstep =>
        ⟨h.1.step hkeeps hstep, h.2.step h.1 hkeeps hstep⟩
  obtain ⟨hflushed, hstored⟩ := hinv.1.lengthXattr_le
  exact ⟨⟨hflushed, hinv.1.flushed⟩, hstored, fun ref offset n hmem =>
    (hinv.2.called ref offset n hmem).2⟩

/-- A byte is appended past the cache and synced. -/
theorem syncsStored_of_runs_one : ∃ s : FileState, s.notes.filterMap Note.calledRef = [2] ∧
    s.blob.xattrLength = 2 ∧ SyncsStored s := by
  have hwrite : Runs (FileSteps oneMegabyte) KeepsCursors loadedByte _ :=
    .tail (e := (.complete 0, success)) (.one (e := (.write 1 [7], success))
      (fun w hw => by cases hw) rfl) (fun w hw => by cases hw; decide) rfl
  have hsync : Runs (FileSteps oneMegabyte) KeepsCursors loadedByte _ :=
    .tail (e := (.complete 1, success)) (.tail (e := (.complete 1, success))
      (.tail (e := (.complete 1, success)) (.tail (e := (.sync, success)) hwrite
        (fun w hw => by cases hw) rfl) (fun w hw => by cases hw; trivial) rfl)
        (fun w hw => by cases hw; trivial) rfl) (fun w hw => by cases hw; trivial) rfl
  exact ⟨_, rfl, rfl, syncsStored_of_runs loadedByte_initial hsync⟩

end Nbfs.Cache
