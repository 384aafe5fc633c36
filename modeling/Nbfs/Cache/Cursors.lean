import Nbfs.Cache.FileSpecs

set_option autoImplicit false

/-!
# The cursors of a file

What is stored of a file is flushed before, and what is flushed was appended before:
`length_xattr`, `length_flushed` and `append_pos` follow each other, unless a truncate cuts
below the first two or a flush counts bytes that `length_flushed` had passed already.
-/

namespace Nbfs.Cache

open Nbfs.Lib
open Nbfs.Async (Blobstore Stage ENOMEM)

/-- No position passes 2^64, a truncate, of a caller or of a direct write, completes at or past
`length_flushed`, and a flush does not take it past `append_pos`. -/
def KeepsCursors (s : FileState) (e : FileEvent × Answer) : Prop :=
  ∀ w ∈ s.completed e.1,
    match w with
    | .append _ _ payload | .fill _ _ payload _ => s.file.appendPos + payload.length < 2 ^ 64
    | .flushWrite _ _ length => s.file.lengthFlushed + length ≤ s.file.appendPos
    | .rw _ (.resize length _) | .truncateResize _ length =>
        e.2.bserrno = 0 → s.file.lengthFlushed ≤ length ∧ length < 2 ^ 64
    | _ => True

/-- The lengths that are stored, or are being stored. -/
def FileState.storedLengths (s : FileState) : List Nat :=
  s.file.lengthXattr :: s.file.syncRequests.map SyncRequest.length

/-- The cursors follow each other. -/
structure Cursors (s : FileState) : Prop where
  appendPos_lt : s.file.appendPos < 2 ^ 64
  flushed : s.file.lengthFlushed ≤ s.file.appendPos
  stored : ∀ length ∈ s.storedLengths,
    length ≤ s.file.lengthFlushed ∧ length ≤ s.blob.xattrLength

theorem Cursors.lengthXattr_le {s : FileState} (h : Cursors s) :
    s.file.lengthXattr ≤ s.file.lengthFlushed ∧ s.file.lengthXattr ≤ s.blob.xattrLength :=
  h.stored _ List.mem_cons_self

namespace Cursors

variable {bs : Blobstore} {s s' : FileState} {a : Answer} {w : Work} {id : Nat}

/-- The cursors stay, or go forward; lengths that are stored were stored, or are flushed. -/
theorem next (h : Cursors s) (hlt : s'.file.appendPos < 2 ^ 64)
    (hflushed : s'.file.lengthFlushed ≤ s'.file.appendPos)
    (hforward : s.file.lengthFlushed ≤ s'.file.lengthFlushed)
    (hxattr : s'.blob.xattrLength = s.blob.xattrLength ∨ s.file.lengthFlushed ≤ s'.blob.xattrLength)
    (hlengths : ∀ length ∈ s'.storedLengths, length ∈ s.storedLengths ∨
      length ≤ s'.file.lengthFlushed ∧ length ≤ s'.blob.xattrLength) : Cursors s' where
  appendPos_lt := hlt
  flushed := hflushed
  stored := by
    intro length hmem
    rcases hlengths length hmem with hold | hnew
    · obtain ⟨hle, hstored⟩ := h.stored length hold
      refine ⟨hle.trans hforward, ?_⟩
      rcases hxattr with heq | hpast
      · exact heq ▸ hstored
      · exact hle.trans hpast
    · exact hnew

/-- Other fields change. -/
theorem fields (h : Cursors s) (happend : s'.file.appendPos = s.file.appendPos)
    (hflushed : s'.file.lengthFlushed = s.file.lengthFlushed)
    (hxattr : s'.blob.xattrLength = s.blob.xattrLength)
    (hlengths : s'.storedLengths = s.storedLengths) : Cursors s' :=
  h.next (happend ▸ h.appendPos_lt) (by rw [hflushed, happend]; exact h.flushed)
    (Nat.le_of_eq hflushed.symm) (Or.inl hxattr) fun _ hmem => Or.inl (hlengths ▸ hmem)

theorem send (h : Cursors s) : Cursors (s.send w) := h.fields rfl rfl rfl rfl

theorem note {n : Note} (h : Cursors s) : Cursors (s.note n) := h.fields rfl rfl rfl rfl

theorem blobOp (h : Cursors s) (hstep : s.blobOp w = .ok s') : Cursors s' := by
  obtain ⟨-, rfl⟩ := FileState.blobOp_ok hstep
  exact h.send

/-- Bytes are appended. -/
theorem append_forward (h : Cursors s) {n : Nat} (hn : s.file.appendPos + n < 2 ^ 64)
    (happend : s'.file.appendPos = (s.file.appendPos + n) % 2 ^ 64)
    (hflushed : s'.file.lengthFlushed = s.file.lengthFlushed)
    (hxattr : s'.blob.xattrLength = s.blob.xattrLength)
    (hlengths : s'.storedLengths = s.storedLengths) : Cursors s' := by
  rw [Nat.mod_eq_of_lt hn] at happend
  refine h.next (happend ▸ hn) ?_ (Nat.le_of_eq hflushed.symm) (Or.inl hxattr) fun _ hmem =>
    Or.inl (hlengths ▸ hmem)
  rw [hflushed, happend]
  exact h.flushed.trans (Nat.le_add_right _ _)

/-! ### Syncs -/

theorem fileCloseAsync (h : Cursors s) (hstep : s.fileCloseAsync id = .ok s') : Cursors s' := by
  rcases FileState.fileCloseAsync_ok hstep with rfl | rfl | rfl
  all_goals exact h.fields rfl rfl rfl rfl

theorem callSyncCb (h : Cursors s) {rc : Int} {cb : SyncCb} (hstep : s.callSyncCb rc cb = .ok s') :
    Cursors s' := by
  cases cb with
  | closeAsync id => exact h.fileCloseAsync hstep
  | client id =>
      obtain rfl := Except.ok.inj hstep
      exact h.note
  | close id =>
      obtain rfl := Except.ok.inj hstep
      exact h.send

theorem checkSyncReqs (h : Cursors s) (hstep : s.checkSyncReqs = .ok s') : Cursors s' := by
  rcases FileState.checkSyncReqs_ok hstep with rfl | ⟨r, -, -, -, rfl⟩
  · exact h
  refine send (h.next h.appendPos_lt h.flushed (Nat.le_refl _) (Or.inr (Nat.le_refl _)) ?_)
  intro length hmem
  rcases List.mem_cons.mp hmem with rfl | hmem
  · exact Or.inl List.mem_cons_self
  obtain ⟨q, hq, rfl⟩ := List.mem_map.mp hmem
  obtain ⟨q', hq', rfl⟩ := List.mem_map.mp hq
  split
  · exact Or.inr ⟨Nat.le_refl _, Nat.le_refl _⟩
  · exact Or.inl (List.mem_cons_of_mem _ (List.mem_map.mpr ⟨q', hq', rfl⟩))

theorem fileCacheFinishSync (h : Cursors s) {ref : Nat} {bserrno : Int}
    (hstep : s.fileCacheFinishSync ref bserrno = .ok s') : Cursors s' := by
  obtain ⟨r, hfind, -, s₁, hcb, rfl⟩ := FileState.fileCacheFinishSync_ok hstep
  refine send (callSyncCb (note ?_) hcb)
  refine h.next h.appendPos_lt h.flushed (Nat.le_refl _) (Or.inl rfl) fun length hmem => Or.inl ?_
  refine List.mem_cons_of_mem _ (List.mem_map.mpr ?_)
  rcases List.mem_cons.mp hmem with rfl | hmem
  · exact ⟨r, List.mem_of_find?_eq_some hfind, rfl⟩
  · obtain ⟨q, hq, rfl⟩ := List.mem_map.mp hmem
    exact ⟨q, (List.mem_filter.mp hq).1, rfl⟩

theorem fileSync (h : Cursors s) {cb : SyncCb} (hstep : s.fileSync cb a = .ok s') : Cursors s' := by
  rcases FileState.fileSync_ok hstep with ⟨-, hcb⟩ | hcb | ⟨-, rfl⟩
  · exact h.callSyncCb hcb
  · exact h.callSyncCb hcb
  refine send (note ?_)
  refine h.next h.appendPos_lt h.flushed (Nat.le_refl _) (Or.inl rfl) fun length hmem => ?_
  rcases List.mem_cons.mp hmem with rfl | hmem
  · exact Or.inl List.mem_cons_self
  obtain ⟨q, hq, rfl⟩ := List.mem_map.mp hmem
  rcases List.mem_append.mp hq with hold | hnew
  · exact Or.inl (List.mem_cons_of_mem _ (List.mem_map.mpr ⟨q, hold, rfl⟩))
  · rw [List.mem_singleton.mp hnew]
    exact Or.inr ⟨Nat.zero_le _, Nat.zero_le _⟩

/-! ### Flushes -/

theorem fileFlush (h : Cursors s) (hstep : s.fileFlush = .ok s') : Cursors s' := by
  rcases FileState.fileFlush_ok hstep with
    ⟨-, rfl⟩ | ⟨b, next, -, -, ⟨rfl, -⟩ | ⟨rfl, -⟩ | ⟨-, -, -, rfl⟩⟩
  · exact send (h.next h.appendPos_lt (Nat.le_refl _) h.flushed (Or.inl rfl) fun _ hmem =>
      Or.inl hmem)
  · exact h
  · exact h.send
  · exact h.fields rfl rfl rfl rfl

theorem flushWrite (h : Cursors s) {b : BufRef} {next : CacheBuffer} {offset length : Nat}
    (hkeeps : s.file.lengthFlushed + length ≤ s.file.appendPos) {s₁ : FileState}
    (hwrite : s.flushed bs b next offset length a = .ok s₁)
    (hdone : s₁.fileFlushDone bs b next length = .ok s') : Cursors s' := by
  obtain rfl := FileState.fileFlushDone_ok hdone
  have hmod := Nat.mod_eq_of_lt (hkeeps.trans_lt h.appendPos_lt)
  have hdone : Cursors (s₁.flushDone b next length) := by
    rcases FileState.flushed_ok hwrite with ⟨-, rfl⟩ | ⟨-, -, rfl⟩
    all_goals
      refine h.next h.appendPos_lt ?_ ?_ (Or.inl rfl) fun _ hmem => Or.inl hmem
      · exact Nat.le_trans (Nat.le_of_eq hmod) hkeeps
      · exact Nat.le_trans (Nat.le_add_right _ _) (Nat.le_of_eq hmod.symm)
  exact hdone.send

/-! ### Appends -/

theorem cacheAppendBuffer (h : Cursors s) {ok : Bool} {r : Option BufRef}
    (hstep : s.cacheAppendBuffer ok = .ok (r, s')) :
    Cursors s' ∧ s'.file.appendPos = s.file.appendPos := by
  rcases (FileState.cacheAppendBuffer_ok hstep).2.2 with ⟨-, rfl⟩ | ⟨-, -, -, rfl⟩
  · exact ⟨h, rfl⟩
  · exact ⟨h.fields rfl rfl rfl rfl, rfl⟩

theorem openLast (h : Cursors s) (hstep : s.openLast a = .ok s') :
    Cursors s' ∧ s'.file.appendPos = s.file.appendPos := by
  have hopened : Cursors s.opened := h.fields rfl rfl rfl rfl
  rcases FileState.openLast_ok hstep with ⟨rfl, -⟩ | ⟨-, -, r, happend⟩
  · exact ⟨hopened, rfl⟩
  · exact hopened.cacheAppendBuffer happend

theorem startFill (h : Cursors s) {payload : List UInt8}
    (hstep : s.startFill id payload a = .ok s') : Cursors s' := by
  rcases FileState.startFill_ok hstep with rfl | ⟨last, -, rfl⟩
  · exact h.note
  · exact h.send

theorem append (h : Cursors s) {offset : Nat} {payload : List UInt8}
    (hkeeps : s.file.appendPos + payload.length < 2 ^ 64)
    (hstep : s.append bs id offset payload a = .ok s') : Cursors s' := by
  obtain ⟨s₁, hopen, hrest⟩ := FileState.append_ok hstep
  obtain ⟨h₁, hpos⟩ := h.openLast hopen
  have hpast : Cursors (s₁.appendedPast payload.length) :=
    h₁.append_forward (hpos ▸ hkeeps) rfl rfl rfl rfl
  rcases hrest with ⟨-, rfl | rfl⟩ | ⟨-, -, ⟨-, rfl⟩ | ⟨-, hfill⟩⟩
  · exact hpast.send
  · exact hpast.note
  · exact h₁.send
  · exact h₁.startFill hfill

theorem fillRound (h : Cursors s) {b : BufRef} {payload : List UInt8} {filled : Nat}
    (hkeeps : s.file.appendPos + payload.length < 2 ^ 64)
    (hstep : s.fillRound id b payload filled a = .ok s') : Cursors s' := by
  obtain ⟨last, -, hround⟩ := FileState.fillRound_ok hstep
  have hcopy : FileState.fillLength last payload ≤ payload.length := Nat.min_le_right _ _
  have hcopied : Cursors (s.copied b last payload) :=
    h.append_forward ((Nat.add_le_add_left hcopy _).trans_lt hkeeps) rfl rfl rfl rfl
  rcases hround with ⟨-, rfl⟩ | ⟨-, r, s₁, happend, ⟨c, -, rfl⟩ | ⟨-, rfl⟩⟩
  · exact hcopied.send
  · exact (hcopied.cacheAppendBuffer happend).1.send
  · exact (hcopied.cacheAppendBuffer happend).1.note

/-! ### Truncates -/

/-- A truncate that does not cut what is flushed. -/
theorem cut (h : Cursors s) {length : Nat}
    (hkeeps : s.file.lengthFlushed ≤ length ∧ length < 2 ^ 64)
    (happend : s'.file.appendPos = min s.file.appendPos length)
    (hflushed : s'.file.lengthFlushed = s.file.lengthFlushed)
    (hxattr : s'.blob.xattrLength = length) (hlengths : s'.storedLengths = s.storedLengths) :
    Cursors s' := by
  refine h.next ?_ ?_ (Nat.le_of_eq hflushed.symm) (Or.inr ?_) fun _ hmem => Or.inl
    (hlengths ▸ hmem)
  · rw [happend]
    exact (Nat.min_le_right _ _).trans_lt hkeeps.2
  · rw [happend, hflushed]
    exact Nat.le_min.mpr ⟨h.flushed, hkeeps.1⟩
  · rw [hxattr]
    exact hkeeps.1

theorem fileTruncateAsync (h : Cursors s) {length : Nat}
    (hstep : s.fileTruncateAsync id length a = .ok s') : Cursors s' := by
  rcases FileState.fileTruncateAsync_ok hstep with ⟨-, rfl⟩ | rfl | rfl
  · exact h.note
  · exact h.note
  · exact h.send

theorem fsTruncateResizeCb (h : Cursors s) {length : Nat}
    (hkeeps : a.bserrno = 0 → s.file.lengthFlushed ≤ length ∧ length < 2 ^ 64)
    (hstep : s.fsTruncateResizeCb bs id length a = .ok s') : Cursors s' := by
  rcases FileState.fsTruncateResizeCb_ok hstep with ⟨-, rfl⟩ | ⟨hzero, rfl⟩
  · exact h.note
  · exact send (h.cut (hkeeps hzero) rfl rfl rfl rfl)

/-! ### Requests past the cache -/

theorem rwStage (h : Cursors s) {op : Option Nat} {stage : Stage}
    (hstep : s.rwStage op stage = .ok s') : Cursors s' := by
  rcases FileState.rwStage_ok hstep with ⟨rc, iov, -, ⟨-, rfl⟩ | ⟨id, -, rfl⟩⟩ | ⟨-, -, rfl⟩
  · exact h
  · exact h.note
  · exact h.send

theorem rwComplete (h : Cursors s) {op : Option Nat} {stage : Stage}
    (hkeeps : ∀ length rw, stage = .resize length rw → a.bserrno = 0 →
      s.file.lengthFlushed ≤ length ∧ length < 2 ^ 64)
    (hstep : s.rwComplete bs op stage a = .ok s') : Cursors s' := by
  obtain ⟨t, hasync, hstage⟩ := FileState.rwComplete_ok hstep
  refine Cursors.rwStage (s := s.setAsyncFile t.file) ?_ hstage
  rcases FileState.asyncStep_ok rfl hasync with
    ⟨-, happend, hxattr, -⟩ | ⟨length, rw, heq, hzero, -, happend, hxattr⟩
  · exact h.fields happend rfl hxattr rfl
  · exact h.cut (hkeeps length rw heq hzero) happend rfl hxattr rfl

/-! ### Reads -/

theorem checkReadahead (h : Cursors s) {offset : Nat} {ok : Bool}
    (hstep : s.checkReadahead offset ok = .ok s') : Cursors s' := by
  rcases FileState.checkReadahead_ok hstep with rfl | ⟨-, -, -, rfl⟩
  · exact h
  · exact h.fields rfl rfl rfl rfl

theorem fileRead (h : Cursors s) {offset length : Nat}
    (hstep : s.fileRead offset length a = .ok s') : Cursors s' := by
  rcases FileState.fileRead_ok hstep with rfl | ⟨n, s₁, -, haheads, rfl⟩
  · exact h.fields rfl rfl rfl rfl
  · have hseq : Cursors (s.sequential offset n) := h.fields rfl rfl rfl rfl
    refine send ?_
    rcases FileState.checkReadaheads_ok haheads with rfl | ⟨-, s₂, hfirst, hsecond⟩
    · exact hseq
    · exact (hseq.checkReadahead hfirst).checkReadahead hsecond

theorem readRound (h : Cursors s) {offset finalOffset : Nat}
    (hstep : s.readRound offset finalOffset a = .ok s') : Cursors s' := by
  rcases FileState.readRound_ok hstep with
    rfl | ⟨-, rfl⟩ | ⟨b, buffer, -, -, -, ⟨-, rfl⟩ | ⟨-, rfl⟩⟩
  · exact h
  all_goals exact h.fields rfl rfl rfl rfl

theorem reclaimCacheBuffers (h : Cursors s) : Cursors s.reclaimCacheBuffers := by
  unfold FileState.reclaimCacheBuffers
  split
  · exact h
  dsimp only
  split
  all_goals exact h.fields rfl rfl rfl rfl

theorem fileFree (h : Cursors s) (hstep : s.fileFree = .ok s') : Cursors s' := by
  unfold FileState.fileFree at hstep
  split at hstep
  · obtain rfl := Except.ok.inj hstep
    exact h.fields rfl rfl rfl rfl
  dsimp only at hstep
  split at hstep
  · obtain rfl := Except.ok.inj hstep
    exact h.fields rfl rfl rfl rfl
  · cases hstep

/-! ### Runs -/

/-- Something that is pending is done. -/
theorem complete (h : Cursors s) {i : Nat} (hw : s.pending[i]? = some w)
    (hkeeps : KeepsCursors s (.complete i, a)) (hstep : (s.take i).perform bs a w = .ok s') :
    Cursors s' := by
  replace hkeeps := hkeeps w hw
  have htake : Cursors (s.take i) := h.fields rfl rfl rfl rfl
  cases w with
  | append id offset payload => exact htake.append hkeeps hstep
  | extend id numClusters payload => exact htake.blobOp hstep
  | extendResize id numClusters payload =>
      simp only [FileState.perform] at hstep
      split at hstep
      · obtain rfl := Except.ok.inj hstep
        exact htake.note
      · refine blobOp ?_ hstep
        exact htake.fields rfl rfl rfl rfl
  | extendSync id payload =>
      simp only [FileState.perform] at hstep
      split at hstep
      all_goals obtain rfl := Except.ok.inj hstep
      · exact htake.note
      · exact htake.send
  | startFill id payload => exact htake.startFill hstep
  | fill id b payload filled =>
      simp only [FileState.perform] at hstep
      split at hstep
      · obtain rfl := Except.ok.inj hstep
        unfold FileState.endFill
        split
        · exact htake.note
        · exact htake.fields rfl rfl rfl rfl
      · exact htake.fillRound hkeeps hstep
  | rwFromFile id call => exact htake.rwStage hstep
  | rw id stage =>
      refine htake.rwComplete (fun length rw hstage => ?_) hstep
      subst hstage
      exact hkeeps
  | flush => exact htake.fileFlush hstep
  | flushWrite b offset length =>
      obtain ⟨next, -, hstep⟩ := bind_ok.mp hstep
      obtain ⟨s₁, hwrite, hdone⟩ := bind_ok.mp hstep
      exact htake.flushWrite hkeeps hwrite hdone
  | check thenFlush =>
      obtain ⟨s₁, hcheck, hret⟩ := bind_ok.mp hstep
      obtain rfl := Except.ok.inj hret
      have hchecked := htake.checkSyncReqs hcheck
      split
      · exact hchecked.send
      · exact hchecked
  | syncXattr ref => exact htake.fileCacheFinishSync hstep
  | readahead b length =>
      obtain ⟨buffer, -, hstep⟩ := bind_ok.mp hstep
      split at hstep
      · cases hstep
      · exact htake.blobOp hstep
  | readaheadRead b length =>
      obtain ⟨buffer, -, hstep⟩ := bind_ok.mp hstep
      obtain ⟨s₁, hread, hret⟩ := bind_ok.mp hstep
      obtain rfl := Except.ok.inj hret
      obtain ⟨image, rfl, -⟩ := FileState.readAhead_ok hread
      exact htake.fields rfl rfl rfl rfl
  | readLoop offset finalOffset => exact htake.readRound hstep
  | truncate id length => exact htake.fileTruncateAsync hstep
  | truncateResize id length => exact htake.fsTruncateResizeCb hkeeps hstep
  | truncateSync id =>
      obtain rfl := Except.ok.inj hstep
      exact htake.note
  | close id => exact htake.fileCloseAsync hstep
  | closeBlob id =>
      obtain rfl := Except.ok.inj hstep
      exact htake.note

/-- A step keeps the cursors in order. -/
theorem step (h : Cursors s) {e : FileEvent × Answer} (hkeeps : KeepsCursors s e)
    (hstep : FileSteps bs s e s') : Cursors s' := by
  obtain ⟨event, a⟩ := e
  obtain ⟨-, hact⟩ := FileState.step_ok hstep
  have hask : Cursors s.ask := h.fields rfl rfl rfl rfl
  have hclose : ∀ cb, (if a.request then s.ask.fileSync cb a
      else .ok (s.ask.reply s.brk (-ENOMEM))) = .ok s' → Cursors s' := by
    intro cb hclose
    split at hclose
    · exact hask.fileSync hclose
    · obtain rfl := Except.ok.inj hclose
      exact hask.note
  cases event with
  | write offset payload =>
      obtain rfl := Except.ok.inj hact
      unfold FileState.fileWrite
      split
      · exact h.fields rfl rfl rfl rfl
      split
      all_goals exact h.fields rfl rfl rfl rfl
  | read offset length => exact h.fileRead hact
  | sync => exact hask.fileSync hact
  | closeAsync => exact hclose _ hact
  | close => exact hclose _ hact
  | truncate length =>
      simp only [FileState.act] at hact
      split at hact
      all_goals
        obtain rfl := Except.ok.inj hact
        exact h.fields rfl rfl rfl rfl
  | reclaim =>
      obtain rfl := Except.ok.inj hact
      exact h.reclaimCacheBuffers
  | free => exact h.fileFree hact
  | complete i =>
      obtain ⟨w, hw, hperform⟩ := FileState.complete_ok hact
      exact h.complete hw hkeeps hperform

theorem initial (h : s.Initial bs) : Cursors s where
  appendPos_lt := h.appendPos ▸ h.length_lt
  flushed := by rw [h.lengthFlushed, h.appendPos]
  stored := by
    intro length hmem
    rw [FileState.storedLengths, h.syncRequests, h.lengthXattr] at hmem
    rw [List.mem_singleton.mp hmem, h.lengthFlushed, h.xattrLength]
    exact ⟨Nat.le_refl _, Nat.le_refl _⟩

end Cursors

end Nbfs.Cache
