import Nbfs.Cache.FailedFlush
import Nbfs.Cache.ReadLength
import Nbfs.Cache.SyncQueue

set_option autoImplicit false

/-!
# Sync requests that wait

A sync request waits for flushes to bring `length_flushed` past its bytes, and then for
`__check_sync_reqs` to find it.  A flush that returns early leaves it to another; when nothing
is under way for the file, no request should wait.
-/

namespace Nbfs.Cache

open Nbfs.Lib
open Nbfs.Async (Blobstore Stage ENOMEM)

/-- A flush, or what calls `__file_flush` at its end. -/
def Work.flushes : Work → Bool
  | flush | flushWrite .. | check true => true
  | _ => false

/-- What calls `__check_sync_reqs` at its end, too. -/
def Work.tends : Work → Bool
  | flush | flushWrite .. | check _ | syncXattr _ => true
  | _ => false

/-- A part of a call that the client's thread is in. -/
def Work.ofClient : Work → Bool
  | append .. | startFill .. | fill .. | readLoop .. => true
  | _ => false

namespace FileState

variable (s : FileState)

/-- No blobstore I/O of the file is outstanding, no message is queued and no callback runs. -/
def Idle : Prop := ∀ w ∈ s.pending, w.ofClient = true

/-- A flush that comes now does something for the requests that wait, or another does. -/
def flushServes : Bool :=
  s.file.syncRequests.isEmpty || s.pending.any Work.flushes ||
    match s.file.cache.find s.file.lengthFlushed with
    | none => s.file.syncRequests.all fun r => r.offset ≤ s.file.appendPos
    | some b =>
        match s.file.cache.buffers b with
        | none => true
        | some next => !next.inProgress && (flushLength next ≠ 0 ||
            s.file.syncRequests.all fun r => r.offset ≤ s.file.lengthFlushed)

end FileState

/-- When nothing is under way for the file, no request waits, and every sync and close that
was called has come back. -/
structure NoneStranded (s : FileState) : Prop where
  requests : s.Idle → s.file.syncRequests = []
  replied : s.Idle → ∀ id appendPos, .asked id appendPos ∈ s.notes →
    ∃ rc, .replied id rc ∈ s.notes

/-- A `__file_flush` serves the requests that wait. -/
def FlushServes (s : FileState) (e : FileEvent × Answer) : Prop :=
  match e.1 with
  | .complete i =>
      match s.pending[i]? with
      | some .flush => (s.take i).flushServes = true
      | _ => True
  | _ => True

/-- The call came back, waits for its sync, or is a close that is past it. -/
def FileState.Answered (doing : List Work) (s : FileState) (id : Nat) : Prop :=
  (∃ rc, .replied id rc ∈ s.notes) ∨ (∃ r ∈ s.file.syncRequests, r.cb.call = id) ∨
    .close id ∈ doing ++ s.pending ∨ .closeBlob id ∈ doing ++ s.pending

/-- The invariant, while `doing` is being done: a request whose bytes are not flushed has its
flush, one that waits has something that comes back to it, and a call that has not come back
is on the queue or past it. -/
structure Tended (doing : List Work) (s : FileState) : Prop where
  unflushed : ∀ r ∈ s.file.syncRequests, s.file.lengthFlushed < r.offset →
    ∃ w ∈ doing ++ s.pending, w.flushes = true
  waiting : s.file.syncRequests ≠ [] → ∃ w ∈ doing ++ s.pending, w.tends = true
  started : ∀ r ∈ s.file.syncRequests, r.xattrInProgress = true →
    .syncXattr r.ref ∈ doing ++ s.pending
  refs : (s.file.syncRequests.map SyncRequest.ref).Nodup
  fresh : ∀ r ∈ s.file.syncRequests, r.ref < s.brk
  asked : ∀ id appendPos, .asked id appendPos ∈ s.notes → s.Answered doing id

/-- A part of a step that leaves the queue and what is under way for it. -/
structure Beside (s s' : FileState) : Prop where
  requests : s'.file.syncRequests = s.file.syncRequests
  lengthFlushed : s'.file.lengthFlushed = s.file.lengthFlushed
  brk : s.brk ≤ s'.brk
  pending : ∀ w ∈ s.pending, w ∈ s'.pending
  notes : ∀ n ∈ s.notes, n ∈ s'.notes
  asked : ∀ id appendPos, .asked id appendPos ∈ s'.notes → .asked id appendPos ∈ s.notes

theorem FileState.mem_send (s : FileState) (w : Work) : w ∈ (s.send w).pending :=
  List.mem_append_right _ List.mem_cons_self

namespace Beside

variable {s s' s'' : FileState} {bs : Blobstore} {a : Answer} {w : Work} {id : Nat}

theorem refl (s : FileState) : Beside s s :=
  ⟨rfl, rfl, Nat.le_refl _, fun _ h => h, fun _ h => h, fun _ _ h => h⟩

theorem trans (h : Beside s s') (h' : Beside s' s'') : Beside s s'' where
  requests := h'.requests.trans h.requests
  lengthFlushed := h'.lengthFlushed.trans h.lengthFlushed
  brk := h.brk.trans h'.brk
  pending := fun w hw => h'.pending w (h.pending w hw)
  notes := fun n hn => h'.notes n (h.notes n hn)
  asked := fun id appendPos hmem => h.asked id appendPos (h'.asked id appendPos hmem)

theorem fields (hrequests : s'.file.syncRequests = s.file.syncRequests)
    (hflushed : s'.file.lengthFlushed = s.file.lengthFlushed) (hbrk : s.brk ≤ s'.brk)
    (hpending : s'.pending = s.pending) (hnotes : s'.notes = s.notes) : Beside s s' :=
  ⟨hrequests, hflushed, hbrk, fun _ hw => hpending ▸ hw, fun _ hn => hnotes ▸ hn,
    fun _ _ hmem => hnotes ▸ hmem⟩

theorem send (s : FileState) (w : Work) : Beside s (s.send w) :=
  { refl s with
    pending := fun _ hw => List.mem_append_left _ hw }

/-- Notes that are not of calls. -/
theorem noted {l : List Note} (hnotes : s'.notes = s.notes ++ l)
    (hl : ∀ id appendPos, .asked id appendPos ∉ l) (hrest : Beside s { s' with notes := s.notes }) :
    Beside s s' :=
  { hrest with
    notes := fun _ hn => hnotes ▸ List.mem_append_left _ hn
    asked := fun id appendPos hmem =>
      (List.mem_append.mp (hnotes ▸ hmem)).resolve_right (hl id appendPos) }

theorem note {n : Note} (s : FileState) (hn : ∀ id appendPos, n ≠ .asked id appendPos) :
    Beside s (s.note n) :=
  noted rfl (fun id appendPos hmem => hn id appendPos (List.mem_singleton.mp hmem).symm) (refl s)

theorem reply (s : FileState) (id : Nat) (rc : Int) : Beside s (s.reply id rc) :=
  note s (fun _ _ heq => by cases heq)

theorem alloc (s : FileState) : Beside s s.alloc := fields rfl rfl (Nat.le_succ _) rfl rfl

theorem then_send (h : Beside s s') : Beside s (s'.send w) := h.trans (send s' w)

theorem then_reply {rc : Int} (h : Beside s s') : Beside s (s'.reply id rc) :=
  h.trans (reply s' id rc)

/-! ### Parts of steps -/

theorem cacheAppendBuffer {ok : Bool} {r : Option BufRef}
    (h : s.cacheAppendBuffer ok = .ok (r, s')) : Beside s s' := by
  rcases (FileState.cacheAppendBuffer_ok h).2.2 with ⟨-, rfl⟩ | ⟨-, -, -, rfl⟩
  · exact refl _
  · exact fields rfl rfl (Nat.le_succ _) rfl rfl

theorem treeFreeBuffers (s : FileState) : Beside s s.treeFreeBuffers := by
  refine noted rfl (fun id appendPos hmem => ?_) (fields rfl rfl (Nat.le_refl _) rfl rfl)
  obtain ⟨b, -, hb⟩ := List.mem_filterMap.mp hmem
  obtain ⟨buffer, -, heq⟩ := Option.map_eq_some_iff.mp hb
  cases heq

theorem reclaimCacheBuffers (s : FileState) : Beside s s.reclaimCacheBuffers := by
  unfold FileState.reclaimCacheBuffers
  split
  · exact refl s
  dsimp only
  split
  · exact (treeFreeBuffers s).trans (fields rfl rfl (Nat.le_refl _) rfl rfl)
  · exact treeFreeBuffers s

theorem fileFree (h : s.fileFree = .ok s') : Beside s s' := by
  unfold FileState.fileFree at h
  split at h
  · obtain rfl := Except.ok.inj h
    exact fields rfl rfl (Nat.le_refl _) rfl rfl
  dsimp only at h
  split at h
  · obtain rfl := Except.ok.inj h
    exact (treeFreeBuffers s).trans (fields rfl rfl (Nat.le_refl _) rfl rfl)
  · cases h

theorem fileCloseAsync (h : s.fileCloseAsync id = .ok s') : Beside s s' := by
  rcases FileState.fileCloseAsync_ok h with rfl | rfl | rfl
  · exact reply s id _
  · exact then_reply (fields rfl rfl (Nat.le_refl _) rfl rfl)
  · exact then_send (fields rfl rfl (Nat.le_refl _) rfl rfl)

theorem callSyncCb {rc : Int} {cb : SyncCb} (h : s.callSyncCb rc cb = .ok s') : Beside s s' := by
  cases cb with
  | client id =>
      obtain rfl := Except.ok.inj h
      exact reply s id rc
  | closeAsync id => exact fileCloseAsync h
  | close id =>
      obtain rfl := Except.ok.inj h
      exact send s _

theorem blobOp (h : s.blobOp w = .ok s') : Beside s s' := by
  obtain ⟨-, rfl⟩ := FileState.blobOp_ok h
  exact send s w

theorem flushed {b : BufRef} {next : CacheBuffer} {offset length : Nat}
    (h : s.flushed bs b next offset length a = .ok s') : Beside s s' := by
  rcases FileState.flushed_ok h with ⟨-, rfl⟩ | ⟨-, -, rfl⟩
  all_goals
    refine (note (n := .wrote offset length a.bserrno) s fun _ _ heq => by cases heq).trans ?_
    exact fields rfl rfl (Nat.le_refl _) rfl rfl

theorem startFill {payload : List UInt8} (h : s.startFill id payload a = .ok s') :
    Beside s s' := by
  rcases FileState.startFill_ok h with rfl | ⟨last, -, rfl⟩
  · exact reply s id _
  · exact send s _

theorem append {offset : Nat} {payload : List UInt8}
    (h : s.append bs id offset payload a = .ok s') : Beside s s' := by
  obtain ⟨s₁, hopen, hrest⟩ := FileState.append_ok h
  have hopened : Beside s s.opened := fields rfl rfl (Nat.le_refl _) rfl rfl
  have hfirst : Beside s s₁ := by
    rcases FileState.openLast_ok hopen with ⟨rfl, -⟩ | ⟨-, -, r, happend⟩
    · exact hopened
    · exact hopened.trans (cacheAppendBuffer happend)
  have hpast : Beside s₁ (s₁.appendedPast payload.length) :=
    fields rfl rfl (Nat.le_refl _) rfl rfl
  refine hfirst.trans ?_
  rcases hrest with ⟨-, rfl | rfl⟩ | ⟨-, -, ⟨-, rfl⟩ | ⟨-, hfill⟩⟩
  · exact then_send hpast
  · exact then_reply hpast
  · exact send _ _
  · exact startFill hfill

theorem fillRound {b : BufRef} {payload : List UInt8} {filled : Nat}
    (h : s.fillRound id b payload filled a = .ok s') : Beside s s' := by
  obtain ⟨last, -, hround⟩ := FileState.fillRound_ok h
  have hcopied : Beside s (s.copied b last payload) := fields rfl rfl (Nat.le_refl _) rfl rfl
  rcases hround with ⟨-, rfl⟩ | ⟨-, r, s₁, happend, ⟨c, -, rfl⟩ | ⟨-, rfl⟩⟩
  · exact then_send hcopied
  · exact then_send (hcopied.trans (cacheAppendBuffer happend))
  · exact then_reply (hcopied.trans (cacheAppendBuffer happend))

theorem rwStage {op : Option Nat} {stage : Stage} (h : s.rwStage op stage = .ok s') :
    Beside s s' := by
  rcases FileState.rwStage_ok h with ⟨rc, iov, -, ⟨-, rfl⟩ | ⟨id, -, rfl⟩⟩ | ⟨-, -, rfl⟩
  · exact refl _
  · exact reply s id rc
  · exact send s _

theorem rwComplete {op : Option Nat} {stage : Stage} (h : s.rwComplete bs op stage a = .ok s') :
    Beside s s' := by
  obtain ⟨t, -, hstage⟩ := FileState.rwComplete_ok h
  have hset : Beside s (s.setAsyncFile t.file) := fields rfl rfl (Nat.le_refl _) rfl rfl
  exact hset.trans (rwStage hstage)

theorem checkReadahead {offset : Nat} {ok : Bool} (h : s.checkReadahead offset ok = .ok s') :
    Beside s s' := by
  rcases FileState.checkReadahead_ok h with rfl | ⟨-, -, -, rfl⟩
  · exact refl _
  · exact then_send (fields rfl rfl (Nat.le_succ _) rfl rfl)

theorem fileRead {offset length : Nat} (h : s.fileRead offset length a = .ok s') :
    Beside s s' := by
  rcases FileState.fileRead_ok h with rfl | ⟨n, s₁, -, haheads, rfl⟩
  · exact fields rfl rfl (Nat.le_refl _) rfl rfl
  · have hseq : Beside s (s.sequential offset n) := fields rfl rfl (Nat.le_refl _) rfl rfl
    refine then_send (hseq.trans ?_)
    rcases FileState.checkReadaheads_ok haheads with rfl | ⟨-, s₂, hfirst, hsecond⟩
    · exact refl _
    · exact (checkReadahead hfirst).trans (checkReadahead hsecond)

theorem readRound {offset finalOffset : Nat} (h : s.readRound offset finalOffset a = .ok s') :
    Beside s s' := by
  rcases FileState.readRound_ok h with
    rfl | ⟨-, rfl⟩ | ⟨b, buffer, -, -, -, ⟨-, rfl⟩ | ⟨-, rfl⟩⟩
  · exact refl _
  · exact then_send (send s _)
  · have hleft : Beside s (s.setFile (s.file.treeRemoveBuffer b)) :=
      fields rfl rfl (Nat.le_refl _) rfl rfl
    exact then_send (hleft.trans (note (n := .freed buffer) _ fun _ _ heq => by cases heq))
  · exact send s _

theorem fileTruncateAsync {length : Nat} (h : s.fileTruncateAsync id length a = .ok s') :
    Beside s s' := by
  rcases FileState.fileTruncateAsync_ok h with ⟨-, rfl⟩ | rfl | rfl
  · exact reply s id 0
  · exact reply s id _
  · exact send s _

theorem fsTruncateResizeCb {length : Nat} (h : s.fsTruncateResizeCb bs id length a = .ok s') :
    Beside s s' := by
  rcases FileState.fsTruncateResizeCb_ok h with ⟨-, rfl⟩ | ⟨-, rfl⟩
  · exact reply s id _
  · exact then_send (fields rfl rfl (Nat.le_refl _) rfl rfl)

end Beside

namespace Tended

variable {s s' : FileState} {bs : Blobstore} {a : Answer} {w : Work} {doing : List Work}

theorem tends_of_flushes (hw : w.flushes = true) : w.tends = true := by
  cases w with
  | flush | flushWrite | check => rfl
  | _ => cases hw

theorem noneStranded (h : Tended [] s) : NoneStranded s := by
  have hrequests : s.Idle → s.file.syncRequests = [] := by
    intro hidle
    by_contra hne
    obtain ⟨w, hw, htends⟩ := h.waiting hne
    have hclient := hidle w hw
    cases w with
    | flush | flushWrite | check | syncXattr => cases hclient
    | _ => cases htends
  refine ⟨hrequests, fun hidle id appendPos hasked => ?_⟩
  rcases h.asked id appendPos hasked with hreplied | ⟨r, hr, -⟩ | hclose | hclose
  · exact hreplied
  · rw [hrequests hidle] at hr
    cases hr
  · cases hidle _ hclose
  · cases hidle _ hclose

/-- The queue stays, and so does what is under way for it; calls are answered. -/
theorem moves {doing' : List Work} (h : Tended doing s)
    (hrequests : s'.file.syncRequests = s.file.syncRequests)
    (hflushed : s'.file.lengthFlushed = s.file.lengthFlushed) (hbrk : s.brk ≤ s'.brk)
    (hnotes : ∀ n ∈ s.notes, n ∈ s'.notes)
    (hkept : ∀ w ∈ doing ++ s.pending, w.tends = true → w ∈ doing' ++ s'.pending)
    (hclose : ∀ id, .close id ∈ doing ++ s.pending ∨ .closeBlob id ∈ doing ++ s.pending →
      s'.Answered doing' id)
    (hasked : ∀ id appendPos, .asked id appendPos ∈ s'.notes → .asked id appendPos ∈ s.notes ∨
      s'.Answered doing' id) : Tended doing' s' where
  unflushed := by
    rw [hrequests, hflushed]
    intro r hr hlt
    obtain ⟨w, hw, hflushes⟩ := h.unflushed r hr hlt
    exact ⟨w, hkept w hw (tends_of_flushes hflushes), hflushes⟩
  waiting := by
    rw [hrequests]
    intro hne
    obtain ⟨w, hw, htends⟩ := h.waiting hne
    exact ⟨w, hkept w hw htends, htends⟩
  started := by
    rw [hrequests]
    exact fun r hr hin => hkept _ (h.started r hr hin) rfl
  refs := hrequests ▸ h.refs
  fresh := by
    rw [hrequests]
    exact fun r hr => (h.fresh r hr).trans_le hbrk
  asked := by
    intro id appendPos hmem
    rcases hasked id appendPos hmem with hold | hnew
    · rcases h.asked id appendPos hold with ⟨rc, hr⟩ | hr | hc
      · exact Or.inl ⟨rc, hnotes _ hr⟩
      · exact Or.inr (Or.inl (hrequests ▸ hr))
      · exact hclose id hc
    · exact hnew

/-- What is taken is being done. -/
theorem take {i : Nat} (h : Tended [] s) (hw : s.pending[i]? = some w) :
    Tended [w] (s.take i) := by
  have hmem : ∀ w' ∈ s.pending, w' ∈ [w] ++ (s.take i).pending := fun w' hw' =>
    (taken_perm hw).mem_iff.mp hw'
  exact h.moves rfl rfl (Nat.le_refl _) (fun _ hn => hn) (fun w' hw' _ => hmem w' hw')
    (fun id hc => Or.inr (Or.inr (hc.imp (hmem _) (hmem _)))) fun _ _ hasked => Or.inl hasked

/-- What is to be done next is sent. -/
theorem sent (h : Tended [w] s) : Tended [] (s.send w) := by
  have hmem : ∀ w' ∈ [w] ++ s.pending, w' ∈ (s.send w).pending := by
    intro w' hw'
    rcases List.mem_cons.mp hw' with rfl | hw'
    · exact List.mem_append_right _ List.mem_cons_self
    · exact List.mem_append_left _ hw'
  exact h.moves rfl rfl (Nat.le_refl _) (fun _ hn => hn) (fun w' hw' _ => hmem w' hw')
    (fun id hc => Or.inr (Or.inr (hc.imp (hmem _) (hmem _)))) fun _ _ hasked => Or.inl hasked

/-- What is done was not about the queue; a close came back, or goes on. -/
theorem ended (h : Tended [w] s) (htends : w.tends = false) (hs : Beside s s')
    (hclose : ∀ id, w = .close id ∨ w = .closeBlob id → s'.Answered [] id) : Tended [] s' := by
  refine h.moves hs.requests hs.lengthFlushed hs.brk hs.notes (fun w' hw' ht => ?_)
    (fun id hc => ?_) fun id appendPos hmem => Or.inl (hs.asked id appendPos hmem)
  · rcases List.mem_cons.mp hw' with rfl | hw'
    · cases htends.symm.trans ht
    · exact hs.pending w' hw'
  · rcases hc with hc | hc
    · rcases List.mem_cons.mp hc with heq | hc
      · exact hclose id (Or.inl heq.symm)
      · exact Or.inr (Or.inr (Or.inl (hs.pending _ hc)))
    · rcases List.mem_cons.mp hc with heq | hc
      · exact hclose id (Or.inr heq.symm)
      · exact Or.inr (Or.inr (Or.inr (hs.pending _ hc)))

/-- A part of a step beside the queue. -/
theorem beside (h : Tended doing s) (hs : Beside s s') : Tended doing s' := by
  have hmem : ∀ w ∈ doing ++ s.pending, w ∈ doing ++ s'.pending := fun w hw =>
    (List.mem_append.mp hw).elim (List.mem_append_left _) fun hw =>
      List.mem_append_right _ (hs.pending w hw)
  exact h.moves hs.requests hs.lengthFlushed hs.brk hs.notes (fun w hw _ => hmem w hw)
    (fun id hc => Or.inr (Or.inr (hc.imp (hmem _) (hmem _))))
    fun id appendPos hasked => Or.inl (hs.asked id appendPos hasked)

/-- A sync or a close is called, and answered. -/
theorem answered (h : Tended [] s) (hs : Beside s.ask s') (hid : s'.Answered [] s.brk) :
    Tended [] s' := by
  refine h.moves hs.requests hs.lengthFlushed ((Nat.le_succ _).trans hs.brk)
    (fun n hn => hs.notes n (List.mem_append_left _ hn)) (fun w hw _ => hs.pending w hw)
    (fun id hc => Or.inr (Or.inr (hc.imp (hs.pending _) (hs.pending _)))) fun id appendPos hmem => ?_
  rcases FileState.mem_note (hs.asked id appendPos hmem) with hold | hnew
  · exact Or.inl hold
  · cases hnew
    exact Or.inr hid

/-- What is done was not an xattr update, nor a close; the requests have what they need from
others, or from what comes next. -/
theorem served (h : Tended [w] s) (hxattr : ∀ ref, w ≠ .syncXattr ref)
    (hclose : ∀ id, w ≠ .close id) (hcloseBlob : ∀ id, w ≠ .closeBlob id)
    (hrequests : s'.file.syncRequests = s.file.syncRequests) (hbrk : s'.brk = s.brk)
    (hpending : ∀ w ∈ s.pending, w ∈ doing ++ s'.pending) (hnotes : s'.notes = s.notes)
    (hunflushed : ∀ r ∈ s.file.syncRequests, s'.file.lengthFlushed < r.offset →
      ∃ w ∈ doing ++ s'.pending, w.flushes = true)
    (hwaiting : s.file.syncRequests ≠ [] → ∃ w ∈ doing ++ s'.pending, w.tends = true) :
    Tended doing s' where
  unflushed := hrequests ▸ hunflushed
  waiting := hrequests ▸ hwaiting
  started := by
    rw [hrequests]
    intro r hr hin
    exact hpending _ ((List.mem_cons.mp (h.started r hr hin)).resolve_left (hxattr _).symm)
  refs := hrequests ▸ h.refs
  fresh := by
    rw [hrequests, hbrk]
    exact h.fresh
  asked := by
    intro id appendPos hasked
    rw [hnotes] at hasked
    rw [FileState.Answered, hnotes, hrequests]
    rcases h.asked id appendPos hasked with hr | hr | hc | hc
    · exact Or.inl hr
    · exact Or.inr (Or.inl hr)
    · exact Or.inr (Or.inr (Or.inl (hpending _ ((List.mem_cons.mp hc).resolve_left
        (hclose id).symm))))
    · exact Or.inr (Or.inr (Or.inr (hpending _ ((List.mem_cons.mp hc).resolve_left
        (hcloseBlob id).symm))))

theorem fileFlush (h : Tended [.flush] s) (hserves : s.flushServes = true)
    (hstep : s.fileFlush = .ok s') : Tended [] s' := by
  have hplain : ∀ {s' : FileState}, s'.file.syncRequests = s.file.syncRequests → s'.brk = s.brk →
      (∀ w ∈ s.pending, w ∈ s'.pending) → s'.notes = s.notes →
      (∀ r ∈ s.file.syncRequests, s'.file.lengthFlushed < r.offset →
        ∃ w ∈ s'.pending, w.flushes = true) →
      (s.file.syncRequests ≠ [] → ∃ w ∈ s'.pending, w.tends = true) → Tended [] s' :=
    fun hrequests hbrk hpending hnotes hunflushed hwaiting =>
      h.served (by simp) (by simp) (by simp) hrequests hbrk hpending hnotes hunflushed hwaiting
  simp only [FileState.flushServes, Bool.or_eq_true, List.isEmpty_iff, List.any_eq_true] at hserves
  have hkept : ∀ {w : Work}, ∀ w' ∈ s.pending, w' ∈ (s.send w).pending := fun _ hw' =>
    List.mem_append_left _ hw'
  rcases FileState.fileFlush_ok hstep with
    ⟨hnone, rfl⟩ | ⟨b, next, hfind, hnext, ⟨hsame, hwhy⟩ | ⟨rfl, hidle, hzero⟩ | ⟨-, -, -, rfl⟩⟩
  · refine hplain rfl rfl hkept rfl (fun r hr hlt => ?_) fun _ =>
      ⟨_, FileState.mem_send _ _, rfl⟩
    rcases hserves with (hempty | ⟨w, hw, hflushes⟩) | hall
    · rw [hempty] at hr
      cases hr
    · exact ⟨w, hkept w hw, hflushes⟩
    · rw [hnone] at hall
      have hle : r.offset ≤ s.file.appendPos := by simpa using List.all_eq_true.mp hall r hr
      exact absurd hlt (Nat.not_lt.mpr hle)
  · -- It returns at once: there is no request, or another flush.
    have hother : s.file.syncRequests = [] ∨ ∃ w ∈ s.pending, w.flushes = true := by
      rcases hserves with (hempty | hother) | hbuffer
      · exact Or.inl hempty
      · exact Or.inr hother
      · rw [hfind] at hbuffer
        simp only [hnext, Bool.and_eq_true, Bool.not_eq_true'] at hbuffer
        rcases hwhy with hin | ⟨-, hempty⟩
        · cases hbuffer.1.symm.trans hin
        · exact Or.inl (List.isEmpty_iff.mp hempty)
    rw [hsame]
    refine hplain rfl rfl (fun _ hw => hw) rfl (fun r hr _ => ?_) fun hne => ?_
    · rcases hother with hempty | hother
      · rw [hempty] at hr
        cases hr
      · exact hother
    · obtain ⟨w, hw, hflushes⟩ := hother.resolve_left hne
      exact ⟨w, hw, tends_of_flushes hflushes⟩
  · -- Nothing is left to flush.
    refine hplain rfl rfl hkept rfl (fun r hr hlt => ?_) fun _ =>
      ⟨_, FileState.mem_send _ _, rfl⟩
    rcases hserves with (hempty | ⟨w, hw, hflushes⟩) | hbuffer
    · rw [hempty] at hr
      cases hr
    · exact ⟨w, hkept w hw, hflushes⟩
    · rw [hfind] at hbuffer
      simp only [hnext, hzero, Bool.and_eq_true, ne_eq, not_true_eq_false, decide_false,
        Bool.false_or, List.all_eq_true, decide_eq_true_eq] at hbuffer
      exact absurd hlt (Nat.not_lt.mpr (hbuffer.2 r hr))
  · exact hplain rfl rfl hkept rfl (fun _ _ _ => ⟨_, FileState.mem_send _ _, rfl⟩)
      fun _ => ⟨_, FileState.mem_send _ _, rfl⟩

theorem fileFlushDone {b b' : BufRef} {next : CacheBuffer} {offset length : Nat}
    (h : Tended [.flushWrite b' offset length] s)
    (hstep : s.fileFlushDone bs b next length = .ok s') : Tended [] s' := by
  obtain rfl := FileState.fileFlushDone_ok hstep
  have hdone : Tended [.check true] (s.flushDone b next length) := by
    have hmem : Work.check true ∈ [.check true] ++ (s.flushDone b next length).pending :=
      List.mem_cons_self
    exact h.served (by simp) (by simp) (by simp) rfl rfl (fun _ hw => List.mem_cons_of_mem _ hw) rfl
      (fun _ _ _ => ⟨_, hmem, rfl⟩) fun _ => ⟨_, hmem, rfl⟩
  exact hdone.sent

/-- After a check a request that is found has its update under way. -/
theorem checkSyncReqs {thenFlush : Bool} (h : Tended [.check thenFlush] s)
    (hdoing : (Work.check thenFlush).flushes = true → ∃ w ∈ doing, w.flushes = true)
    (hstep : s.checkSyncReqs = .ok s') : Tended doing s' := by
  have hflush : ∀ r ∈ s.file.syncRequests, s.file.lengthFlushed < r.offset →
      ∃ w ∈ doing ++ s.pending, w.flushes = true := by
    intro r hr hlt
    obtain ⟨w, hw, hflushes⟩ := h.unflushed r hr hlt
    rcases List.mem_cons.mp hw with rfl | hw
    · obtain ⟨w', hw', hflushes'⟩ := hdoing hflushes
      exact ⟨w', List.mem_append_left _ hw', hflushes'⟩
    · exact ⟨w, List.mem_append_right _ hw, hflushes⟩
  have hstarted : ∀ r ∈ s.file.syncRequests, r.xattrInProgress = true →
      .syncXattr r.ref ∈ s.pending := fun r hr hin =>
    (List.mem_cons.mp (h.started r hr hin)).resolve_left (by simp)
  unfold FileState.checkSyncReqs at hstep
  split at hstep
  · -- None is found.
    rename_i hnone
    obtain rfl := Except.ok.inj hstep
    refine h.served (by simp) (by simp) (by simp) rfl rfl (fun _ hw => List.mem_append_right _ hw)
      rfl hflush fun hne => ?_
    obtain ⟨r, hr⟩ := List.exists_mem_of_ne_nil _ hne
    have hlt : s.file.lengthFlushed < r.offset := by
      simpa using List.find?_eq_none.mp hnone r hr
    obtain ⟨w, hw, hflushes⟩ := hflush r hr hlt
    exact ⟨w, hw, tends_of_flushes hflushes⟩
  rename_i r hfind
  have hr := List.mem_of_find?_eq_some hfind
  split at hstep
  · -- Its update is under way.
    rename_i hin
    obtain rfl := Except.ok.inj hstep
    exact h.served (by simp) (by simp) (by simp) rfl rfl (fun _ hw => List.mem_append_right _ hw)
      rfl hflush fun _ => ⟨_, List.mem_append_right _ (hstarted r hr hin), rfl⟩
  · -- It gets its update.
    obtain ⟨-, rfl⟩ := FileState.blobOp_ok hstep
    have hready : r.offset ≤ s.file.lengthFlushed := by simpa using List.find?_some hfind
    have hnew : ∀ q' ∈ s.file.syncRequests.map fun q : SyncRequest => if q.ref = r.ref then
        { r with xattrInProgress := true, length := s.file.lengthFlushed } else q,
          q'.ref = r.ref ∧ q'.offset = r.offset ∨ q' ∈ s.file.syncRequests := by
      intro q' hq'
      obtain ⟨q, hq, rfl⟩ := List.mem_map.mp hq'
      split
      · exact Or.inl ⟨rfl, rfl⟩
      · exact Or.inr hq
    have hmem : ∀ w ∈ s.pending, w ∈ doing ++ (s.pending ++ [.syncXattr r.ref]) := fun w hw =>
      List.mem_append_right _ (List.mem_append_left _ hw)
    have hsent : Work.syncXattr r.ref ∈ doing ++ (s.pending ++ [.syncXattr r.ref]) :=
      List.mem_append_right _ (List.mem_append_right _ List.mem_cons_self)
    exact {
      unflushed := by
        intro q' hq' hlt
        rcases hnew q' hq' with ⟨-, hoffset⟩ | hq
        · exact absurd (hoffset ▸ hready) (Nat.not_le.mpr hlt)
        · obtain ⟨w, hw, hflushes⟩ := hflush q' hq hlt
          exact ⟨w, (List.mem_append.mp hw).elim (List.mem_append_left _) (hmem w), hflushes⟩
      waiting := fun _ => ⟨_, hsent, rfl⟩
      started := by
        intro q' hq' hin
        rcases hnew q' hq' with ⟨href, -⟩ | hq
        · exact href ▸ hsent
        · exact hmem _ (hstarted q' hq hin)
      refs := by
        change ((s.file.syncRequests.map _).map _).Nodup
        rw [List.map_map]
        refine (congrArg List.Nodup (List.map_congr_left fun q hq => ?_)).mp h.refs
        rw [Function.comp_apply]
        split
        · rename_i href
          exact href
        · rfl
      fresh := by
        intro q' hq'
        rcases hnew q' hq' with ⟨href, -⟩ | hq
        · exact href ▸ h.fresh r hr
        · exact h.fresh q' hq
      asked := by
        intro id appendPos hasked
        rcases h.asked id appendPos hasked with hreplied | ⟨q, hq, hcb⟩ | hc | hc
        · exact Or.inl hreplied
        · refine Or.inr (Or.inl ⟨_, List.mem_map_of_mem hq, ?_⟩)
          split
          · rename_i href
            obtain rfl := List.inj_on_of_nodup_map h.refs hq hr href
            exact hcb
          · exact hcb
        · exact Or.inr (Or.inr (Or.inl (hmem _ ((List.mem_cons.mp hc).resolve_left (by simp)))))
        · exact Or.inr (Or.inr (Or.inr (hmem _ ((List.mem_cons.mp hc).resolve_left (by simp))))) }

/-- The callback of a sync answers the call, or the close goes on. -/
theorem fileCloseAsync_answers {id : Nat} (hstep : s.fileCloseAsync id = .ok s') :
    s'.Answered [] id := by
  rcases FileState.fileCloseAsync_ok hstep with rfl | rfl | rfl
  · exact Or.inl ⟨_, List.mem_append_right _ List.mem_cons_self⟩
  · exact Or.inl ⟨_, List.mem_append_right _ List.mem_cons_self⟩
  · exact Or.inr (Or.inr (Or.inr (FileState.mem_send _ _)))

theorem callSyncCb_answers {rc : Int} {cb : SyncCb} (hstep : s.callSyncCb rc cb = .ok s') :
    s'.Answered [] cb.call := by
  cases cb with
  | client id =>
      obtain rfl := Except.ok.inj hstep
      exact Or.inl ⟨rc, List.mem_append_right _ List.mem_cons_self⟩
  | closeAsync id => exact fileCloseAsync_answers hstep
  | close id =>
      obtain rfl := Except.ok.inj hstep
      exact Or.inr (Or.inr (Or.inl (FileState.mem_send _ _)))

/-- The request leaves, and those that stay have their flushes. -/
theorem fileCacheFinishSync {ref : Nat} {bserrno : Int} (h : Tended [.syncXattr ref] s)
    (hstep : s.fileCacheFinishSync ref bserrno = .ok s') : Tended [] s' := by
  obtain ⟨r, hfind, -, s₁, hcb, rfl⟩ := FileState.fileCacheFinishSync_ok hstep
  have hbeside := Beside.callSyncCb hcb
  have hr := List.mem_of_find?_eq_some hfind
  have href : r.ref = ref := by simpa using List.find?_some hfind
  have hmem : ∀ q ∈ s₁.file.syncRequests, q ∈ s.file.syncRequests ∧ q.ref ≠ ref := by
    rw [hbeside.requests]
    intro q hq
    obtain ⟨hold, hne⟩ := List.mem_filter.mp hq
    exact ⟨hold, by simpa using hne⟩
  have hother : ∀ w ∈ [.syncXattr ref] ++ s.pending, w ≠ .syncXattr ref →
      w ∈ [.check false] ++ s₁.pending := fun w hw hne =>
    List.mem_append_right _ (hbeside.pending w ((List.mem_cons.mp hw).resolve_left hne))
  have hdone : Tended [.check false] s₁ := {
    unflushed := by
      intro q hq hlt
      rw [hbeside.lengthFlushed] at hlt
      obtain ⟨w, hw, hflushes⟩ := h.unflushed q (hmem q hq).1 hlt
      refine ⟨w, hother w hw ?_, hflushes⟩
      rintro rfl
      cases hflushes
    waiting := fun _ => ⟨_, List.mem_cons_self, rfl⟩
    started := by
      intro q hq hin
      refine hother _ (h.started q (hmem q hq).1 hin) fun heq => (hmem q hq).2 ?_
      exact Work.syncXattr.inj heq
    refs := by
      rw [hbeside.requests]
      exact h.refs.sublist (List.filter_sublist.map _)
    fresh := fun q hq => (h.fresh q (hmem q hq).1).trans_le hbeside.brk
    asked := by
      intro id appendPos hasked
      have hold := (FileState.mem_note (hbeside.asked id appendPos hasked)).resolve_right (by simp)
      rcases h.asked id appendPos hold with ⟨rc, hreplied⟩ | ⟨q, hq, hid⟩ | hc | hc
      · exact Or.inl ⟨rc, hbeside.notes _ (List.mem_append_left _ hreplied)⟩
      · by_cases heq : q.ref = ref
        · obtain rfl := List.inj_on_of_nodup_map h.refs hq hr (heq.trans href.symm)
          exact hid ▸ (callSyncCb_answers hcb).imp_right fun hrest => hrest.imp_right fun hin =>
            hin.imp (List.mem_append_right _) (List.mem_append_right _)
        · refine Or.inr (Or.inl ⟨q, ?_, hid⟩)
          rw [hbeside.requests]
          exact List.mem_filter.mpr ⟨hq, by simpa using heq⟩
      · exact Or.inr (Or.inr (Or.inl (hother _ hc (by simp))))
      · exact Or.inr (Or.inr (Or.inr (hother _ hc (by simp)))) }
  exact hdone.sent

/-- A sync is queued, with its flush. -/
theorem enqueued (h : Tended [] s) {cb : SyncCb} (hcb : cb.call = s.brk) :
    Tended [] (s.ask.enqueued cb) := by
  have hflush : Work.flush ∈ (s.ask.enqueued cb).pending := FileState.mem_send _ _
  have hpending : ∀ w ∈ s.pending, w ∈ (s.ask.enqueued cb).pending := fun _ hw =>
    List.mem_append_left _ hw
  have hnotes : ∀ n ∈ s.notes, n ∈ (s.ask.enqueued cb).notes := fun _ hn =>
    List.mem_append_left _ (List.mem_append_left _ hn)
  exact {
    unflushed := fun _ _ _ => ⟨_, hflush, rfl⟩
    waiting := fun _ => ⟨_, hflush, rfl⟩
    started := by
      intro r hr hin
      rcases List.mem_append.mp hr with hold | hnew
      · exact hpending _ (h.started r hold hin)
      · rw [List.mem_singleton.mp hnew] at hin
        cases hin
    refs := by
      change ((s.file.syncRequests ++ [_]).map SyncRequest.ref).Nodup
      rw [List.map_append, List.nodup_append]
      refine ⟨h.refs, List.nodup_singleton _, fun ref href new hnew => ?_⟩
      obtain ⟨r, hr, rfl⟩ := List.mem_map.mp href
      rw [List.mem_singleton.mp hnew]
      exact Nat.ne_of_lt ((h.fresh r hr).trans (Nat.lt_succ_self _))
    fresh := by
      intro r hr
      change r.ref < s.brk + 1 + 1
      rcases List.mem_append.mp hr with hold | hnew
      · have hlt := h.fresh r hold
        omega
      · rw [List.mem_singleton.mp hnew]
        exact Nat.lt_succ_self _
    asked := by
      intro id appendPos hmem
      rcases FileState.mem_note hmem with hasked | hqueued
      · rcases FileState.mem_note hasked with hold | hnew
        · rcases h.asked id appendPos hold with ⟨rc, hr⟩ | ⟨r, hr, hid⟩ | hc | hc
          · exact Or.inl ⟨rc, hnotes _ hr⟩
          · exact Or.inr (Or.inl ⟨r, List.mem_append_left _ hr, hid⟩)
          · exact Or.inr (Or.inr (Or.inl (hpending _ hc)))
          · exact Or.inr (Or.inr (Or.inr (hpending _ hc)))
        · cases hnew
          exact Or.inr (Or.inl ⟨_, List.mem_append_right _ List.mem_cons_self, hcb⟩)
      · cases hqueued }

theorem fileSync (h : Tended [] s) {cb : SyncCb} (hcb : cb.call = s.brk)
    (hstep : s.ask.fileSync cb a = .ok s') : Tended [] s' := by
  rcases FileState.fileSync_ok hstep with ⟨-, hcall⟩ | hcall | ⟨-, rfl⟩
  · exact h.answered (.callSyncCb hcall) (hcb ▸ callSyncCb_answers hcall)
  · exact h.answered (.callSyncCb hcall) (hcb ▸ callSyncCb_answers hcall)
  · exact h.enqueued hcb

/-- Something that is pending is done. -/
theorem complete (h : Tended [] s) {i : Nat} (hw : s.pending[i]? = some w)
    (hserves : FlushServes s (.complete i, a)) (hstep : (s.take i).perform bs a w = .ok s') :
    Tended [] s' := by
  unfold FlushServes at hserves
  dsimp only at hserves
  rw [hw] at hserves
  have hdoing := h.take hw
  cases w with
  | append id offset payload => exact hdoing.ended rfl (.append hstep) (by simp)
  | extend id numClusters payload => exact hdoing.ended rfl (.blobOp hstep) (by simp)
  | extendResize id numClusters payload =>
      simp only [FileState.perform] at hstep
      split at hstep
      · obtain rfl := Except.ok.inj hstep
        exact hdoing.ended rfl (.reply _ id _) (by simp)
      · obtain ⟨-, rfl⟩ := FileState.blobOp_ok hstep
        exact hdoing.ended rfl (.then_send (.fields rfl rfl (Nat.le_refl _) rfl rfl)) (by simp)
  | extendSync id payload =>
      simp only [FileState.perform] at hstep
      split at hstep
      · obtain rfl := Except.ok.inj hstep
        exact hdoing.ended rfl (.reply _ id _) (by simp)
      · obtain rfl := Except.ok.inj hstep
        exact hdoing.ended rfl (.send _ _) (by simp)
  | startFill id payload => exact hdoing.ended rfl (.startFill hstep) (by simp)
  | fill id b payload filled =>
      simp only [FileState.perform] at hstep
      split at hstep
      · obtain rfl := Except.ok.inj hstep
        refine hdoing.ended rfl ?_ (by simp)
        unfold FileState.endFill
        split
        · exact .reply _ id 0
        · exact .then_send (.reply _ id 0)
      · exact hdoing.ended rfl (.fillRound hstep) (by simp)
  | rwFromFile id call => exact hdoing.ended rfl (.rwStage hstep) (by simp)
  | rw id stage => exact hdoing.ended rfl (.rwComplete hstep) (by simp)
  | flush => exact hdoing.fileFlush hserves hstep
  | flushWrite b offset length =>
      obtain ⟨next, -, hstep⟩ := bind_ok.mp hstep
      obtain ⟨s₁, hwrite, hdone⟩ := bind_ok.mp hstep
      exact (hdoing.beside (.flushed hwrite)).fileFlushDone hdone
  | check thenFlush =>
      obtain ⟨s₁, hcheck, hret⟩ := bind_ok.mp hstep
      obtain rfl := Except.ok.inj hret
      cases thenFlush with
      | false => exact hdoing.checkSyncReqs (fun hflushes => by cases hflushes) hcheck
      | true =>
          have hnext : Tended [.flush] s₁ :=
            hdoing.checkSyncReqs (fun _ => ⟨_, List.mem_cons_self, rfl⟩) hcheck
          exact hnext.sent
  | syncXattr ref => exact hdoing.fileCacheFinishSync hstep
  | readahead b length =>
      obtain ⟨buffer, -, hstep⟩ := bind_ok.mp hstep
      split at hstep
      · cases hstep
      · exact hdoing.ended rfl (.blobOp hstep) (by simp)
  | readaheadRead b length =>
      obtain ⟨buffer, -, hstep⟩ := bind_ok.mp hstep
      obtain ⟨s₁, hread, hret⟩ := bind_ok.mp hstep
      obtain rfl := Except.ok.inj hret
      obtain ⟨image, rfl, -⟩ := FileState.readAhead_ok hread
      exact hdoing.ended rfl (.fields rfl rfl (Nat.le_refl _) rfl rfl) (by simp)
  | readLoop offset finalOffset => exact hdoing.ended rfl (.readRound hstep) (by simp)
  | truncate id length => exact hdoing.ended rfl (.fileTruncateAsync hstep) (by simp)
  | truncateResize id length => exact hdoing.ended rfl (.fsTruncateResizeCb hstep) (by simp)
  | truncateSync id =>
      obtain rfl := Except.ok.inj hstep
      exact hdoing.ended rfl (.reply _ id _) (by simp)
  | close id =>
      refine hdoing.ended rfl (.fileCloseAsync hstep) fun id' hid => ?_
      obtain rfl := Work.close.inj (hid.resolve_right (by simp))
      exact fileCloseAsync_answers hstep
  | closeBlob id =>
      obtain rfl := Except.ok.inj hstep
      refine hdoing.ended rfl (.reply _ id _) fun id' hid => ?_
      obtain rfl := Work.closeBlob.inj (hid.resolve_left (by simp))
      exact Or.inl ⟨_, List.mem_append_right _ List.mem_cons_self⟩

/-- A step keeps the invariant. -/
theorem step (h : Tended [] s) {e : FileEvent × Answer} (hserves : FlushServes s e)
    (hstep : FileSteps bs s e s') : Tended [] s' := by
  obtain ⟨event, a⟩ := e
  obtain ⟨-, hact⟩ := FileState.step_ok hstep
  have hclose : ∀ cb : SyncCb, cb.call = s.brk → (if a.request then s.ask.fileSync cb a
      else .ok (s.ask.reply s.brk (-ENOMEM))) = .ok s' → Tended [] s' := by
    intro cb hcb hclose
    split at hclose
    · exact h.fileSync hcb hclose
    · obtain rfl := Except.ok.inj hclose
      exact h.answered (.reply _ _ _) (Or.inl ⟨_, List.mem_append_right _ List.mem_cons_self⟩)
  cases event with
  | write offset payload =>
      obtain rfl := Except.ok.inj hact
      refine h.beside ?_
      unfold FileState.fileWrite
      split
      · exact .then_reply (.alloc s)
      split
      · exact .then_reply (.alloc s)
      · exact .then_send (.alloc s)
  | read offset length => exact h.beside (.fileRead hact)
  | sync => exact h.fileSync (show (SyncCb.client s.brk).call = s.brk from rfl) hact
  | closeAsync => exact hclose (.closeAsync s.brk) rfl hact
  | close => exact hclose (.close s.brk) rfl hact
  | truncate length =>
      simp only [FileState.act] at hact
      split at hact
      · obtain rfl := Except.ok.inj hact
        exact h.beside (.then_send (.alloc s))
      · obtain rfl := Except.ok.inj hact
        exact h.beside (.then_reply (.alloc s))
  | reclaim =>
      obtain rfl := Except.ok.inj hact
      exact h.beside (.reclaimCacheBuffers s)
  | free => exact h.beside (.fileFree hact)
  | complete i =>
      obtain ⟨w, hw, hperform⟩ := FileState.complete_ok hact
      exact h.complete hw hserves hperform

theorem initial (h : s.Initial bs) : Tended [] s := by
  have hrequests := h.syncRequests
  have hnotes := h.notes
  constructor
  all_goals simp [hrequests, hnotes]

end Tended

/-- In a run whose flushes serve the requests that wait, none is stranded. -/
theorem noneStranded_of_runs {bs : Blobstore} {start s : FileState} (hinitial : start.Initial bs)
    (hrun : Runs (FileSteps bs) FlushServes start s) : NoneStranded s :=
  (hrun.keeps (Tended.initial hinitial) fun h hserves hstep => h.step hserves hstep).noneStranded

/-- A byte is appended, past the cache, and synced. -/
theorem noneStranded_of_runs_one : ∃ s : FileState, s.pending = [] ∧
    s.notes.filterMap Note.calledRef = [2] ∧ NoneStranded s := by
  have hwrite : Runs (FileSteps oneMegabyte) FlushServes loadedByte _ :=
    .tail (e := (.complete 0, failure)) (.tail (e := (.complete 0, success))
      (.tail (e := (.complete 0, success)) (.one (e := (.write 1 [7], success)) trivial rfl)
        trivial rfl) trivial rfl) trivial rfl
  have hflush : Runs (FileSteps oneMegabyte) FlushServes loadedByte _ :=
    .tail (e := (.complete 0, success)) (.tail (e := (.complete 0, success))
      (.tail (e := (.sync, success)) hwrite trivial rfl) rfl rfl) trivial rfl
  have hsync : Runs (FileSteps oneMegabyte) FlushServes loadedByte _ :=
    .tail (e := (.complete 0, success)) (.tail (e := (.complete 0, success)) hflush trivial rfl)
      trivial rfl
  exact ⟨_, rfl, rfl, noneStranded_of_runs loadedByte_initial hsync⟩

/-- Where a readahead fills the buffer of the last bytes, a byte is appended after them, past the
cache, and synced.  The flush finds the buffer in progress; nothing comes back to the sync. -/
def syncsAhead : List (FileEvent × Answer) :=
  [(.read 0 (2 ^ 17), success), (.complete 1, { success with request := false }),
    (.write (2 ^ 18 + 1) [7], success), (.complete 1, success), (.sync, success),
    (.complete 2, success), (.complete 0, success), (.complete 0, success), (.complete 0, success),
    (.complete 0, success), (.complete 0, success), (.complete 0, success), (.complete 0, success)]

theorem noneStranded_syncsAhead : ¬ ∀ (bs : Blobstore) (start s : FileState), start.Initial bs →
    Runs (FileSteps bs) (fun _ e => e.1.isTruncate = false) start s → NoneStranded s := by
  intro hall
  obtain ⟨s, hrun, hpending, hrequests⟩ : ∃ s, Runs (FileSteps oneMegabyte)
      (fun _ e => e.1.isTruncate = false) loadedPartly s ∧ s.pending = [] ∧
        s.file.syncRequests.length = 1 := by
    have hrun : syncsAhead.foldlM (fun s e => if e.1.isTruncate = false then
        s.step oneMegabyte e.2 e.1 else .error .noEvent) loadedPartly = .ok _ := rfl
    exact ⟨_, Runs.of_events hrun, rfl, rfl⟩
  have hnone := (hall oneMegabyte loadedPartly s loadedPartly_initial hrun).requests
    (by simp [FileState.Idle, hpending])
  rw [hnone] at hrequests
  cases hrequests

end Nbfs.Cache
