import Nbfs.Cache.Durable
import Nbfs.Cache.FailedFlush

set_option autoImplicit false

/-!
# Writes that came back

A write through the cache goes from `spdk_file_write` over the extension of the blob to the
rounds of its loop, and each round copies a part of the payload to the end of the file.  When
it comes back with success its payload is in the file, and what a sync covers of it is on the
blob.
-/

namespace Nbfs.Cache

open Nbfs.Lib
open Nbfs.Async (Blobstore Stage ENOMEM)

/-- The call of a write through the cache, and what is left of its payload. -/
def Work.writing : Work → Option (Nat × List UInt8)
  | append id _ payload | extend id _ payload | extendResize id _ payload | extendSync id payload
  | startFill id payload | fill id _ payload _ => some (id, payload)
  | _ => none

/-- The client writes. -/
def FileEvent.isWrite : FileEvent → Bool
  | write .. => true
  | _ => false

namespace FileState

variable (s : FileState)

/-- The writes through the cache that are under way. -/
def writes : List (Nat × List UInt8) := s.pending.filterMap Work.writing

/-- A call that does not write goes on, or waits for its sync. -/
def Minds (id : Nat) : Prop :=
  (∃ w ∈ s.pending, w.writing = none ∧ w.call = some id) ∨
    ∃ r ∈ s.file.syncRequests, r.cb.call = id

/-- The payload is in the file. -/
def Reads (offset : Nat) (payload : List UInt8) : Prop :=
  ∀ k < payload.length, offset + k < s.file.appendPos ∧ s.view (offset + k) = payload.getD k 0

end FileState

/-- The bytes are kept, and a write begins when no other is under way. -/
def KeepsWrites (s : FileState) (e : FileEvent × Answer) : Prop :=
  KeepsBytes s e ∧ (e.1.isWrite = true → s.writes = [])

instance (s : FileState) (e : FileEvent × Answer) : Decidable (KeepsWrites s e) :=
  inferInstanceAs (Decidable (_ ∧ (_ → _)))

/-- A part of a step brings `n` bytes to the file and sends the writes `sent` on, and is for
`calls`, which may come back. -/
structure Speaks (calls : Nat → Prop) (n : Nat) (sent : List (Nat × List UInt8))
    (s s' : FileState) : Prop where
  brk : s.brk ≤ s'.brk
  appendPos : s'.file.appendPos = s.file.appendPos + n
  writes : s'.writes = s.writes ++ sent
  minds : ∀ id, s'.Minds id → s.Minds id ∨ calls id
  replies : ∀ id, .replied id 0 ∈ s'.notes → .replied id 0 ∈ s.notes ∨ calls id

namespace Speaks

variable {calls calls' : Nat → Prop} {n : Nat} {writes : List (Nat × List UInt8)}
  {s s' s'' : FileState} {bs : Blobstore} {a : Answer} {w : Work} {id : Nat}

/-- Other fields change. -/
theorem fields (hbrk : s.brk ≤ s'.brk) (happend : s'.file.appendPos = s.file.appendPos + n)
    (hrequests : s'.file.syncRequests = s.file.syncRequests) (hpending : s'.pending = s.pending)
    (hnotes : s'.notes = s.notes) : Speaks calls n [] s s' where
  brk := hbrk
  appendPos := happend
  writes := by rw [List.append_nil, FileState.writes, hpending, FileState.writes]
  minds := by
    unfold FileState.Minds
    rw [hpending, hrequests]
    exact fun id h => Or.inl h
  replies := hnotes ▸ fun id h => Or.inl h

theorem refl (s : FileState) : Speaks calls 0 [] s s :=
  fields (Nat.le_refl _) rfl rfl rfl rfl

theorem trans (h : Speaks calls n [] s s') (h' : Speaks calls 0 writes s' s'') :
    Speaks calls n writes s s'' where
  brk := h.brk.trans h'.brk
  appendPos := h'.appendPos.trans h.appendPos
  writes := by rw [h'.writes, h.writes, List.append_nil]
  minds := fun id hid => (h'.minds id hid).elim (h.minds id) Or.inr
  replies := fun id hid => (h'.replies id hid).elim (h.replies id) Or.inr

theorem mono (h : Speaks calls n writes s s') (hcalls : ∀ id, calls id → calls' id) :
    Speaks calls' n writes s s' :=
  { h with
    minds := fun id hid => (h.minds id hid).imp_right (hcalls id)
    replies := fun id hid => (h.replies id hid).imp_right (hcalls id) }

theorem send (s : FileState) (hw : w.writing = none → ∀ id, w.call = some id → calls id) :
    Speaks calls 0 w.writing.toList s (s.send w) where
  brk := Nat.le_refl _
  appendPos := rfl
  writes := by
    rw [FileState.writes, FileState.send, List.filterMap_append]
    cases hwriting : w.writing with
    | none => rw [List.filterMap_cons_none hwriting]; rfl
    | some x => rw [List.filterMap_cons_some hwriting]; rfl
  minds := by
    rintro id (⟨w', hw', hwriting, hcall⟩ | hrequest)
    · rcases List.mem_append.mp hw' with hold | hnew
      · exact Or.inl (Or.inl ⟨w', hold, hwriting, hcall⟩)
      · obtain rfl := List.mem_singleton.mp hnew
        exact Or.inr (hw hwriting id hcall)
    · exact Or.inl (Or.inr hrequest)
  replies := fun id h => Or.inl h

/-- Work of a call that does not write is sent. -/
theorem then_call (h : Speaks calls n [] s s') (hwriting : w.writing = none)
    (hw : ∀ id, w.call = some id → calls id) : Speaks calls n [] s (s'.send w) := by
  have hsent : Speaks calls 0 w.writing.toList s' (s'.send w) := send s' fun _ => hw
  rw [hwriting] at hsent
  exact h.trans hsent

/-- Work for the cache is sent. -/
theorem then_work (h : Speaks calls n [] s s') (hwriting : w.writing = none)
    (hcall : w.call = none) : Speaks calls n [] s (s'.send w) :=
  h.then_call hwriting fun id heq => by cases hcall.symm.trans heq

theorem noted {l : List Note} (hnotes : s'.notes = s.notes ++ l)
    (hl : ∀ id, .replied id 0 ∈ l → calls id)
    (hrest : Speaks calls n writes s { s' with notes := s.notes }) : Speaks calls n writes s s' :=
  { hrest with
    replies := fun id h => (List.mem_append.mp (hnotes ▸ h)).imp_right (hl id) }

theorem note {m : Note} (s : FileState) (hm : ∀ id, m = .replied id 0 → calls id) :
    Speaks calls 0 [] s (s.note m) :=
  noted rfl (fun id h => hm id (List.mem_singleton.mp h).symm) (refl s)

theorem reply {rc : Int} (s : FileState) (hid : rc = 0 → calls id) :
    Speaks calls 0 [] s (s.reply id rc) :=
  note s fun other heq => by
    obtain ⟨rfl, rfl⟩ := Note.replied.inj heq
    exact hid rfl

theorem then_reply {rc : Int} (h : Speaks calls n [] s s') (hid : rc = 0 → calls id) :
    Speaks calls n [] s (s'.reply id rc) := h.trans (reply s' hid)

theorem of_call (hid : calls id) : ∀ other, some id = some other → calls other := by
  rintro other heq
  exact Option.some.inj heq ▸ hid

/-! ### Parts of steps -/

theorem cacheAppendBuffer {ok : Bool} {r : Option BufRef}
    (h : s.cacheAppendBuffer ok = .ok (r, s')) : Speaks calls 0 [] s s' := by
  rcases (FileState.cacheAppendBuffer_ok h).2.2 with ⟨-, rfl⟩ | ⟨-, -, -, rfl⟩
  · exact refl _
  · exact fields (Nat.le_succ _) rfl rfl rfl rfl

theorem removed {l : List Note} (hnotes : s'.notes = s.notes ++ l)
    (hl : ∀ m ∈ l, ∃ buffer, m = .freed buffer)
    (hrest : Speaks calls 0 [] s { s' with notes := s.notes }) : Speaks calls 0 [] s s' := by
  refine noted hnotes (fun id hmem => ?_) hrest
  obtain ⟨buffer, heq⟩ := hl _ hmem
  cases heq

theorem treeFreeBuffers (s : FileState) : Speaks calls 0 [] s s.treeFreeBuffers := by
  refine removed rfl (fun m hmem => ?_) (fields (Nat.le_refl _) rfl rfl rfl rfl)
  obtain ⟨b, -, hb⟩ := List.mem_filterMap.mp hmem
  obtain ⟨buffer, -, rfl⟩ := Option.map_eq_some_iff.mp hb
  exact ⟨buffer, rfl⟩

theorem reclaimCacheBuffers (s : FileState) : Speaks calls 0 [] s s.reclaimCacheBuffers := by
  unfold FileState.reclaimCacheBuffers
  split
  · exact refl s
  dsimp only
  split
  · exact (treeFreeBuffers s).trans (fields (Nat.le_refl _) rfl rfl rfl rfl)
  · exact treeFreeBuffers s

theorem fileFree (h : s.fileFree = .ok s') : Speaks calls 0 [] s s' := by
  unfold FileState.fileFree at h
  split at h
  · obtain rfl := Except.ok.inj h
    exact fields (Nat.le_refl _) rfl rfl rfl rfl
  dsimp only at h
  split at h
  · obtain rfl := Except.ok.inj h
    exact (treeFreeBuffers s).trans (fields (Nat.le_refl _) rfl rfl rfl rfl)
  · cases h

theorem fileCloseAsync (hid : calls id) (h : s.fileCloseAsync id = .ok s') :
    Speaks calls 0 [] s s' := by
  rcases FileState.fileCloseAsync_ok h with rfl | rfl | rfl
  · exact reply s fun _ => hid
  · exact then_reply (fields (Nat.le_refl _) rfl rfl rfl rfl) fun _ => hid
  · exact then_call (fields (Nat.le_refl _) rfl rfl rfl rfl) rfl (of_call hid)

theorem callSyncCb {rc : Int} {cb : SyncCb} (hcb : calls cb.call)
    (h : s.callSyncCb rc cb = .ok s') : Speaks calls 0 [] s s' := by
  cases cb with
  | client id =>
      obtain rfl := Except.ok.inj h
      exact reply s fun _ => hcb
  | closeAsync id => exact fileCloseAsync hcb h
  | close id =>
      obtain rfl := Except.ok.inj h
      exact (refl s).then_call rfl (of_call hcb)

theorem checkSyncReqs (h : s.checkSyncReqs = .ok s') : Speaks calls 0 [] s s' := by
  rcases FileState.checkSyncReqs_ok h with rfl | ⟨r, hfind, -, -, rfl⟩
  · exact refl _
  refine then_work (w := .syncXattr r.ref) ?_ rfl rfl
  exact {
    brk := Nat.le_refl _
    appendPos := rfl
    writes := (List.append_nil _).symm
    minds := by
      rintro id (hw | ⟨q, hq, rfl⟩)
      · exact Or.inl (Or.inl hw)
      · obtain ⟨old, hold, rfl⟩ := List.mem_map.mp hq
        refine Or.inl (Or.inr ?_)
        split
        · exact ⟨r, List.mem_of_find?_eq_some hfind, rfl⟩
        · exact ⟨old, hold, rfl⟩
    replies := fun id hid => Or.inl hid }

theorem fileCacheFinishSync {ref : Nat} {bserrno : Int}
    (h : s.fileCacheFinishSync ref bserrno = .ok s') : Speaks s.Minds 0 [] s s' := by
  obtain ⟨r, hfind, -, s₁, hcb, rfl⟩ := FileState.fileCacheFinishSync_ok h
  have hcalled : Speaks s.Minds 0 [] s ((s.setFile { s.file with
      lengthXattr := r.length
      syncRequests := s.file.syncRequests.filter fun q : SyncRequest => q.ref ≠ ref }).note
      (.called ref r.offset s.file.lengthFlushed)) := by
    refine trans ?_ (note _ fun id heq => by cases heq)
    exact {
      brk := Nat.le_refl _
      appendPos := rfl
      writes := (List.append_nil _).symm
      minds := by
        rintro id (hw | ⟨q, hq, rfl⟩)
        · exact Or.inl (Or.inl hw)
        · exact Or.inl (Or.inr ⟨q, List.mem_of_mem_filter hq, rfl⟩)
      replies := fun id hid => Or.inl hid }
  have hcall : s.Minds r.cb.call := Or.inr ⟨r, List.mem_of_find?_eq_some hfind, rfl⟩
  exact (hcalled.trans (callSyncCb hcall hcb)).then_work rfl rfl

theorem fileSync {cb : SyncCb} (hcb : calls cb.call) (h : s.fileSync cb a = .ok s') :
    Speaks calls 0 [] s s' := by
  rcases FileState.fileSync_ok h with ⟨-, hcalled⟩ | hcalled | ⟨-, rfl⟩
  · exact callSyncCb hcb hcalled
  · exact callSyncCb hcb hcalled
  refine then_work (trans ?_ (note (m := .queued s.brk) _ fun id heq => by cases heq)) rfl rfl
  exact {
    brk := Nat.le_succ _
    appendPos := rfl
    writes := (List.append_nil _).symm
    minds := by
      rintro id (hw | ⟨q, hq, rfl⟩)
      · exact Or.inl (Or.inl hw)
      · rcases List.mem_append.mp hq with hold | hnew
        · exact Or.inl (Or.inr ⟨q, hold, rfl⟩)
        · obtain rfl := List.mem_singleton.mp hnew
          exact Or.inr hcb
    replies := fun id hid => Or.inl hid }

theorem fileFlush (h : s.fileFlush = .ok s') : Speaks calls 0 [] s s' := by
  rcases FileState.fileFlush_ok h with
    ⟨-, rfl⟩ | ⟨b, next, -, -, ⟨rfl, -⟩ | ⟨rfl, -⟩ | ⟨-, -, -, rfl⟩⟩
  · exact then_work (fields (Nat.le_refl _) rfl rfl rfl rfl) rfl rfl
  · exact refl _
  · exact (refl s).then_work rfl rfl
  · exact then_work (fields (Nat.le_refl _) rfl rfl rfl rfl) rfl rfl

theorem flushed {b : BufRef} {next : CacheBuffer} {offset length : Nat}
    (h : s.flushed bs b next offset length a = .ok s') : Speaks calls 0 [] s s' := by
  rcases FileState.flushed_ok h with ⟨-, rfl⟩ | ⟨-, -, rfl⟩
  all_goals
    refine trans (note (m := .wrote offset length a.bserrno) s fun id heq => by cases heq) ?_
    exact fields (Nat.le_refl _) rfl rfl rfl rfl

theorem checkReadahead {offset : Nat} {ok : Bool} (h : s.checkReadahead offset ok = .ok s') :
    Speaks calls 0 [] s s' := by
  rcases FileState.checkReadahead_ok h with rfl | ⟨-, -, -, rfl⟩
  · exact refl _
  · exact then_work (fields (Nat.le_succ _) rfl rfl rfl rfl) rfl rfl

theorem fileRead {offset length : Nat} (h : s.fileRead offset length a = .ok s') :
    Speaks calls 0 [] s s' := by
  rcases FileState.fileRead_ok h with rfl | ⟨n, s₁, -, haheads, rfl⟩
  · exact fields (Nat.le_refl _) rfl rfl rfl rfl
  have hseq : Speaks calls 0 [] s (s.sequential offset n) := fields (Nat.le_refl _) rfl rfl rfl rfl
  refine (hseq.trans ?_).then_work rfl rfl
  rcases FileState.checkReadaheads_ok haheads with rfl | ⟨-, s₂, hfirst, hsecond⟩
  · exact refl _
  · exact (checkReadahead hfirst).trans (checkReadahead hsecond)

theorem readRound {offset finalOffset : Nat} (h : s.readRound offset finalOffset a = .ok s') :
    Speaks calls 0 [] s s' := by
  rcases FileState.readRound_ok h with
    rfl | ⟨-, rfl⟩ | ⟨b, buffer, -, -, -, ⟨-, rfl⟩ | ⟨-, rfl⟩⟩
  · exact refl _
  · exact ((refl s).then_work rfl rfl).then_work rfl rfl
  · have hleft : Speaks calls 0 [] s (s.setFile (s.file.treeRemoveBuffer b)) :=
      fields (Nat.le_refl _) rfl rfl rfl rfl
    exact (hleft.trans (note (m := .freed buffer) _ fun id heq => by cases heq)).then_work
      rfl rfl
  · exact (refl s).then_work rfl rfl

theorem rwStage {op : Option Nat} {stage : Stage} (hop : ∀ id, op = some id → calls id)
    (h : s.rwStage op stage = .ok s') : Speaks calls 0 [] s s' := by
  rcases FileState.rwStage_ok h with ⟨rc, iov, -, ⟨-, rfl⟩ | ⟨id, rfl, rfl⟩⟩ | ⟨-, -, rfl⟩
  · exact refl _
  · exact reply s fun _ => hop id rfl
  · exact (refl s).then_call rfl hop

theorem fileTruncateAsync {length : Nat} (hid : calls id)
    (h : s.fileTruncateAsync id length a = .ok s') : Speaks calls 0 [] s s' := by
  rcases FileState.fileTruncateAsync_ok h with ⟨-, rfl⟩ | rfl | rfl
  · exact reply s fun _ => hid
  · exact reply s fun _ => hid
  · exact (refl s).then_call rfl (of_call hid)

/-! ### Steps -/

/-- Work of no write. -/
theorem perform (hw : w.writing = none) (hcall : ∀ id, w.call = some id → calls id)
    (hminds : ∀ id, s.Minds id → calls id) (hsuits : s.Suits w) (hcached : StaysCached s a w)
    (hstep : s.perform bs a w = .ok s') : Speaks calls 0 [] s s' := by
  cases w with
  | append | extend | extendResize | extendSync | startFill | fill => cases hw
  | rwFromFile id call => exact rwStage hcall hstep
  | rw id stage =>
      obtain ⟨rw, rfl, hread⟩ := hsuits
      obtain ⟨iov, hstage⟩ := FileState.rwRead_ok hread hstep
      exact rwStage hcall hstage
  | flush => exact fileFlush hstep
  | flushWrite b offset length =>
      obtain ⟨next, -, hstep⟩ := bind_ok.mp hstep
      obtain ⟨s₁, hwrite, hdone⟩ := bind_ok.mp hstep
      obtain rfl := FileState.fileFlushDone_ok hdone
      have hflushed : Speaks calls 0 [] s (s₁.flushDone b next length) :=
        (flushed hwrite).trans (fields (Nat.le_refl _) rfl rfl rfl rfl)
      exact hflushed.then_work rfl rfl
  | check thenFlush =>
      obtain ⟨s₁, hcheck, hret⟩ := bind_ok.mp hstep
      obtain rfl := Except.ok.inj hret
      split
      · exact (checkSyncReqs hcheck).then_work rfl rfl
      · exact checkSyncReqs hcheck
  | syncXattr ref => exact (fileCacheFinishSync hstep).mono hminds
  | readahead b length =>
      obtain rfl := Frame.readahead hstep
      exact (refl s).then_work rfl rfl
  | readaheadRead b length =>
      obtain ⟨buffer, -, hstep⟩ := bind_ok.mp hstep
      obtain ⟨s₁, hread, hret⟩ := bind_ok.mp hstep
      obtain rfl := Except.ok.inj hret
      obtain ⟨image, rfl, -⟩ := FileState.readAhead_ok hread
      exact fields (Nat.le_refl _) rfl rfl rfl rfl
  | readLoop offset finalOffset => exact readRound hstep
  | truncate id length => exact fileTruncateAsync (hcall id rfl) hstep
  | truncateResize id length =>
      rcases FileState.fsTruncateResizeCb_ok hstep with ⟨-, rfl⟩ | ⟨hzero, -⟩
      · exact reply s fun _ => hcall id rfl
      · exact absurd hzero hcached
  | truncateSync id =>
      obtain rfl := Except.ok.inj hstep
      exact reply s fun _ => hcall id rfl
  | close id => exact fileCloseAsync (hcall id rfl) hstep
  | closeBlob id =>
      obtain rfl := Except.ok.inj hstep
      exact reply s fun _ => hcall id rfl

/-- Work is taken that is of no write. -/
theorem take {i : Nat} (hw : s.pending[i]? = some w) (hwriting : w.writing = none) :
    Speaks calls 0 [] s (s.take i) where
  brk := Nat.le_refl _
  appendPos := rfl
  writes := by
    rw [List.append_nil]
    exact filterMap_taken hw hwriting
  minds := by
    rintro id (⟨w', hw', hminds⟩ | hrequest)
    · exact Or.inl (Or.inl ⟨w', mem_of_taken hw', hminds⟩)
    · exact Or.inl (Or.inr hrequest)
  replies := fun id hid => Or.inl hid

/-- A call that is no write; it may have a new number. -/
theorem act {e : FileEvent} (he : e.isWrite = false) (hcomplete : ∀ i, e ≠ .complete i)
    (hstep : s.act bs a e = .ok s') :
    Speaks (fun id => id = s.brk ∧ s.brk < s'.brk) 0 [] s s' := by
  have hnew : s.brk < s'.brk → Speaks (fun id => id = s.brk) 0 [] s s' →
      Speaks (fun id => id = s.brk ∧ s.brk < s'.brk) 0 [] s s' := fun hlt h =>
    h.mono fun id hid => ⟨hid, hlt⟩
  have halloc : Speaks (fun id => id = s.brk) 0 [] s s.alloc :=
    fields (Nat.le_succ _) rfl rfl rfl rfl
  have hask : Speaks (fun id => id = s.brk) 0 [] s s.ask :=
    halloc.trans (note s.alloc fun id heq => by cases heq)
  have hsync : ∀ cb : SyncCb, cb.call = s.brk → s.ask.fileSync cb a = .ok s' →
      Speaks (fun id => id = s.brk ∧ s.brk < s'.brk) 0 [] s s' := by
    intro cb hcb hsync
    have hsynced : Speaks (fun id => id = s.brk) 0 [] s.ask s' := fileSync hcb hsync
    exact hnew hsynced.brk (hask.trans hsynced)
  have hclose : ∀ cb : SyncCb, cb.call = s.brk → (if a.request then s.ask.fileSync cb a
      else .ok (s.ask.reply s.brk (-ENOMEM))) = .ok s' →
        Speaks (fun id => id = s.brk ∧ s.brk < s'.brk) 0 [] s s' := by
    intro cb hcb hclose
    split at hclose
    · exact hsync cb hcb hclose
    · obtain rfl := Except.ok.inj hclose
      exact hnew (Nat.lt_succ_self _) (hask.then_reply fun _ => rfl)
  cases e with
  | write offset payload => cases he
  | read offset length => exact fileRead hstep
  | sync => exact hsync (.client s.brk) rfl hstep
  | closeAsync => exact hclose _ rfl hstep
  | close => exact hclose _ rfl hstep
  | truncate length =>
      simp only [FileState.act] at hstep
      split at hstep
      all_goals obtain rfl := Except.ok.inj hstep
      · exact hnew (Nat.lt_succ_self _) (halloc.then_call rfl (of_call rfl))
      · exact hnew (Nat.lt_succ_self _) (halloc.then_reply fun _ => rfl)
  | reclaim =>
      obtain rfl := Except.ok.inj hstep
      exact reclaimCacheBuffers s
  | free => exact fileFree hstep
  | complete i => exact absurd rfl (hcomplete i)

end Speaks

/-- What comes of a write that has `rest` left: `n` more bytes are in the file, and it goes on,
fails, or comes back after the last one. -/
def Advances (id : Nat) (rest : List UInt8) (s s' : FileState) : Prop :=
  ∃ n ≤ rest.length,
    (∀ k < n, s'.view (s.file.appendPos + k) = rest.getD k 0) ∧
      (Speaks (fun _ => False) n [(id, rest.drop n)] s s' ∨ Speaks (fun _ => False) n [] s s' ∨
        rest = [] ∧ Speaks (fun other => other = id) n [] s s')

namespace Advances

variable {s s' : FileState} {bs : Blobstore} {a : Answer} {b : BufRef} {id : Nat}
  {rest : List UInt8}

/-- No byte is copied. -/
theorem of_speaks (h : Speaks (fun _ => False) 0 [(id, rest)] s s' ∨
    Speaks (fun _ => False) 0 [] s s') : Advances id rest s s' :=
  ⟨0, Nat.zero_le _, fun k hk => absurd hk (Nat.not_lt_zero k), h.imp_right Or.inl⟩

theorem fails {rc : Int} (hrc : rc ≠ 0) (h : Speaks (fun _ => False) 0 [] s s') :
    Advances id rest s (s'.reply id rc) := of_speaks (Or.inr (h.then_reply hrc))

theorem startFill {s₁ : FileState} (hfirst : Speaks (fun _ => False) 0 [] s s₁)
    (hstep : s₁.startFill id rest a = .ok s') : Advances id rest s s' := by
  rcases FileState.startFill_ok hstep with rfl | ⟨last, -, rfl⟩
  · exact fails (by decide) hfirst
  · exact of_speaks (Or.inl (hfirst.trans (.send (w := .fill id last rest 0) _ fun hnone => by
      cases hnone)))

theorem append {offset : Nat} (hcached : ¬ s.GoesPast a)
    (hstep : s.append bs id offset rest a = .ok s') : Advances id rest s s' := by
  obtain ⟨s₁, hopen, hnext⟩ := FileState.append_ok hstep
  have hopened : Speaks (fun _ => False) 0 [] s s.opened :=
    .fields (Nat.le_refl _) rfl rfl rfl rfl
  have hfirst : Speaks (fun _ => False) 0 [] s s₁ := by
    rcases FileState.openLast_ok hopen with ⟨rfl, -⟩ | ⟨-, -, r, happend⟩
    · exact hopened
    · exact hopened.trans (.cacheAppendBuffer happend)
  rcases hnext with ⟨hnone, -⟩ | ⟨-, -, ⟨-, rfl⟩ | ⟨-, hfill⟩⟩
  · exact absurd (FileState.openLast_none hopen hnone).1 hcached
  · exact of_speaks (Or.inl (hfirst.trans (.send (w := .extend id _ rest) _ fun hnone => by
      cases hnone)))
  · exact startFill hfirst hfill

theorem fillRound {filled : Nat} (h : Backed bs s)
    (hheap : Heap True (s.held (.fill id b rest filled)))
    (hb : s.AtEndOrFull b)
    (hn : s.file.appendPos + rest.length < 2 ^ 64)
    (hstep : s.fillRound id b rest filled a = .ok s') : Advances id rest s s' := by
  obtain ⟨last, hlast, hround⟩ := FileState.fillRound_ok hstep
  have hsits := hheap.sits b last hlast
  have hcopied := (hheap.copied rfl hlast rest).drop rfl
  have hends : 0 < FileState.fillLength last rest → _ :=
    FileState.copies_at_end hsits.filled hlast hb
  have hle : FileState.fillLength last rest ≤ rest.length := Nat.min_le_right _ _
  have happend : (s.copied b last rest).file.appendPos =
      s.file.appendPos + FileState.fillLength last rest := Nat.mod_eq_of_lt (by omega)
  have hview : ∀ k < FileState.fillLength last rest,
      (s.copied b last rest).view (s.file.appendPos + k) = rest.getD k 0 := by
    intro k hk
    rw [← hends (Nat.zero_lt_of_lt hk)]
    exact FileState.view_copied_inside (hheap.drop rfl) hcopied hlast hk
  have hgrown : Speaks (fun _ => False) (FileState.fillLength last rest) [] s
      (s.copied b last rest) := .fields (Nat.le_refl _) happend rfl rfl rfl
  refine ⟨_, hle, ?_⟩
  rcases hround with ⟨-, rfl⟩ | ⟨-, r, s₁, hinsert, hnext⟩
  · exact ⟨hview, Or.inl (hgrown.trans (.send (w := .fill id b _ filled) _ fun hnone => by
      cases hnone))⟩
  have h₁ := h.copied hlast ⟨hsits.flushed, hsits.filled⟩ hends hn
  have hsame := (h₁.cacheAppendBuffer hcopied hinsert).2
  have hview₁ : ∀ k < FileState.fillLength last rest,
      s₁.view (s.file.appendPos + k) = rest.getD k 0 := fun k hk =>
    (hsame.view _ (happend ▸ Nat.add_lt_add_left hk _)).trans (hview k hk)
  have hinserted := hgrown.trans (.cacheAppendBuffer hinsert)
  rcases hnext with ⟨c, -, rfl⟩ | ⟨-, rfl⟩
  · exact ⟨hview₁, Or.inl (hinserted.trans (.send (w := .fill id c _ (filled + 1)) _
      fun hnone => by cases hnone))⟩
  · exact ⟨hview₁, Or.inr (Or.inl (hinserted.then_reply (by decide)))⟩

theorem perform {w : Work} (h : Backed bs s) (hheap : Heap True (s.held w))
    (hw : w.writing = some (id, rest)) (hb : ∀ b, w.target = some b → s.AtEndOrFull b)
    (hn : ∀ n ∈ w.fills, s.file.appendPos + n < 2 ^ 64) (hcached : StaysCached s a w)
    (hstep : s.perform bs a w = .ok s') : Advances id rest s s' := by
  cases w with
  | append id offset payload =>
      obtain ⟨rfl, rfl⟩ := Prod.mk.inj (Option.some.inj hw)
      exact append hcached hstep
  | extend id numClusters payload =>
      obtain ⟨rfl, rfl⟩ := Prod.mk.inj (Option.some.inj hw)
      obtain ⟨-, rfl⟩ := FileState.blobOp_ok hstep
      exact of_speaks (Or.inl (.send (w := .extendResize id numClusters payload) s fun hnone => by
        cases hnone))
  | extendResize id numClusters payload =>
      obtain ⟨rfl, rfl⟩ := Prod.mk.inj (Option.some.inj hw)
      simp only [FileState.perform] at hstep
      split at hstep
      · obtain rfl := Except.ok.inj hstep
        exact fails ‹_› (.refl s)
      · obtain ⟨-, rfl⟩ := FileState.blobOp_ok hstep
        have hresized : Speaks (fun _ => False) 0 [] s
            { s with blob := s.blob.resize bs numClusters a.contents } :=
          .fields (Nat.le_refl _) rfl rfl rfl rfl
        exact of_speaks (Or.inl (hresized.trans (.send (w := .extendSync id payload) _
          fun hnone => by cases hnone)))
  | extendSync id payload =>
      obtain ⟨rfl, rfl⟩ := Prod.mk.inj (Option.some.inj hw)
      simp only [FileState.perform] at hstep
      split at hstep
      all_goals obtain rfl := Except.ok.inj hstep
      · exact fails ‹_› (.refl s)
      · exact of_speaks (Or.inl (.send (w := .startFill id payload) s fun hnone => by
          cases hnone))
  | startFill id payload =>
      obtain ⟨rfl, rfl⟩ := Prod.mk.inj (Option.some.inj hw)
      exact startFill (.refl s) hstep
  | fill id b payload filled =>
      obtain ⟨rfl, rfl⟩ := Prod.mk.inj (Option.some.inj hw)
      simp only [FileState.perform] at hstep
      split at hstep
      · rename_i hempty
        obtain rfl := Except.ok.inj hstep
        refine ⟨0, Nat.zero_le _, fun k hk => absurd hk (Nat.not_lt_zero k),
          Or.inr (Or.inr ⟨hempty, ?_⟩)⟩
        unfold FileState.endFill
        split
        · exact .reply s fun _ => rfl
        · exact Speaks.then_work (.reply s fun _ => rfl) rfl rfl
      · exact fillRound h hheap (hb b rfl) (hn _ rfl) hstep
  | _ => cases hw

end Advances

/-! ### Runs -/

theorem StaysCached.take {s : FileState} {a : Answer} {w : Work} {i : Nat}
    (h : StaysCached s a w) : StaysCached (s.take i) a w := by
  cases w with
  | _ => exact h

theorem FileState.Suits.take {s : FileState} {w : Work} {i : Nat} (h : s.Suits w) :
    (s.take i).Suits w := by
  cases w with
  | _ => exact h

theorem FileState.writes_taken {s : FileState} {i : Nat} {w : Work} {x : Nat × List UInt8}
    (hw : s.pending[i]? = some w) (hx : w.writing = some x) :
    s.writes.Perm (x :: (s.take i).writes) := by
  have hperm := (taken_perm hw).filterMap Work.writing
  rwa [List.filterMap_cons_some hx] at hperm

/-- What a step can do: a write begins while no other is under way, one goes on, or none does. -/
inductive Turns (s s' : FileState) : Prop where
  | calls (hs : Speaks (fun id => s.Minds id ∨ id = s.brk ∧ s.brk < s'.brk) 0 [] s s')
  | begins (payload : List UInt8) (hnone : s.writes = []) (hlt : s.brk < s'.brk)
      (hs : Speaks (fun _ => False) 0 [(s.brk, payload)] s s')
  | advances (i : Nat) (w : Work) (id : Nat) (rest : List UInt8) (hw : s.pending[i]? = some w)
      (hwriting : w.writing = some (id, rest)) (hadvances : Advances id rest (s.take i) s')

theorem Turns.brk {s s' : FileState} (h : Turns s s') : s.brk ≤ s'.brk := by
  cases h with
  | calls hs => exact hs.brk
  | begins _ _ _ hs => exact hs.brk
  | advances _ _ _ _ _ _ hadvances =>
      obtain ⟨n, -, -, hs | hs | ⟨-, hs⟩⟩ := hadvances
      · exact hs.brk
      · exact hs.brk
      · exact hs.brk

/-- A call of `spdk_file_write` with a new number. -/
theorem Turns.fileWrite {s : FileState} {offset : Nat} {payload : List UInt8}
    (hnone : s.writes = []) : Turns s (s.fileWrite offset payload) := by
  have halloc : ∀ calls, Speaks calls 0 [] s s.alloc := fun calls =>
    .fields (Nat.le_succ _) rfl rfl rfl rfl
  unfold FileState.fileWrite
  split
  · exact .calls ((halloc _).then_reply fun _ => Or.inr ⟨rfl, Nat.lt_succ_self _⟩)
  split
  · exact .calls ((halloc _).then_reply fun _ => Or.inr ⟨rfl, Nat.lt_succ_self _⟩)
  · exact .begins payload hnone (Nat.lt_succ_self _)
      ((halloc _).trans (.send (w := .append s.brk offset payload) _ fun hnone => by cases hnone))

theorem Whole.turns {bs : Blobstore} {s s' : FileState} (h : Whole bs s) {e : FileEvent × Answer}
    (hkeeps : KeepsWrites s e) (hstep : FileSteps bs s e s') : Turns s s' := by
  obtain ⟨event, a⟩ := e
  obtain ⟨-, hact⟩ := FileState.step_ok hstep
  obtain ⟨hkept, hone⟩ := hkeeps
  have hcall : event.isWrite = false → (∀ i, event ≠ .complete i) → Turns s s' :=
    fun he hcomplete => .calls ((Speaks.act he hcomplete hact).mono fun _ => Or.inr)
  cases event with
  | write offset payload =>
      obtain rfl := Except.ok.inj hact
      exact .fileWrite (hone rfl)
  | complete i =>
      obtain ⟨w, hw, hperform⟩ := FileState.complete_ok hact
      have hcached := hkept.cached w hw
      cases hwriting : w.writing with
      | some x =>
          obtain ⟨id, rest⟩ := x
          refine .advances i w id rest hw hwriting ?_
          have hfills : ∀ b, w.target = some b → s.AtEndOrFull b := fun b hb =>
            FileState.atEndOrFull h.tail (mem_taken hw) hb
          exact Advances.perform (h.backed.take i) (h.heap.taken hw) hwriting hfills
            (hkept.last.1 w hw).1 hcached.take hperform
      | none =>
          have htaken : Speaks s.Minds 0 [] s (s.take i) := .take hw hwriting
          have hminds : ∀ id, (s.take i).Minds id → s.Minds id := fun id hid =>
            (htaken.minds id hid).elim (fun hid => hid) fun hid => hid
          refine .calls ((htaken.trans ?_).mono fun _ => Or.inl)
          exact .perform hwriting (fun id hcall => Or.inl ⟨w, mem_taken hw, hwriting, hcall⟩) hminds
            (h.backed.works w (mem_taken hw)).take hcached.take hperform
  | read | sync | closeAsync | close | truncate | reclaim | free =>
      exact hcall rfl fun i heq => by cases heq

/-- The numbers of calls are below the next one. -/
structure Fresh (s : FileState) : Prop where
  writes : ∀ x ∈ s.writes, x.1 < s.brk
  minds : ∀ id, s.Minds id → id < s.brk
  replies : ∀ id, .replied id 0 ∈ s.notes → id < s.brk

namespace Fresh

variable {s s' : FileState}

theorem speaks {calls : Nat → Prop} {n : Nat} {writes : List (Nat × List UInt8)} (h : Fresh s)
    (hs : Speaks calls n writes s s') (hwrites : ∀ x ∈ writes, x.1 < s'.brk)
    (hcalls : ∀ id, calls id → id < s'.brk) : Fresh s' where
  writes := by
    rw [hs.writes]
    intro x hx
    rcases List.mem_append.mp hx with hold | hnew
    · exact (h.writes x hold).trans_le hs.brk
    · exact hwrites x hnew
  minds := fun id hid => (hs.minds id hid).elim (fun hold => (h.minds id hold).trans_le hs.brk)
    (hcalls id)
  replies := fun id hid => (hs.replies id hid).elim
    (fun hold => (h.replies id hold).trans_le hs.brk) (hcalls id)

theorem take {i : Nat} (h : Fresh s) : Fresh (s.take i) where
  writes := by
    intro x hx
    obtain ⟨w, hw, hwriting⟩ := List.mem_filterMap.mp hx
    exact h.writes x (List.mem_filterMap.mpr ⟨w, mem_of_taken hw, hwriting⟩)
  minds := by
    rintro id (⟨w, hw, hminds⟩ | hrequest)
    · exact h.minds id (Or.inl ⟨w, mem_of_taken hw, hminds⟩)
    · exact h.minds id (Or.inr hrequest)
  replies := h.replies

theorem turns (h : Fresh s) (hturns : Turns s s') : Fresh s' := by
  cases hturns with
  | calls hs =>
      refine h.speaks hs (by simp) fun id hid => ?_
      rcases hid with hold | ⟨rfl, hlt⟩
      · exact (h.minds id hold).trans_le hs.brk
      · exact hlt
  | begins payload _ hlt hs =>
      exact h.speaks hs (by simpa using hlt) fun id => False.elim
  | advances i w id rest hw hwriting hadvances =>
      have hid : id < s.brk := h.writes _ (List.mem_filterMap.mpr ⟨w, mem_taken hw, hwriting⟩)
      obtain ⟨n, -, -, hs | hs | ⟨-, hs⟩⟩ := hadvances
      · exact h.take.speaks hs (by simpa using hid.trans_le hs.brk) fun id => False.elim
      · exact h.take.speaks hs (by simp) fun id => False.elim
      · refine h.take.speaks hs (by simp) fun other hother => ?_
        exact hother ▸ hid.trans_le hs.brk

theorem initial {bs : Blobstore} (h : s.Initial bs) : Fresh s where
  writes := by simp [FileState.writes, h.pending]
  minds := by simp [FileState.Minds, h.pending, h.syncRequests]
  replies := by simp [h.notes]

end Fresh

/-- How far the write `id` of `payload` is: it is the only one, and what it has copied is in
the file; or all of its payload is; or it failed. -/
inductive Stands (id offset : Nat) (payload : List UInt8) (s : FileState) : Prop where
  | underWay (done : Nat) (hwrites : s.writes = [(id, payload.drop done)])
      (hdone : done ≤ payload.length) (hplace : s.file.appendPos = offset + done)
      (hreads : ∀ k < done, s.view (offset + k) = payload.getD k 0) (hminds : ¬ s.Minds id)
      (hreply : .replied id 0 ∉ s.notes)
  | whole (hreads : s.Reads offset payload)
  | failed (hwrites : ∀ x ∈ s.writes, x.1 ≠ id) (hminds : ¬ s.Minds id)
      (hreply : .replied id 0 ∉ s.notes)

theorem SameBytes.reads {s s' : FileState} {offset : Nat} {payload : List UInt8}
    (h : SameBytes s s') (hreads : s.Reads offset payload) : s'.Reads offset payload := by
  intro k hk
  obtain ⟨hlt, hview⟩ := hreads k hk
  exact ⟨hlt.trans_le h.appendPos, (h.view _ hlt).trans hview⟩

namespace Stands

variable {id offset : Nat} {payload : List UInt8} {s s' : FileState}

/-- Another write goes on, or a call that is none. -/
theorem others {calls : Nat → Prop} {n : Nat} {writes : List (Nat × List UInt8)}
    (hwrites : ∀ x ∈ s.writes, x.1 ≠ id) (hminds : ¬ s.Minds id) (hreply : .replied id 0 ∉ s.notes)
    (hs : Speaks calls n writes s s') (hnew : ∀ x ∈ writes, x.1 ≠ id) (hcalls : ¬ calls id) :
    Stands id offset payload s' := by
  refine .failed (fun x hx => ?_) (fun hid => ?_) fun hid => ?_
  · rw [hs.writes] at hx
    exact (List.mem_append.mp hx).elim (hwrites x) (hnew x)
  · exact (hs.minds id hid).elim hminds hcalls
  · exact (hs.replies id hid).elim hreply hcalls

/-- The write copies a part of its payload. -/
theorem copies {rest : List UInt8} {done : Nat} {t : FileState} (hrest : rest = payload.drop done)
    (hdone : done ≤ payload.length) (hplace : t.file.appendPos = offset + done)
    (hreads : ∀ k < done, s'.view (offset + k) = payload.getD k 0)
    (hwrites : t.writes = []) (hminds : ¬ t.Minds id) (hreply : .replied id 0 ∉ t.notes)
    (hadvances : Advances id rest t s') : Stands id offset payload s' := by
  subst hrest
  obtain ⟨n, hle, hview, hs⟩ := hadvances
  rw [List.length_drop] at hle
  rcases hs with hs | hs | ⟨hempty, hs⟩
  · refine .underWay (done + n) ?_ (by omega) ?_ (fun k hk => ?_) (fun hid => ?_) fun hid => ?_
    · rw [hs.writes, hwrites, List.drop_drop, List.nil_append]
    · rw [hs.appendPos, hplace, Nat.add_assoc]
    · rcases Nat.lt_or_ge k done with hlt | hge
      · exact hreads k hlt
      · have hnew := hview (k - done) (by omega)
        rw [hplace, Nat.add_assoc, Nat.add_sub_cancel' hge] at hnew
        rw [hnew, List.getD_eq_getElem?_getD, List.getElem?_drop, Nat.add_sub_cancel' hge,
          List.getD_eq_getElem?_getD]
    · exact (hs.minds id hid).elim hminds fun hfalse => hfalse
    · exact (hs.replies id hid).elim hreply fun hfalse => hfalse
  · exact others (by simp [hwrites]) hminds hreply hs (by simp) fun hfalse => hfalse
  · have hall : payload.length = done :=
      Nat.le_antisymm (List.drop_eq_nil_iff.mp hempty) hdone
    refine .whole fun k hk => ⟨?_, hreads k (hall ▸ hk)⟩
    rw [hs.appendPos, hplace]
    omega

theorem turns (h : Stands id offset payload s) (hid : id < s.brk) (hturns : Turns s s')
    (hsame : SameBytes s s') : Stands id offset payload s' := by
  have hne : ∀ other, other = s.brk → other ≠ id := by
    rintro other rfl
    exact Nat.ne_of_gt hid
  cases h with
  | whole hreads => exact .whole (hsame.reads hreads)
  | underWay done hwrites hdone hplace hreads hminds hreply =>
      have hreads' : ∀ k < done, s'.view (offset + k) = payload.getD k 0 := fun k hk =>
        (hsame.view _ (by omega)).trans (hreads k hk)
      cases hturns with
      | calls hs =>
          have hcalls : ¬ (s.Minds id ∨ id = s.brk ∧ s.brk < s'.brk) := by
            rintro (hold | ⟨heq, -⟩)
            · exact hminds hold
            · exact hne id heq rfl
          refine .underWay done (by rw [hs.writes, hwrites, List.append_nil]) hdone
            (hs.appendPos.trans hplace) hreads' ?_ ?_
          · exact fun hold => (hs.minds id hold).elim hminds hcalls
          · exact fun hold => (hs.replies id hold).elim hreply hcalls
      | begins _ hnone => cases hnone.symm.trans hwrites
      | advances i w id' rest hw hwriting hadvances =>
          have hperm := FileState.writes_taken hw hwriting
          rw [hwrites] at hperm
          obtain ⟨hx, hnone⟩ := List.cons.inj (List.singleton_perm.mp hperm)
          obtain ⟨rfl, rfl⟩ := Prod.mk.inj hx
          refine copies (t := s.take i) rfl hdone hplace hreads' hnone.symm
            (fun hold => hminds ?_) hreply hadvances
          rcases hold with ⟨w', hw', hwork⟩ | hrequest
          · exact Or.inl ⟨w', mem_of_taken hw', hwork⟩
          · exact Or.inr hrequest
  | failed hwrites hminds hreply =>
      cases hturns with
      | calls hs =>
          refine others hwrites hminds hreply hs (by simp) ?_
          rintro (hold | ⟨heq, -⟩)
          · exact hminds hold
          · exact hne id heq rfl
      | begins rest _ _ hs =>
          exact others hwrites hminds hreply hs (by simpa using hne _ rfl) fun hfalse => hfalse
      | advances i w id' rest hw hwriting hadvances =>
          have hother : id' ≠ id :=
            hwrites _ (List.mem_filterMap.mpr ⟨w, mem_taken hw, hwriting⟩)
          have hwrites' : ∀ x ∈ (s.take i).writes, x.1 ≠ id := fun x hx =>
            hwrites x ((FileState.writes_taken hw hwriting).mem_iff.mpr (List.mem_cons_of_mem _ hx))
          have hminds' : ¬ (s.take i).Minds id := by
            rintro (⟨w', hw', hwork⟩ | hrequest)
            · exact hminds (Or.inl ⟨w', mem_of_taken hw', hwork⟩)
            · exact hminds (Or.inr hrequest)
          obtain ⟨n, -, -, hs | hs | ⟨-, hs⟩⟩ := hadvances
          · exact others hwrites' hminds' hreply hs (by simpa using hother) fun hfalse => hfalse
          · exact others hwrites' hminds' hreply hs (by simp) fun hfalse => hfalse
          · exact others hwrites' hminds' hreply hs (by simp) hother.symm

/-- A write begins. -/
theorem fileWrite (h : Fresh s) (hnone : s.writes = []) :
    Stands s.brk offset payload (s.fileWrite offset payload) := by
  have hminds : ¬ s.Minds s.brk := fun hid => Nat.lt_irrefl _ (h.minds _ hid)
  have hreply : .replied s.brk 0 ∉ s.notes := fun hid => Nat.lt_irrefl _ (h.replies _ hid)
  have halloc : ∀ calls, Speaks calls 0 [] s s.alloc := fun calls =>
    .fields (Nat.le_succ _) rfl rfl rfl rfl
  unfold FileState.fileWrite
  split
  · rename_i hempty
    exact .whole fun k hk => by simp [hempty] at hk
  split
  · exact others (by simp [hnone]) hminds hreply
      ((halloc fun _ => False).then_reply (by decide)) (by simp) fun hfalse => hfalse
  · rename_i hplace
    have hs : Speaks (fun _ => False) 0 [(s.brk, payload)] s
        (s.alloc.send (.append s.brk offset payload)) :=
      (halloc _).trans (.send (w := .append s.brk offset payload) _ fun hnone => by cases hnone)
    refine .underWay 0 ?_ (Nat.zero_le _) (not_not.mp hplace).symm
      (fun k hk => absurd hk (Nat.not_lt_zero k)) (fun hid => ?_) fun hid => ?_
    · rw [hs.writes, hnone]
      rfl
    · exact (hs.minds _ hid).elim hminds fun hfalse => hfalse
    · exact (hs.replies _ hid).elim hreply fun hfalse => hfalse

theorem begins {bs : Blobstore} {s t : FileState} {offset : Nat} {payload : List UInt8} {a : Answer}
    (h : Fresh s) (hkeeps : KeepsWrites s (.write offset payload, a))
    (hwrite : FileSteps bs s (.write offset payload, a) t) :
    Stands s.brk offset payload t ∧ s.brk < t.brk := by
  obtain ⟨-, hact⟩ := FileState.step_ok hwrite
  obtain rfl := Except.ok.inj hact
  refine ⟨.fileWrite h (hkeeps.2 rfl), ?_⟩
  unfold FileState.fileWrite
  split
  · exact Nat.lt_succ_self _
  split
  · exact Nat.lt_succ_self _
  · exact Nat.lt_succ_self _

/-- A write that came back with success has its payload in the file. -/
theorem reads (h : Stands id offset payload s) (hreply : .replied id 0 ∈ s.notes) :
    s.Reads offset payload := by
  cases h with
  | underWay _ _ _ _ _ _ hnot => exact absurd hreply hnot
  | whole hreads => exact hreads
  | failed _ _ hnot => exact absurd hreply hnot

end Stands

end Nbfs.Cache
