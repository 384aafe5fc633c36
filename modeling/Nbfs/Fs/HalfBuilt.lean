import Nbfs.Fs.RefCount

set_option autoImplicit false

/-!
# Files that are half built

A file is found by its name before its blob exists, and counted as open before its
blob is.  A request that meets such a file uses `blobid` or `blob` before it is set.
-/

namespace Nbfs.Fs

open Nbfs.Lib

/-- The callback goes on with a rename. -/
def FileOp.renames : FileOp → Bool
  | fsRenameDeleteDone .. => true
  | _ => false

/-- The callback goes on with an open or a rename. -/
def FileOp.opens : FileOp → Bool
  | fsOpenBlobCreateCb .. | fsRenameDeleteDone .. => true
  | _ => false

/-- A blob that is opened or deleted through a file's `blobid` before that is set. -/
def BsOp.unset : BsOp → Bool
  | openBlob _ blobid => blobid.isNone
  | deleteBlob blobid _ => blobid.isNone
  | renameOpen blobid _ _ => blobid.isNone
  | _ => false

/-- The open of a file's blob. -/
def BsOp.openFor (r : FileRef) : BsOp → Bool
  | openBlob r' _ => decide (r' = r)
  | _ => false

/-- The step does not use `file->blob` while it is NULL, and asks for no blob through a
`blobid` that is not set. -/
structure SetBeforeUse (s : Filesystem) (e : Event) : Prop where
  blob : step s e ≠ .error .nullBlob
  blobid : ∀ s', step s e = .ok s' → ∀ op ∈ s'.pending, op.unset = false

/-- The file that an open goes on with: at its start, or when the file was created for it. -/
def Event.opens (s : Filesystem) : Event → Option FileRef
  | .open name _ _ _ => s.names name
  | .complete i _ _ =>
      match s.pending[i]? with
      | some (.createClose _ _ (.fsOpenBlobCreateCb name _)) => s.names name
      | _ => none
  | _ => none

/-- The file that a deletion finds: at its start, or after the last close of a file. -/
def Event.deletes (s : Filesystem) : Event → Option FileRef
  | .delete name _ _ => s.names name
  | .complete i _ _ =>
      match s.pending[i]? with
      | some (.closeBlob r _ _) => (s.files r).bind fun f => f.name.bind s.names
      | _ => none
  | _ => none

/-- Which allocations of a step succeed. -/
def Event.mem : Event → Memory
  | create _ _ mem | .open _ _ _ mem | delete _ _ mem | close _ _ mem | complete _ _ mem => mem

/-- Blobstore operations succeed, as does `alloc_fs_request` in a creation.  No open and
no deletion finds a file that still waits for `spdk_bs_create_blob`, and no deletion one
that waits for `spdk_bs_open_blob`. -/
structure MeetsBuilt (s : Filesystem) (e : Event) : Prop where
  room : ∀ r f, s.files r = some f → f.refCount + 1 < 2 ^ 32
  succeeds : ∀ i answer mem, e = .complete i answer mem → answer.bserrno = 0 ∧ answer.blob ≠ none
  request : e.mem.createRequest = true
  created : ∀ r, e.opens s = some r ∨ e.deletes s = some r → ∀ fn, .createBlob r fn ∉ s.pending
  opened : ∀ r, e.deletes s = some r → ∀ blobid, .openBlob r blobid ∉ s.pending

/-- What may wait, where nothing is renamed: blobs are named by an id that is set, and a
deletion calls back a client or a close. -/
def BsOp.sound : BsOp → Bool
  | openBlob _ blobid => blobid.isSome
  | deleteBlob blobid fn => blobid.isSome && !fn.opens
  | syncDeleted _ fn => !fn.opens
  | createBlob _ fn | createOpen _ _ fn | createResize _ _ fn | createClose _ _ fn => !fn.renames
  | renameOpen .. | renameClose .. => false
  | _ => true

/-- The opens of the file's blob that wait. -/
def Filesystem.opening (s : Filesystem) (r : FileRef) : Nat := s.pending.countP (BsOp.openFor r)

/-- A file's queue, count and blob: at rest, or waiting for its blob. -/
def SpdkFile.Settled (f : SpdkFile) : Prop :=
  f.openRequests = [] ∧ (0 < f.refCount ↔ f.blob ≠ none)

def SpdkFile.Waiting (f : SpdkFile) : Prop :=
  f.blob = none ∧ f.openRequests ≠ [] ∧ f.refCount = f.openRequests.length

/-- The invariant: a file without `blobid` is being created, one whose blob is being
opened has only waiting users, and any other has its blob as long as it has users. -/
structure Built (s : Filesystem) : Prop where
  sound : ∀ op ∈ s.pending, op.sound = true
  blobid : ∀ r f, s.files r = some f → f.blobid = none → ∃ fn, .createBlob r fn ∈ s.pending
  file : ∀ r f, s.files r = some f →
    s.opening r = 0 ∧ f.Settled ∨ s.opening r = 1 ∧ f.Waiting
  unborn : ∀ r, s.brk ≤ r → s.files r = none ∧ s.opening r = 0

theorem BsOp.sound_unset {op : BsOp} (h : op.sound = true) : op.unset = false := by
  cases op <;> simp_all [BsOp.sound, BsOp.unset]

namespace Built

variable {s s' : Filesystem} {r : FileRef} {fn : FileOp} {cb : CallRef} {mem : Memory}
  {name : CString}

theorem initial (h : Initial s) : Built s := by
  have hopening : ∀ r, s.opening r = 0 := by
    intro r
    simp [Filesystem.opening, h.pending]
  refine ⟨by simp [h.pending], fun r f hf hnone => ?_, fun r f hf => ?_, fun r hr =>
    ⟨?_, hopening r⟩⟩
  · exact absurd hnone (h.named r f hf).1
  · obtain ⟨hblob, hcount, -, hqueue⟩ := h.closed r f hf
    exact Or.inl ⟨hopening r, hqueue, by simp [hcount, hblob]⟩
  · exact ((Counted.initial h).unborn r hr).1

/-- Replies and handles do not matter. -/
theorem congr (h : Built s) (hfiles : s'.files = s.files) (hbrk : s'.brk = s.brk)
    (hpending : s'.pending = s.pending) : Built s' := by
  refine ⟨hpending ▸ h.sound, hpending ▸ hfiles ▸ h.blobid, fun r f hf => ?_, fun r hr => ?_⟩
  · rw [Filesystem.opening, hpending]
    exact h.file r f (hfiles ▸ hf)
  · rw [Filesystem.opening, hpending, hfiles]
    exact h.unborn r (hbrk ▸ hr)

theorem opening_send {op : BsOp} (r : FileRef) :
    (s.send op).opening r = s.opening r + if op.openFor r then 1 else 0 := by
  simp [Filesystem.opening, Filesystem.send, List.countP_append, List.countP_singleton]

/-- Something other than a blob open is asked for. -/
theorem send (h : Built s) {op : BsOp} (hsound : op.sound = true)
    (hopen : ∀ r, op.openFor r = false) : Built (s.send op) := by
  have hopening : ∀ r, (s.send op).opening r = s.opening r := by
    intro r
    rw [opening_send, hopen r]
    rfl
  refine ⟨fun op' hop' => ?_, fun r f hf hnone => ?_, fun r f hf => ?_, fun r hr => ?_⟩
  · rcases List.mem_append.mp hop' with hold | hnew
    · exact h.sound op' hold
    · exact List.mem_singleton.mp hnew ▸ hsound
  · obtain ⟨fn, hfn⟩ := h.blobid r f hf hnone
    exact ⟨fn, List.mem_append_left _ hfn⟩
  · rw [hopening]
    exact h.file r f hf
  · rw [hopening]
    exact h.unborn r hr

/-- A file gets other data that fit what waits for it. -/
theorem setFile (h : Built s) {f f' : SpdkFile} (hf : s.files r = some f)
    (hblobid : f'.blobid = none → f.blobid = none)
    (hfile : s.opening r = 0 ∧ f'.Settled ∨ s.opening r = 1 ∧ f'.Waiting) :
    Built (s.setFile r f') := by
  refine ⟨h.sound, fun r' g hg hnone => ?_, fun r' g hg => ?_, fun r' hr' => ?_⟩
  · by_cases hr : r' = r
    · subst hr
      rw [Filesystem.setFile_files_self, Option.some.injEq] at hg
      exact h.blobid r' f hf (hblobid (hg ▸ hnone))
    · rw [Filesystem.setFile_files_ne f' hr] at hg
      exact h.blobid r' g hg hnone
  · by_cases hr : r' = r
    · subst hr
      rw [Filesystem.setFile_files_self, Option.some.injEq] at hg
      exact hg ▸ hfile
    · rw [Filesystem.setFile_files_ne f' hr] at hg
      exact h.file r' g hg
  · obtain ⟨hfree, hopening⟩ := h.unborn r' hr'
    refine ⟨?_, hopening⟩
    rw [Filesystem.setFile_files_ne f']
    · exact hfree
    · rintro rfl
      cases hf.symm.trans hfree

theorem fileFree (h : Built s) : Built (s.fileFree r) := by
  have hother : ∀ r' g, (s.fileFree r).files r' = some g → s.files r' = some g := by
    intro r' g hg
    by_cases hr : r' = r
    · subst hr
      cases (Filesystem.fileFree_files_self s r').symm.trans hg
    · exact (Filesystem.fileFree_files_ne hr).symm.trans hg
  refine ⟨h.sound, fun r' g hg => h.blobid r' g (hother r' g hg),
    fun r' g hg => h.file r' g (hother r' g hg), fun r' hr' => ⟨?_, (h.unborn r' hr').2⟩⟩
  by_contra hsome
  obtain ⟨g, hg⟩ := Option.ne_none_iff_exists'.mp hsome
  cases (hother r' g hg).symm.trans (h.unborn r' hr').1

/-- An open that goes on with a file whose `blobid` is set. -/
theorem fsOpenBlobCreateCb (h : Built s)
    (hroom : ∀ r f, s.files r = some f → f.refCount + 1 < 2 ^ 32) {file : Option FileRef}
    (hcreated : ∀ r, s.openedFile file name = .ok r → ∀ fn, .createBlob r fn ∉ s.pending)
    (hopen : s.fsOpenBlobCreateCb file name cb = .ok s') : Built s' := by
  obtain ⟨r, old, hr, hold, hcases⟩ := Filesystem.fsOpenBlobCreateCb_ok hopen
  have hcount : (old.opened cb).refCount = old.refCount + 1 :=
    Nat.mod_eq_of_lt (hroom r old hold)
  have hqueue : (old.opened cb).openRequests = old.openRequests ++ [cb] := rfl
  rcases hcases with ⟨hone, hblob, rfl⟩ | ⟨hne, hblob, rfl⟩ | ⟨hne, hblob, hdone⟩
  · -- The first user: the blob's open is asked for.
    have hzero : old.refCount = 0 := by omega
    have hset : old.blobid ≠ none := by
      intro hnone
      obtain ⟨fn, hfn⟩ := h.blobid r old hold hnone
      exact hcreated r hr fn hfn
    obtain ⟨hnone, hsettled⟩ : s.opening r = 0 ∧ old.Settled := by
      rcases h.file r old hold with hsettled | ⟨-, -, hwaits, hlength⟩
      · exact hsettled
      · rw [hzero] at hlength
        exact absurd (List.length_eq_zero_iff.mp hlength.symm) hwaits
    refine ⟨fun op hop => ?_, fun r' g hg hgnone => ?_, fun r' g hg => ?_, fun r' hr' => ?_⟩
    · rcases List.mem_append.mp hop with hop | hop
      · exact h.sound op hop
      · obtain rfl := List.mem_singleton.mp hop
        exact Option.isSome_iff_ne_none.mpr hset
    · have hfn : ∃ fn, .createBlob r' fn ∈ s.pending := by
        by_cases heq : r' = r
        · subst heq
          change (s.setFile r' (old.opened cb)).files r' = some g at hg
          rw [Filesystem.setFile_files_self, Option.some.injEq] at hg
          subst hg
          exact absurd hgnone hset
        · exact h.blobid r' g ((Filesystem.setFile_files_ne _ heq).symm.trans hg) hgnone
      obtain ⟨fn, hfn⟩ := hfn
      exact ⟨fn, List.mem_append_left _ hfn⟩
    · rw [opening_send]
      change (s.setFile r (old.opened cb)).files r' = some g at hg
      change s.opening r' + _ = 0 ∧ _ ∨ s.opening r' + _ = 1 ∧ _
      by_cases heq : r' = r
      · subst heq
        rw [Filesystem.setFile_files_self, Option.some.injEq] at hg
        subst hg
        refine Or.inr ⟨by simp [hnone, BsOp.openFor], hblob, ?_, ?_⟩
        · simp [hqueue]
        · rw [hqueue, hsettled.1, hone]
          rfl
      · rw [Filesystem.setFile_files_ne _ heq] at hg
        simpa [BsOp.openFor, Ne.symm heq] using h.file r' g hg
    · obtain ⟨hfree, hopening⟩ := h.unborn r' hr'
      have hne : r' ≠ r := by
        rintro rfl
        cases hold.symm.trans hfree
      refine ⟨(Filesystem.setFile_files_ne _ hne).trans hfree, ?_⟩
      rw [opening_send]
      change s.opening r' + _ = 0
      simp [BsOp.openFor, Ne.symm hne, hopening]
  · -- A user who waits for an open of the blob that was asked for before.
    refine h.setFile hold id ?_
    rcases h.file r old hold with ⟨hnone, hempty, hblobs⟩ | ⟨hone, hnone, hwaits, hlength⟩
    · exact absurd (hblobs.mp (by omega)) (not_not.mpr hblob)
    · refine Or.inr ⟨hone, hblob, by simp [hqueue], ?_⟩
      rw [hcount, hqueue, List.length_append, hlength]
      rfl
  · -- The blob is there.
    obtain ⟨f, hf, rfl⟩ := Filesystem.fsOpenBlobDone_ok hdone
    rw [Filesystem.setFile_files_self, Option.some.injEq] at hf
    subst hf
    have hresult : Built (s.setFile r { old.opened cb with openRequests := [] }) := by
      refine h.setFile hold id ?_
      rcases h.file r old hold with ⟨hnone, -, -⟩ | ⟨-, hnone, -, -⟩
      · exact Or.inl ⟨hnone, rfl, iff_of_true (hcount ▸ Nat.succ_pos _) hblob⟩
      · exact absurd hnone hblob
    refine hresult.congr ?_ rfl rfl
    exact Function.update_idem _ _ _

theorem opening_pos (hpos : 0 < s.opening r) : ∃ blobid, .openBlob r blobid ∈ s.pending := by
  obtain ⟨op, hop, hfor⟩ := List.countP_pos_iff.mp hpos
  cases op with
  | openBlob r' blobid =>
      obtain rfl : r' = r := of_decide_eq_true hfor
      exact ⟨blobid, hop⟩
  | _ => cases hfor

/-- A callback that opens nothing replies. -/
theorem callFileOp (h : Built s) {fserrno : Int} (hopens : fn.opens = false)
    (hcall : s.callFileOp fn fserrno = .ok s') : Built s' := by
  rcases Filesystem.callFileOp_ok hcall with
    ⟨cb, rfl⟩ | ⟨name, cb, rfl, -⟩ | ⟨oldName, newName, cb, rfl, -⟩
  · exact h.congr rfl rfl rfl
  · cases hopens
  · cases hopens

/-- A creation of a name that is not there. -/
theorem spdkFsCreateFileAsync (h : Built s) (hrequest : mem.createRequest = true)
    (hrenames : fn.renames = false)
    (hcall : ∀ fserrno s', s.callFileOp fn fserrno = .ok s' → Built s')
    (hcreate : s.spdkFsCreateFileAsync name fn mem = .ok s') : Built s' := by
  rcases Filesystem.spdkFsCreateFileAsync_ok hcreate with
    ⟨_, hreply⟩ | ⟨-, hfalse, -⟩ | ⟨-, -, rfl⟩
  · exact hcall _ _ hreply
  · rw [hrequest] at hfalse
    cases hfalse
  obtain ⟨-, hopening⟩ := h.unborn s.brk (Nat.le_refl _)
  have hfiles : ∀ r f, ((s.fileAlloc name).setFile s.brk
      ⟨some name, none, none, 0, false, []⟩).files r = some f →
        r = s.brk ∧ f = ⟨some name, none, none, 0, false, []⟩ ∨
          r ≠ s.brk ∧ s.files r = some f := by
    intro r f hf
    by_cases hr : r = s.brk
    · subst hr
      rw [Filesystem.setFile_files_self, Option.some.injEq] at hf
      exact Or.inl ⟨rfl, hf.symm⟩
    · rw [Filesystem.setFile_files_ne _ hr, Filesystem.fileAlloc_files_ne hr] at hf
      exact Or.inr ⟨hr, hf⟩
  have hsame : ∀ r, (((s.fileAlloc name).setFile s.brk ⟨some name, none, none, 0, false, []⟩).send
      (.createBlob s.brk fn)).opening r = s.opening r := fun r => opening_send r
  refine ⟨fun op hop => ?_, fun r f hf hnone => ?_, fun r f hf => ?_, fun r hr => ?_⟩
  · rcases List.mem_append.mp hop with hop | hop
    · exact h.sound op hop
    · obtain rfl := List.mem_singleton.mp hop
      simp [BsOp.sound, hrenames]
  · rcases hfiles r f hf with ⟨rfl, -⟩ | ⟨-, hold⟩
    · exact ⟨fn, List.mem_append_right _ (List.mem_singleton_self _)⟩
    · obtain ⟨fn', hfn'⟩ := h.blobid r f hold hnone
      exact ⟨fn', List.mem_append_left _ hfn'⟩
  · rw [hsame]
    rcases hfiles r f hf with ⟨rfl, rfl⟩ | ⟨-, hold⟩
    · exact Or.inl ⟨hopening, rfl, by simp⟩
    · exact h.file r f hold
  · rw [hsame]
    have hold := h.unborn r (Nat.le_of_succ_le hr)
    have hne : r ≠ s.brk := Nat.ne_of_gt hr
    refine ⟨?_, hold.2⟩
    change ((s.fileAlloc name).setFile s.brk _).files r = none
    rw [Filesystem.setFile_files_ne _ hne, Filesystem.fileAlloc_files_ne hne, hold.1]

/-- A deletion that finds no file that is half built. -/
theorem spdkFsDeleteFileAsync (h : Built s) (hopens : fn.opens = false)
    (hcreated : ∀ r, s.names name = some r → ∀ fn, .createBlob r fn ∉ s.pending)
    (hdelete : s.spdkFsDeleteFileAsync name fn mem = .ok s') : Built s' := by
  rcases Filesystem.spdkFsDeleteFileAsync_ok hdelete with
    ⟨_, hcall⟩ | ⟨r, f, hname, hf, ⟨blob, -, -, rfl⟩ | ⟨filename, -, -, rfl⟩⟩
  · exact h.callFileOp hopens hcall
  · refine Built.send ?_ (by simp [BsOp.sound, hopens]) fun _ => rfl
    exact h.setFile hf id (h.file r f hf)
  · have hset : f.blobid.isSome = true := by
      rw [Option.isSome_iff_ne_none]
      intro hnone
      obtain ⟨fn, hfn⟩ := h.blobid r f hf hnone
      exact hcreated r hname fn hfn
    refine Built.send ?_ (by simp [BsOp.sound, hopens, hset]) fun _ => rfl
    exact (h.fileFree : Built (s.fileFree r)).congr rfl rfl rfl

/-- The end of a close, where the deletion it may go on with finds no such file. -/
theorem fileCloseAsyncDone (h : Built s) {bserrno : Int}
    (hcreated : ∀ f name, s.files r = some f → f.name = some name → ∀ r', s.names name = some r' →
      ∀ fn, .createBlob r' fn ∉ s.pending)
    (hdone : s.fileCloseAsyncDone r cb bserrno mem = .ok s') : Built s' := by
  obtain ⟨f, hf, ⟨-, rfl⟩ | ⟨name, -, hname, hdelete⟩⟩ := Filesystem.fileCloseAsyncDone_ok hdone
  · exact h.congr rfl rfl rfl
  · exact h.spdkFsDeleteFileAsync rfl (hcreated f name hf hname) hdelete

/-- A close of a file that is at rest and has users. -/
theorem fileCloseAsync (h : Built s) {f : SpdkFile} (hf : s.files r = some f)
    (hrest : s.opening r = 0 ∧ f.Settled) (hpos : 0 < f.refCount)
    (hclose : s.fileCloseAsync r cb mem = .ok s') : Built s' := by
  obtain ⟨f', hf', hcases⟩ := Filesystem.fileCloseAsync_ok hclose
  obtain rfl := Option.some.inj (hf.symm.trans hf')
  obtain ⟨hnone, hempty, hblobs⟩ := hrest
  rcases hcases with ⟨hzero, -⟩ | ⟨hmore, rfl⟩ | ⟨blob, hone, -, rfl⟩
  · omega
  · have hset : Built (s.setFile r { f with refCount := f.refCount - 1 }) :=
      h.setFile hf id (Or.inl ⟨hnone, hempty, iff_of_true (by change 0 < f.refCount - 1; omega)
        (hblobs.mp hpos)⟩)
    exact hset.congr rfl rfl rfl
  · refine Built.send ?_ rfl fun _ => rfl
    refine h.setFile hf id (Or.inl ⟨hnone, hempty, iff_of_false ?_ (not_not.mpr rfl)⟩)
    change ¬ 0 < f.refCount - 1
    omega

theorem mem_erased {i : Nat} {op other : BsOp} (hop : s.pending[i]? = some op)
    (hother : other ∈ s.pending) : other = op ∨ other ∈ s.pending.eraseIdx i :=
  List.mem_cons.mp ((taken_perm hop).mem_iff.mp hother)

theorem opening_taken {i : Nat} {op : BsOp} (hop : s.pending[i]? = some op) (r : FileRef) :
    s.opening r = (s.pending.eraseIdx i).countP (BsOp.openFor r) + if op.openFor r then 1 else 0 :=
  countP_taken _ hop

/-- What completes is no longer pending; a creation has set `blobid` by then. -/
theorem taken (h : Built s) {i : Nat} {op : BsOp} (hop : s.pending[i]? = some op)
    (hopen : ∀ r, op.openFor r = false)
    (hcreate : ∀ r fn f, op = .createBlob r fn → s.files r = some f → f.blobid ≠ none) :
    Built { s with pending := s.pending.eraseIdx i } := by
  have hopening : ∀ r, (s.pending.eraseIdx i).countP (BsOp.openFor r) = s.opening r := by
    intro r
    rw [opening_taken hop, hopen r]
    rfl
  refine ⟨fun op' hop' => h.sound op' (mem_of_taken hop'), fun r f hf hnone => ?_,
    fun r f hf => ?_, fun r hr => ?_⟩
  · obtain ⟨fn, hfn⟩ := h.blobid r f hf hnone
    rcases mem_erased hop hfn with rfl | hrest
    · exact absurd hnone (hcreate r fn f rfl hf)
    · exact ⟨fn, hrest⟩
  · change (s.pending.eraseIdx i).countP (BsOp.openFor r) = 0 ∧ _ ∨
      (s.pending.eraseIdx i).countP (BsOp.openFor r) = 1 ∧ _
    rw [hopening]
    exact h.file r f hf
  · refine ⟨(h.unborn r hr).1, ?_⟩
    change (s.pending.eraseIdx i).countP (BsOp.openFor r) = 0
    rw [hopening]
    exact (h.unborn r hr).2

/-- The blob of a file is open: its users have it. -/
theorem opened (h : Built s) {i : Nat} {blobid : Option BlobId} {blob : Option BlobRef}
    (hop : s.pending[i]? = some (.openBlob r blobid)) (hblob : blob ≠ none)
    (hdone : { s with pending := s.pending.eraseIdx i }.fsOpenBlobDone r blob 0 = .ok s') :
    Built s' := by
  obtain ⟨f, hf, rfl⟩ := Filesystem.fsOpenBlobDone_ok hdone
  have hf' : s.files r = some f := hf
  have hopening : ∀ r', s.opening r' =
      (s.pending.eraseIdx i).countP (BsOp.openFor r') + if r' = r then 1 else 0 := by
    intro r'
    rw [opening_taken hop]
    simp [BsOp.openFor, eq_comm]
  have hwaiting : s.opening r = 1 ∧ f.Waiting := by
    rcases h.file r f hf' with ⟨hzero, -⟩ | hwaiting
    · have hone := hopening r
      rw [if_pos rfl, hzero] at hone
      omega
    · exact hwaiting
  obtain ⟨hone, -, hwaits, hlength⟩ := hwaiting
  have hpos : 0 < f.refCount := hlength ▸ List.length_pos_iff.mpr hwaits
  refine ⟨fun op hop' => h.sound op (mem_of_taken hop'), fun r' g hg hnone => ?_,
    fun r' g hg => ?_, fun r' hr' => ?_⟩
  · have hfn : ∃ fn, .createBlob r' fn ∈ s.pending := by
      by_cases hr : r' = r
      · subst hr
        have heq := (Filesystem.setFile_files_self _ r' _).symm.trans hg
        obtain rfl := Option.some.inj heq
        exact h.blobid r' f hf' hnone
      · exact h.blobid r' g ((Filesystem.setFile_files_ne _ hr).symm.trans hg) hnone
    obtain ⟨fn, hfn⟩ := hfn
    rcases mem_erased hop hfn with heq | hrest
    · cases heq
    · exact ⟨fn, hrest⟩
  · have hcount := hopening r'
    change (s.pending.eraseIdx i).countP (BsOp.openFor r') = 0 ∧ _ ∨
      (s.pending.eraseIdx i).countP (BsOp.openFor r') = 1 ∧ _
    by_cases hr : r' = r
    · subst hr
      have heq := (Filesystem.setFile_files_self _ r' _).symm.trans hg
      obtain rfl := Option.some.inj heq
      rw [if_pos rfl, hone] at hcount
      exact Or.inl ⟨by omega, rfl, iff_of_true hpos hblob⟩
    · rw [if_neg hr, Nat.add_zero] at hcount
      rw [← hcount]
      exact h.file r' g ((Filesystem.setFile_files_ne _ hr).symm.trans hg)
  · obtain ⟨hfree, hnone⟩ := h.unborn r' hr'
    have hr : r' ≠ r := by
      rintro rfl
      cases hf'.symm.trans hfree
    have hcount := hopening r'
    rw [if_neg hr, Nat.add_zero] at hcount
    exact ⟨(Filesystem.setFile_files_ne _ hr).trans hfree, hcount.symm.trans hnone⟩

/-- A handle whose close is in its sync: its file is at rest. -/
theorem rest_of_closing (h : Built s) (hcounted : Counted none s) {i : Nat}
    (hop : s.pending[i]? = some (.closeSync r cb)) {f : SpdkFile} (hf : s.files r = some f) :
    (s.opening r = 0 ∧ f.Settled) ∧ 0 < f.refCount := by
  have hclosing : 0 < s.closing r :=
    List.countP_pos_iff.mpr ⟨_, mem_taken hop, by simp [BsOp.closes]⟩
  have hcount := hcounted.count r f hf
  unfold Filesystem.users at hcount
  rcases h.file r f hf with hrest | ⟨-, -, -, hlength⟩
  · exact ⟨hrest, by omega⟩
  · omega

/-- One completion keeps the invariant. -/
theorem resume (h : Built s) (hcounted : Counted none s) {i : Nat} {op : BsOp} {answer : Answer}
    (hop : s.pending[i]? = some op) (hok : MeetsBuilt s (.complete i answer mem))
    (hresume : op.resume { s with pending := s.pending.eraseIdx i } answer mem = .ok s') :
    Built s' := by
  obtain ⟨hzero, hblob⟩ := hok.succeeds i answer mem rfl
  have hsound := h.sound op (mem_taken hop)
  cases op with
  | createBlob r fn =>
      simp only [BsOp.resume, Filesystem.fsCreateBlobCreateCb, hzero, ne_eq, not_true_eq_false,
        if_false] at hresume
      obtain ⟨f, hf, hresume⟩ := bind_ok.mp hresume
      rw [Filesystem.file_ok] at hf
      obtain rfl := Except.ok.inj hresume
      refine Built.send ?_ hsound fun _ => rfl
      have hset : Built (s.setFile r { f with blobid := some answer.blobid }) :=
        h.setFile hf (by simp) (h.file r f hf)
      refine hset.taken hop (fun _ => rfl) fun r' fn' g heq hg => ?_
      obtain ⟨rfl, -⟩ := BsOp.createBlob.inj heq
      rw [Filesystem.setFile_files_self, Option.some.injEq] at hg
      rw [← hg]
      simp
  | createOpen r blobid fn =>
      simp only [BsOp.resume, Filesystem.fsCreateBlobOpenCb, hzero, ne_eq, not_true_eq_false,
        if_false] at hresume
      obtain rfl := Except.ok.inj hresume
      refine Built.send ?_ hsound fun _ => rfl
      exact h.taken hop (fun _ => rfl) (by simp)
  | createResize r blob fn =>
      simp only [BsOp.resume, Filesystem.fsCreateBlobResizeCb, hzero, ne_eq, not_true_eq_false,
        if_false] at hresume
      obtain ⟨f, -, hresume⟩ := bind_ok.mp hresume
      cases hname : f.name with
      | none =>
          rw [hname] at hresume
          cases hresume
      | some name =>
          rw [hname] at hresume
          obtain rfl := Except.ok.inj hresume
          refine Built.send ?_ hsound fun _ => rfl
          exact h.taken hop (fun _ => rfl) (by simp)
  | createClose blob rc fn =>
      have hrest := h.taken hop (fun _ => rfl) (by simp)
      rcases Filesystem.callFileOp_ok hresume with
        ⟨cb, rfl⟩ | ⟨name, cb, rfl, hopen⟩ | ⟨oldName, newName, cb, rfl, -⟩
      · exact hrest.congr rfl rfl rfl
      · refine hrest.fsOpenBlobCreateCb hok.room (fun r hr fn hfn => ?_) hopen
        have hname : s.names name = some r := by
          simp only [Filesystem.openedFile] at hr
          split at hr
          · rename_i found hfound
            exact hfound.trans (congrArg some (Except.ok.inj hr))
          · cases hr
        exact hok.created r (Or.inl (by simp [Event.opens, hop, hname])) fn (mem_of_taken hfn)
      · cases hsound
  | openBlob r blobid =>
      simp only [BsOp.resume, hzero] at hresume
      exact h.opened hop hblob hresume
  | closeSync r cb =>
      obtain ⟨f, hf, -⟩ := Filesystem.fileCloseAsync_ok hresume
      obtain ⟨hrest, hpos⟩ := h.rest_of_closing hcounted hop hf
      refine (h.taken hop (fun _ => rfl) (by simp)).fileCloseAsync hf ?_ hpos hresume
      refine ⟨?_, hrest.2⟩
      have hsame := opening_taken hop r
      rw [hrest.1] at hsame
      exact (Nat.add_eq_zero_iff.mp hsame.symm).1
  | closeBlob r blob cb =>
      refine (h.taken hop (fun _ => rfl) (by simp)).fileCloseAsyncDone
        (fun f name hf hname r' hr' fn hfn => ?_) hresume
      have hf' : s.files r = some f := hf
      have hr'' : s.names name = some r' := hr'
      exact hok.created r' (Or.inr (by simp [Event.deletes, hop, hf', hname, hr''])) fn
        (mem_of_taken hfn)
  | syncDeleted blob fn =>
      exact (h.taken hop (fun _ => rfl) (by simp)).callFileOp
        (by simpa [BsOp.sound] using hsound) hresume
  | deleteBlob blobid fn =>
      have hopens : fn.opens = false := by
        simp only [BsOp.sound, Bool.and_eq_true] at hsound
        simpa using hsound.2
      exact (h.taken hop (fun _ => rfl) (by simp)).callFileOp hopens hresume
  | renameOpen blobid newName cb => cases hsound
  | renameClose blob cb => cases hsound

/-- One step keeps the invariant. -/
theorem step {e : Event} (h : Built s) (hcounted : Counted none s) (hok : MeetsBuilt s e)
    (hstep : Steps s e s') : Built s' := by
  cases e with
  | create name cb mem =>
      exact h.spdkFsCreateFileAsync hok.request rfl (fun _ _ hcall => h.callFileOp rfl hcall) hstep
  | «open» name create cb mem =>
      rcases Filesystem.spdkFsOpenFileAsync_ok hstep with
        ⟨_, rfl⟩ | ⟨hnone, hcreate⟩ | ⟨r, hname, hopen⟩
      · exact h.congr rfl rfl rfl
      · refine h.spdkFsCreateFileAsync hok.request rfl (fun fserrno s'' hcall => ?_) hcreate
        obtain ⟨r, -, hr, -⟩ := Filesystem.fsOpenBlobCreateCb_ok hcall
        simp only [Filesystem.openedFile, hnone] at hr
        cases hr
      · refine h.fsOpenBlobCreateCb hok.room (fun r' hr' => ?_) hopen
        obtain rfl := Except.ok.inj hr'
        exact hok.created r (Or.inl hname)
  | delete name cb mem =>
      exact h.spdkFsDeleteFileAsync rfl (fun r hr => hok.created r (Or.inr hr)) hstep
  | close r cb mem =>
      simp only [Steps, Fs.step] at hstep
      split at hstep
      · obtain ⟨f, -, hrest⟩ := bind_ok.mp hstep
        split at hrest
        · obtain rfl := Except.ok.inj hrest
          exact h.congr rfl rfl rfl
        · obtain rfl := Except.ok.inj hrest
          refine Built.send ?_ rfl fun _ => rfl
          exact h.congr rfl rfl rfl
      · cases hstep
  | complete i answer mem =>
      simp only [Steps, Fs.step] at hstep
      split at hstep
      · cases hstep
      · exact h.resume hcounted ‹_› hok hstep

end Built

/-! ### `blob` is never NULL -/

/-- The faults that only closing and deleting a file come to. -/
def Fault.ofClosing : Fault → Bool
  | nullBlob | overflow => true
  | _ => false

section spares

variable {s : Filesystem} {r : FileRef} {fn : FileOp} {cb : CallRef} {mem : Memory}
  {name : CString}

section faults

variable {fault : Fault} (hfault : fault.ofClosing = true)

include hfault

theorem error_ne {α : Type} {other : Fault} (hother : other.ofClosing = false) :
    (Except.error other : Except Fault α) ≠ .error fault := by
  rintro heq
  cases heq
  cases hfault.symm.trans hother

theorem file_ne : s.file r ≠ .error fault := by
  unfold Filesystem.file
  split
  · exact nofun
  · exact error_ne hfault rfl

theorem fsOpenBlobCreateCb_ne {file : Option FileRef} :
    s.fsOpenBlobCreateCb file name cb ≠ .error fault := by
  refine bind_ne ?_ fun r _ => bind_ne (file_ne hfault) fun old _ => ?_
  · unfold Filesystem.openedFile
    split
    · exact nofun
    · split
      · exact nofun
      · exact error_ne hfault rfl
  · dsimp only
    split
    · split
      · exact error_ne hfault rfl
      · exact nofun
    · split
      · exact bind_ne (file_ne hfault) fun f _ => nofun
      · exact nofun

theorem fsMdRenameFile_ne {oldName newName : CString} :
    s.fsMdRenameFile oldName newName cb ≠ .error fault := by
  unfold Filesystem.fsMdRenameFile
  split
  · exact nofun
  · refine bind_ne (file_ne hfault) fun f _ => ?_
    split
    · exact error_ne hfault rfl
    · exact nofun

theorem callFileOp_ne {fserrno : Int} : s.callFileOp fn fserrno ≠ .error fault := by
  cases fn with
  | client cb => exact nofun
  | fsOpenBlobCreateCb name cb => exact fsOpenBlobCreateCb_ne hfault
  | blobDeleteCb cb => exact nofun
  | fsRenameDeleteDone oldName newName cb => exact fsMdRenameFile_ne hfault

theorem spdkFsCreateFileAsync_ne : s.spdkFsCreateFileAsync name fn mem ≠ .error fault := by
  unfold Filesystem.spdkFsCreateFileAsync
  split
  · exact callFileOp_ne hfault
  split
  · exact callFileOp_ne hfault
  split
  · exact callFileOp_ne hfault
  split
  · exact callFileOp_ne hfault
  · exact bind_ne (file_ne hfault) fun f _ => nofun

theorem spdkFsOpenFileAsync_ne {create : Bool} :
    s.spdkFsOpenFileAsync name create cb mem ≠ .error fault := by
  unfold Filesystem.spdkFsOpenFileAsync
  split
  · exact nofun
  split
  · split
    · exact nofun
    split
    · exact nofun
    · exact spdkFsCreateFileAsync_ne hfault
  · refine bind_ne (file_ne hfault) fun f _ => ?_
    split
    · exact nofun
    split
    · exact nofun
    · exact fsOpenBlobCreateCb_ne hfault

theorem spdkFileCloseAsync_ne : s.spdkFileCloseAsync r cb mem ≠ .error fault := by
  refine bind_ne (file_ne hfault) fun f _ => ?_
  split <;> exact nofun

/-- A completion that neither deletes nor closes a file. -/
theorem resume_ne {op : BsOp} {answer : Answer} (hclose : ∀ r cb, op ≠ .closeSync r cb)
    (hclosed : ∀ r blob cb, op ≠ .closeBlob r blob cb) : op.resume s answer mem ≠ .error fault := by
  cases op with
  | createBlob r fn =>
      simp only [BsOp.resume, Filesystem.fsCreateBlobCreateCb]
      split
      · exact callFileOp_ne hfault
      · exact bind_ne (file_ne hfault) fun f _ => by rintro ⟨⟩
  | createOpen r blobid fn =>
      simp only [BsOp.resume, Filesystem.fsCreateBlobOpenCb]
      split
      · exact callFileOp_ne hfault
      · simp
  | createResize r blob fn =>
      simp only [BsOp.resume, Filesystem.fsCreateBlobResizeCb]
      split
      · simp
      · refine bind_ne (file_ne hfault) fun f _ => ?_
        split
        · exact error_ne hfault rfl
        · rintro ⟨⟩
  | createClose blob rc fn => exact callFileOp_ne hfault
  | openBlob r blobid => exact bind_ne (file_ne hfault) fun f _ => by rintro ⟨⟩
  | closeSync r cb => exact absurd rfl (hclose r cb)
  | closeBlob r blob cb => exact absurd rfl (hclosed r blob cb)
  | syncDeleted blob fn => exact callFileOp_ne hfault
  | deleteBlob blobid fn => exact callFileOp_ne hfault
  | renameOpen blobid newName cb =>
      simp only [BsOp.resume, Filesystem.fsRenameBlobOpenCb]
      split
      · exact error_ne hfault rfl
      · simp
  | renameClose blob cb => rintro ⟨⟩

end faults

/-- A deletion whose file has its blob as long as it has users. -/
theorem spdkFsDeleteFileAsync_ne
    (hblob : ∀ r f, s.names name = some r → s.files r = some f → 0 < f.refCount → f.blob ≠ none) :
    s.spdkFsDeleteFileAsync name fn mem ≠ .error .nullBlob := by
  unfold Filesystem.spdkFsDeleteFileAsync
  split
  · exact callFileOp_ne rfl
  split
  · exact callFileOp_ne rfl
  rename_i r hname
  split
  · exact callFileOp_ne rfl
  refine bind_ne (file_ne rfl) fun f hf => ?_
  split
  · rename_i hpos
    have hsome := hblob r f hname (Filesystem.file_ok.mp hf) hpos
    split
    · exact absurd ‹_› hsome
    · exact nofun
  · split
    · exact nofun
    · dsimp only
      split <;> exact nofun

theorem fileCloseAsyncDone_ne {bserrno : Int}
    (hblob : ∀ g name r' f, s.files r = some g → g.name = some name → s.names name = some r' →
      s.files r' = some f → 0 < f.refCount → f.blob ≠ none) :
    s.fileCloseAsyncDone r cb bserrno mem ≠ .error .nullBlob := by
  refine bind_ne (file_ne rfl) fun g hg => ?_
  split
  · split
    · exact nofun
    · rename_i name hname
      exact spdkFsDeleteFileAsync_ne fun r' f => hblob g name r' f (Filesystem.file_ok.mp hg) hname
  · exact nofun

theorem fileCloseAsync_ne
    (hblob : ∀ f, s.files r = some f → 0 < f.refCount ∧ f.blob ≠ none) :
    s.fileCloseAsync r cb mem ≠ .error .nullBlob := by
  refine bind_ne (file_ne rfl) fun f hf => ?_
  obtain ⟨hpos, hsome⟩ := hblob f (Filesystem.file_ok.mp hf)
  rw [if_neg (Nat.ne_of_gt hpos)]
  dsimp only
  split
  · exact nofun
  · split
    · exact absurd ‹_› hsome
    · exact nofun

end spares

namespace Built

variable {s s' : Filesystem} {mem : Memory}

/-- A file with users has its blob, or its blob's open is waiting. -/
theorem blob_of_users (h : Built s) {r : FileRef} {f : SpdkFile} (hf : s.files r = some f)
    (hpos : 0 < f.refCount) (hopened : ∀ blobid, .openBlob r blobid ∉ s.pending) :
    f.blob ≠ none := by
  rcases h.file r f hf with ⟨-, -, hblobs⟩ | ⟨hone, -⟩
  · exact hblobs.mp hpos
  · obtain ⟨blobid, hmem⟩ := opening_pos (hone ▸ Nat.one_pos)
    exact absurd hmem (hopened blobid)

theorem resume_ne (h : Built s) (hcounted : Counted none s) {i : Nat} {op : BsOp}
    {answer : Answer} (hop : s.pending[i]? = some op)
    (hok : MeetsBuilt s (.complete i answer mem)) :
    op.resume { s with pending := s.pending.eraseIdx i } answer mem ≠ .error .nullBlob := by
  cases op with
  | closeSync r cb =>
      refine fileCloseAsync_ne fun f hf => ?_
      obtain ⟨⟨-, -, hblobs⟩, hpos⟩ := h.rest_of_closing hcounted hop hf
      exact ⟨hpos, hblobs.mp hpos⟩
  | closeBlob r blob cb =>
      refine fileCloseAsyncDone_ne fun g name r' f hg hname hr' hf hpos => ?_
      have hg' : s.files r = some g := hg
      have hr'' : s.names name = some r' := hr'
      exact h.blob_of_users hf hpos
        (hok.opened r' (by simp [Event.deletes, hop, hg', hname, hr'']))
  | _ => exact Fs.resume_ne rfl nofun nofun

theorem step_ne {e : Event} (h : Built s) (hcounted : Counted none s) (hok : MeetsBuilt s e) :
    Fs.step s e ≠ .error .nullBlob := by
  cases e with
  | create name cb mem => exact spdkFsCreateFileAsync_ne rfl
  | «open» name create cb mem => exact spdkFsOpenFileAsync_ne rfl
  | delete name cb mem =>
      exact spdkFsDeleteFileAsync_ne fun r f hname hf hpos =>
        h.blob_of_users hf hpos (hok.opened r hname)
  | close r cb mem =>
      unfold Fs.step
      dsimp only
      split
      · exact spdkFileCloseAsync_ne rfl
      · exact nofun
  | complete i answer mem =>
      unfold Fs.step
      dsimp only
      split
      · exact nofun
      · exact h.resume_ne hcounted ‹_› hok

end Built

/-- In every run that meets no half-built file, every step uses `blobid` and `blob` only
after they were set. -/
theorem setBeforeUse_of_runs {s₀ s : Filesystem} {e : Event} (hinitial : Initial s₀)
    (hrun : Runs Steps MeetsBuilt s₀ s) (hok : MeetsBuilt s e) : SetBeforeUse s e := by
  have hboth : Counted none s ∧ Built s := by
    have hstart : Counted none s₀ ∧ Built s₀ := ⟨Counted.initial hinitial, Built.initial hinitial⟩
    refine hrun.keeps (P := fun s => Counted none s ∧ Built s) hstart
      fun {s₁ e₁ s₂} hstate hmeets hstep => ?_
    obtain ⟨hcounted, hbuilt⟩ := hstate
    refine ⟨hcounted.step ⟨hmeets.room, ?_⟩ hstep, hbuilt.step hcounted hmeets hstep⟩
    exact fun i answer mem r blobid he _ => (hmeets.succeeds i answer mem he).1
  obtain ⟨hcounted, hbuilt⟩ := hboth
  exact ⟨hbuilt.step_ne hcounted hok, fun s' hs' op hop =>
    BsOp.sound_unset ((hbuilt.step hcounted hok hs').sound op hop)⟩

/-- The end of the open of `"a"`. -/
theorem setBeforeUse_of_runs_open :
    SetBeforeUse openingA (.complete 0 ⟨0, 0, some 3⟩ plenty) := by
  have hopen : MeetsBuilt oneFile (.open nameA false 7 plenty) := by
    refine ⟨fun r g hg => ?_, nofun, rfl, fun r _ fn => List.not_mem_nil,
      fun r _ blobid => List.not_mem_nil⟩
    rw [(oneFile_files hg).2]
    decide
  refine setBeforeUse_of_runs oneFile_initial (.one hopen open_a)
    ⟨fun r g hg => ?_, ?_, rfl, ?_, ?_⟩
  · by_cases hr : r = 0
    · subst hr
      obtain rfl : fileA.opened 7 = g := Option.some.inj hg
      decide
    · have hold : oneFile.files r = some g := (Filesystem.setFile_files_ne _ hr).symm.trans hg
      exact absurd (oneFile_files hold).1 hr
  · intro i answer mem heq
    cases heq
    exact ⟨rfl, nofun⟩
  · intro r _ fn hmem
    cases List.mem_singleton.mp hmem
  · intro r hr
    cases hr

/-- `"b"` is deleted while its creation waits for the blob: blob 0 is deleted. -/
theorem setBeforeUse_creating : ¬ ∀ s₀ s e, Initial s₀ →
    (∀ i answer mem, e = .complete i answer mem → answer.bserrno = 0 ∧ answer.blob ≠ none) →
    Runs Steps (fun _ e => ∀ i answer mem, e = .complete i answer mem →
      answer.bserrno = 0 ∧ answer.blob ≠ none) s₀ s → SetBeforeUse s e := by
  intro hall
  let nameB : CString := ⟨[98], by decide⟩
  have hcreate : Steps oneFile (.create nameB 1 plenty) _ := rfl
  have hdelete := (hall _ _ (.delete nameB 2 plenty) oneFile_initial nofun
    (Runs.one (e := .create nameB 1 plenty) nofun hcreate)).blobid _ rfl
  cases hdelete (.deleteBlob none (.client 2)) (by simp [Filesystem.send])

end Nbfs.Fs
