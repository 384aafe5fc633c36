import Nbfs.Fs.Names

set_option autoImplicit false

/-!
# The reference count of a file

`ref_count` should be the number of opens that wait on `open_requests` and of
handles that are open.  A handle is open until `__file_close_async` takes its
reference; a close that still syncs has not.
-/

namespace Nbfs.Fs

open Nbfs.Lib

/-- The close of a handle of the file, still in its sync. -/
def BsOp.closes (r : FileRef) : BsOp → Bool
  | closeSync r' _ => decide (r' = r)
  | _ => false

/-- The handles of a file whose close is in its sync. -/
def Filesystem.closing (s : Filesystem) (r : FileRef) : Nat := s.pending.countP (BsOp.closes r)

/-- The opens that wait for a file and its handles that are not closed. -/
def Filesystem.users (s : Filesystem) (r : FileRef) (f : SpdkFile) : Nat :=
  f.openRequests.length + s.handles.count r + s.closing r

/-- Each file's `ref_count` is the number of its users. -/
def RefCounted (s : Filesystem) : Prop :=
  ∀ r f, s.files r = some f → f.refCount = s.users r f

/-- The invariant: the references are the users', with one more for the file of a close
that has just left its sync; and no address that is still to be handed out is in use. -/
structure Counted (leaving : Option FileRef) (s : Filesystem) : Prop where
  count : ∀ r f, s.files r = some f →
    f.refCount = s.users r f + if leaving = some r then 1 else 0
  unborn : ∀ r, s.brk ≤ r → s.files r = none ∧ s.handles.count r = 0 ∧ s.closing r = 0

/-- Before the step no file has `ref_count` at its bound, and the blob open that
completes, if one does, succeeds. -/
structure OpensBlobs (s : Filesystem) (e : Event) : Prop where
  room : ∀ r f, s.files r = some f → f.refCount + 1 < 2 ^ 32
  opened : ∀ i answer mem r blobid, e = .complete i answer mem →
    s.pending[i]? = some (.openBlob r blobid) → answer.bserrno = 0

theorem Counted.initial {s : Filesystem} (h : Initial s) : Counted none s := by
  have hclosing : ∀ r, s.closing r = 0 := by
    intro r
    simp [Filesystem.closing, h.pending]
  refine ⟨fun r f hf => ?_, fun r hr => ⟨?_, by simp [h.handles], hclosing r⟩⟩
  · obtain ⟨-, hcount, -, hqueue⟩ := h.closed r f hf
    simp [Filesystem.users, hcount, hqueue, h.handles, hclosing r]
  · by_contra hsome
    obtain ⟨f, hf⟩ := Option.ne_none_iff_exists'.mp hsome
    exact absurd (h.named r f hf).2 (Nat.not_lt.mpr hr)

namespace Counted

variable {s s' : Filesystem} {leaving : Option FileRef} {r : FileRef} {fn : FileOp} {cb : CallRef}
  {mem : Memory} {name : CString}

/-- Only these parts of the state are counted. -/
theorem congr (h : Counted leaving s) (hfiles : s'.files = s.files) (hbrk : s'.brk = s.brk)
    (hhandles : s'.handles = s.handles) (hclosing : s'.closing = s.closing) :
    Counted leaving s' := by
  constructor
  · intro r f hf
    rw [hfiles] at hf
    rw [h.count r f hf, Filesystem.users, Filesystem.users, hhandles, hclosing]
  · intro r hr
    rw [hfiles, hhandles, hclosing]
    exact h.unborn r (hbrk ▸ hr)

theorem closing_send {op : BsOp} (hop : ∀ r, op.closes r = false) :
    (s.send op).closing = s.closing := by
  funext r
  simp [Filesystem.closing, Filesystem.send, hop r]

theorem send (h : Counted leaving s) {op : BsOp} (hop : ∀ r, op.closes r = false) :
    Counted leaving (s.send op) :=
  h.congr rfl rfl rfl (closing_send hop)

/-- A file gets other data, with the references and users it had, or with `more` of each. -/
theorem setFile (h : Counted leaving s) {f f' : SpdkFile} (hf : s.files r = some f) (more : Nat)
    (hcount : f'.refCount = f.refCount + more)
    (hqueue : f'.openRequests.length = f.openRequests.length + more) :
    Counted leaving (s.setFile r f') := by
  constructor
  · intro r' g hg
    by_cases hr : r' = r
    · subst hr
      rw [Filesystem.setFile_files_self, Option.some.injEq] at hg
      subst hg
      have hold := h.count r' f hf
      unfold Filesystem.users at hold ⊢
      change f'.refCount = f'.openRequests.length + s.handles.count r' + s.closing r' + _
      omega
    · rw [Filesystem.setFile_files_ne f' hr] at hg
      exact h.count r' g hg
  · intro r' hr'
    refine ⟨?_, (h.unborn r' hr').2⟩
    rw [Filesystem.setFile_files_ne f']
    · exact (h.unborn r' hr').1
    · rintro rfl
      cases hf.symm.trans (h.unborn r' hr').1

theorem fileFree (h : Counted leaving s) : Counted leaving (s.fileFree r) := by
  constructor
  · intro r' g hg
    by_cases hr : r' = r
    · subst hr
      cases (Filesystem.fileFree_files_self s r').symm.trans hg
    · rw [Filesystem.fileFree_files_ne hr] at hg
      exact h.count r' g hg
  · intro r' hr'
    refine ⟨?_, (h.unborn r' hr').2⟩
    by_cases hr : r' = r
    · subst hr
      exact Function.update_self ..
    · exact (Function.update_of_ne hr ..).trans (h.unborn r' hr').1

/-- A new file has no users. -/
theorem fileAlloc (h : Counted none s) : Counted none (s.fileAlloc name) := by
  constructor
  · intro r g hg
    by_cases hr : r = s.brk
    · subst hr
      rw [Filesystem.fileAlloc_files_self, Option.some.injEq] at hg
      obtain ⟨-, hhandles, hclosing⟩ := h.unborn s.brk (Nat.le_refl _)
      subst hg
      change 0 = 0 + s.handles.count s.brk + s.closing s.brk + 0
      omega
    · rw [Filesystem.fileAlloc_files_ne hr] at hg
      exact h.count r g hg
  · intro r hr
    have hold := h.unborn r (Nat.le_of_succ_le hr)
    refine ⟨?_, hold.2⟩
    rw [Filesystem.fileAlloc_files_ne (Nat.ne_of_gt hr)]
    exact hold.1

theorem count_copies (r r' : FileRef) (queue : List CallRef) :
    (queue.map fun _ => r).count r' = if r' = r then queue.length else 0 := by
  rw [List.map_const', List.count_replicate]
  by_cases hr : r' = r
  · simp [hr]
  · simp [hr, Ne.symm hr]

/-- The requests on the queue become handles. -/
theorem fsOpenBlobDone (h : Counted leaving s) {blob : Option BlobRef}
    (hdone : s.fsOpenBlobDone r blob 0 = .ok s') : Counted leaving s' := by
  obtain ⟨f, hf, rfl⟩ := Filesystem.fsOpenBlobDone_ok hdone
  have hhandles : ∀ r', (s.handles ++ f.openRequests.map fun _ => r).count r' =
      s.handles.count r' + if r' = r then f.openRequests.length else 0 := by
    intro r'
    rw [List.count_append, count_copies]
  constructor
  · intro r' g hg
    simp only [if_true] at hg ⊢
    change g.refCount = g.openRequests.length +
      (s.handles ++ f.openRequests.map fun _ => r).count r' + s.closing r' + _
    rw [hhandles]
    by_cases hr : r' = r
    · subst hr
      rw [Filesystem.setFile_files_self, Option.some.injEq] at hg
      subst hg
      have hold := h.count r' f hf
      unfold Filesystem.users at hold
      rw [if_pos rfl, hold]
      change _ = 0 + _ + _ + _
      omega
    · rw [Filesystem.setFile_files_ne _ hr] at hg
      rw [if_neg hr, h.count r' g hg]
      rfl
  · intro r' hr'
    obtain ⟨hfree, hcount, hclosing⟩ := h.unborn r' hr'
    have hr : r' ≠ r := by
      rintro rfl
      cases hf.symm.trans hfree
    refine ⟨(Filesystem.setFile_files_ne _ hr).trans hfree, ?_, hclosing⟩
    change (s.handles ++ f.openRequests.map fun _ => r).count r' = 0
    rw [hhandles, hcount, if_neg hr]

/-- An open adds a reference and a request to the queue. -/
theorem fsOpenBlobCreateCb (h : Counted leaving s)
    (hroom : ∀ r f, s.files r = some f → f.refCount + 1 < 2 ^ 32) {file : Option FileRef}
    (hopen : s.fsOpenBlobCreateCb file name cb = .ok s') : Counted leaving s' := by
  obtain ⟨r, old, -, hold, hcases⟩ := Filesystem.fsOpenBlobCreateCb_ok hopen
  have hset : Counted leaving (s.setFile r (old.opened cb)) :=
    h.setFile hold 1 (Nat.mod_eq_of_lt (hroom r old hold)) (by simp [SpdkFile.opened])
  rcases hcases with ⟨-, -, rfl⟩ | ⟨-, -, rfl⟩ | ⟨-, -, hdone⟩
  · exact hset.send fun _ => rfl
  · exact hset
  · exact hset.fsOpenBlobDone hdone

/-- A rename changes a file's name. -/
theorem fsMdRenameFile (h : Counted leaving s) {oldName newName : CString}
    (hrename : s.fsMdRenameFile oldName newName cb = .ok s') : Counted leaving s' := by
  rcases Filesystem.fsMdRenameFile_ok hrename with ⟨-, rfl⟩ | ⟨r, f, name, -, hf, -, rfl⟩
  · exact h.congr rfl rfl rfl rfl
  · refine Counted.send ?_ fun _ => rfl
    have hset : Counted leaving (s.setFile r { f with name := some newName }) :=
      h.setFile hf 0 rfl rfl
    exact hset.congr rfl rfl rfl rfl

theorem callFileOp (h : Counted leaving s)
    (hroom : ∀ r f, s.files r = some f → f.refCount + 1 < 2 ^ 32) {fserrno : Int}
    (hcall : s.callFileOp fn fserrno = .ok s') : Counted leaving s' := by
  rcases Filesystem.callFileOp_ok hcall with
    ⟨cb, rfl⟩ | ⟨name, cb, -, hopen⟩ | ⟨oldName, newName, cb, -, hrename⟩
  · exact h.congr rfl rfl rfl rfl
  · exact h.fsOpenBlobCreateCb hroom hopen
  · exact h.fsMdRenameFile hrename

theorem spdkFsCreateFileAsync (h : Counted none s)
    (hroom : ∀ r f, s.files r = some f → f.refCount + 1 < 2 ^ 32)
    (hcreate : s.spdkFsCreateFileAsync name fn mem = .ok s') : Counted none s' := by
  have halloc : ∀ r f, (s.fileAlloc name).files r = some f → f.refCount + 1 < 2 ^ 32 := by
    intro r f hf
    by_cases hr : r = s.brk
    · subst hr
      rw [Filesystem.fileAlloc_files_self, Option.some.injEq] at hf
      subst hf
      decide
    · rw [Filesystem.fileAlloc_files_ne hr] at hf
      exact hroom r f hf
  rcases Filesystem.spdkFsCreateFileAsync_ok hcreate with
    ⟨_, hcall⟩ | ⟨-, -, hcall⟩ | ⟨-, -, rfl⟩
  · exact h.callFileOp hroom hcall
  · exact h.fileAlloc.callFileOp halloc hcall
  · refine Counted.send ?_ fun _ => rfl
    exact h.fileAlloc.setFile Filesystem.fileAlloc_files_self 0 rfl rfl

theorem spdkFsDeleteFileAsync (h : Counted leaving s)
    (hroom : ∀ r f, s.files r = some f → f.refCount + 1 < 2 ^ 32)
    (hdelete : s.spdkFsDeleteFileAsync name fn mem = .ok s') : Counted leaving s' := by
  rcases Filesystem.spdkFsDeleteFileAsync_ok hdelete with
    ⟨_, hcall⟩ | ⟨r, f, -, hf, ⟨blob, -, -, rfl⟩ | ⟨filename, -, -, rfl⟩⟩
  · exact h.callFileOp hroom hcall
  · refine Counted.send ?_ fun _ => rfl
    exact h.setFile hf 0 rfl rfl
  · refine Counted.send ?_ fun _ => rfl
    exact (h.fileFree : Counted leaving (s.fileFree r)).congr rfl rfl rfl rfl

theorem fileCloseAsyncDone (h : Counted leaving s)
    (hroom : ∀ r f, s.files r = some f → f.refCount + 1 < 2 ^ 32) {bserrno : Int}
    (hdone : s.fileCloseAsyncDone r cb bserrno mem = .ok s') : Counted leaving s' := by
  obtain ⟨f, -, ⟨-, rfl⟩ | ⟨name, -, -, hdelete⟩⟩ := Filesystem.fileCloseAsyncDone_ok hdone
  · exact h.congr rfl rfl rfl rfl
  · exact h.spdkFsDeleteFileAsync hroom hdelete

/-- A file that is closed loses the reference of the handle that is leaving. -/
theorem leave (h : Counted (some r) s) {f f' : SpdkFile} (hf : s.files r = some f)
    (hcount : f'.refCount = f.refCount - 1) (hqueue : f'.openRequests = f.openRequests) :
    Counted none (s.setFile r f') := by
  constructor
  · intro r' g hg
    by_cases hr : r' = r
    · subst hr
      rw [Filesystem.setFile_files_self, Option.some.injEq] at hg
      subst hg
      have hold := h.count r' f hf
      unfold Filesystem.users at hold ⊢
      rw [if_pos rfl] at hold
      change f'.refCount = f'.openRequests.length + s.handles.count r' + s.closing r' + 0
      rw [hcount, hqueue]
      omega
    · rw [Filesystem.setFile_files_ne f' hr] at hg
      have hold := h.count r' g hg
      rw [if_neg fun heq => hr (Option.some.inj heq).symm] at hold
      exact hold
  · intro r' hr'
    obtain ⟨hfree, hrest⟩ := h.unborn r' hr'
    refine ⟨?_, hrest⟩
    rw [Filesystem.setFile_files_ne f']
    · exact hfree
    · rintro rfl
      cases hf.symm.trans hfree

theorem fileCloseAsync (h : Counted (some r) s)
    (hclose : s.fileCloseAsync r cb mem = .ok s') : Counted none s' := by
  obtain ⟨f, hf, ⟨hzero, -⟩ | ⟨-, rfl⟩ | ⟨blob, -, -, rfl⟩⟩ := Filesystem.fileCloseAsync_ok hclose
  · have hcount := h.count r f hf
    rw [if_pos rfl, hzero] at hcount
    omega
  · have hleft : Counted none (s.setFile r { f with refCount := f.refCount - 1 }) :=
      h.leave hf rfl rfl
    exact hleft.congr rfl rfl rfl rfl
  · refine Counted.send ?_ fun _ => rfl
    exact h.leave hf rfl rfl

/-- The close of a handle goes into its sync. -/
theorem spdkFileCloseAsync (h : Counted none s) (hheld : r ∈ s.handles)
    (hclose : s.spdkFileCloseAsync r cb mem = .ok s') : Counted none s' := by
  obtain ⟨f, -, hrest⟩ := bind_ok.mp hclose
  by_cases hmem : mem.request = false
  · rw [if_pos hmem] at hrest
    obtain rfl := Except.ok.inj hrest
    exact h.congr rfl rfl rfl rfl
  rw [if_neg hmem] at hrest
  obtain rfl := Except.ok.inj hrest
  have hpos : 0 < s.handles.count r := List.count_pos_iff.mpr hheld
  have husers : ∀ r', (s.handles.erase r).count r' +
      (s.pending ++ [BsOp.closeSync r cb]).countP (BsOp.closes r') =
        s.handles.count r' + s.closing r' := by
    intro r'
    rw [List.countP_append, List.countP_singleton, Filesystem.closing]
    by_cases hr : r' = r
    · subst hr
      rw [List.count_erase_self]
      simp [BsOp.closes]
      omega
    · rw [List.count_erase_of_ne hr]
      simp [BsOp.closes, Ne.symm hr]
  constructor
  · intro r' g hg
    rw [h.count r' g hg]
    have hsame := husers r'
    change _ + _ + _ + _ = _ + (s.handles.erase r).count r' +
      (s.pending ++ [BsOp.closeSync r cb]).countP (BsOp.closes r') + _
    omega
  · intro r' hr'
    obtain ⟨hfree, hhandles, hclosing⟩ := h.unborn r' hr'
    have hsame := husers r'
    refine ⟨hfree, ?_, ?_⟩
    · change (s.handles.erase r).count r' = 0
      omega
    · change (s.pending ++ [BsOp.closeSync r cb]).countP (BsOp.closes r') = 0
      omega

/-- What completes is no longer pending; a close that leaves its sync still has its
reference. -/
theorem taken (h : Counted none s) {i : Nat} {op : BsOp} (hop : s.pending[i]? = some op)
    (hleaving : ∀ r, op.closes r = decide (leaving = some r)) :
    Counted leaving { s with pending := s.pending.eraseIdx i } := by
  have hclosing : ∀ r, s.closing r = (s.pending.eraseIdx i).countP (BsOp.closes r) +
      if leaving = some r then 1 else 0 := by
    intro r
    rw [Filesystem.closing, countP_taken _ hop, hleaving r]
    simp
  constructor
  · intro r f hf
    rw [h.count r f hf]
    have hsame := hclosing r
    change f.openRequests.length + s.handles.count r + s.closing r + 0 =
      f.openRequests.length + s.handles.count r +
        (s.pending.eraseIdx i).countP (BsOp.closes r) + _
    omega
  · intro r hr
    obtain ⟨hfree, hhandles, hnone⟩ := h.unborn r hr
    refine ⟨hfree, hhandles, ?_⟩
    have hsame := hclosing r
    change (s.pending.eraseIdx i).countP (BsOp.closes r) = 0
    omega

/-- A completion that is not the end of a close's sync. -/
theorem taken_other (h : Counted none s) {i : Nat} {op : BsOp} (hop : s.pending[i]? = some op)
    (hcloses : ∀ r, op.closes r = false) :
    Counted none { s with pending := s.pending.eraseIdx i } :=
  h.taken hop fun r => by simp [hcloses r]

/-- One completion keeps the references those of the users. -/
theorem resume (h : Counted none s) {i : Nat} {op : BsOp} {answer : Answer}
    (hop : s.pending[i]? = some op)
    (hroom : ∀ r f, s.files r = some f → f.refCount + 1 < 2 ^ 32)
    (hopened : ∀ r blobid, op = .openBlob r blobid → answer.bserrno = 0)
    (hresume : op.resume { s with pending := s.pending.eraseIdx i } answer mem = .ok s') :
    Counted none s' := by
  cases op with
  | createBlob r fn =>
      have hrest := h.taken_other hop fun _ => rfl
      simp only [BsOp.resume, Filesystem.fsCreateBlobCreateCb] at hresume
      split at hresume
      · exact hrest.callFileOp hroom hresume
      · obtain ⟨f, hf, hresume⟩ := bind_ok.mp hresume
        obtain rfl := Except.ok.inj hresume
        refine Counted.send ?_ fun _ => rfl
        exact hrest.setFile (Filesystem.file_ok.mp hf) 0 rfl rfl
  | createOpen r blobid fn =>
      have hrest := h.taken_other hop fun _ => rfl
      simp only [BsOp.resume, Filesystem.fsCreateBlobOpenCb] at hresume
      split at hresume
      · exact hrest.callFileOp hroom hresume
      · obtain rfl := Except.ok.inj hresume
        exact hrest.send fun _ => rfl
  | createResize r blob fn =>
      have hrest := h.taken_other hop fun _ => rfl
      simp only [BsOp.resume, Filesystem.fsCreateBlobResizeCb] at hresume
      split at hresume
      · obtain rfl := Except.ok.inj hresume
        exact hrest.send fun _ => rfl
      · obtain ⟨f, -, hresume⟩ := bind_ok.mp hresume
        cases hname : f.name with
        | none =>
            rw [hname] at hresume
            cases hresume
        | some name =>
            rw [hname] at hresume
            obtain rfl := Except.ok.inj hresume
            exact hrest.send fun _ => rfl
  | createClose blob rc fn => exact (h.taken_other hop fun _ => rfl).callFileOp hroom hresume
  | openBlob r blobid =>
      simp only [BsOp.resume, hopened r blobid rfl] at hresume
      exact (h.taken_other hop fun _ => rfl).fsOpenBlobDone hresume
  | closeSync r cb =>
      have hleave : Counted (some r) { s with pending := s.pending.eraseIdx i } :=
        h.taken hop fun r' => by simp [BsOp.closes]
      exact hleave.fileCloseAsync hresume
  | closeBlob r blob cb =>
      exact (h.taken_other hop fun _ => rfl).fileCloseAsyncDone hroom hresume
  | syncDeleted blob fn => exact (h.taken_other hop fun _ => rfl).callFileOp hroom hresume
  | deleteBlob blobid fn => exact (h.taken_other hop fun _ => rfl).callFileOp hroom hresume
  | renameOpen blobid newName cb =>
      simp only [BsOp.resume, Filesystem.fsRenameBlobOpenCb] at hresume
      split at hresume
      · cases hresume
      · obtain rfl := Except.ok.inj hresume
        exact (h.taken_other hop fun _ => rfl).send fun _ => rfl
  | renameClose blob cb =>
      obtain rfl := Except.ok.inj hresume
      exact (h.taken_other hop fun _ => rfl).congr rfl rfl rfl rfl

/-- One step keeps the references those of the users. -/
theorem step {e : Event} (h : Counted none s) (hok : OpensBlobs s e)
    (hstep : Steps s e s') : Counted none s' := by
  have hroom := hok.room
  cases e with
  | create name cb mem => exact h.spdkFsCreateFileAsync hroom hstep
  | «open» name create cb mem =>
      rcases Filesystem.spdkFsOpenFileAsync_ok hstep with
        ⟨_, rfl⟩ | ⟨-, hcreate⟩ | ⟨r, -, hopen⟩
      · exact h.congr rfl rfl rfl rfl
      · exact h.spdkFsCreateFileAsync hroom hcreate
      · exact h.fsOpenBlobCreateCb hroom hopen
  | delete name cb mem => exact h.spdkFsDeleteFileAsync hroom hstep
  | close r cb mem =>
      unfold Steps Fs.step at hstep
      dsimp only at hstep
      split at hstep
      · exact h.spdkFileCloseAsync ‹_› hstep
      · cases hstep
  | complete i answer mem =>
      unfold Steps Fs.step at hstep
      dsimp only at hstep
      split at hstep
      · cases hstep
      · rename_i op hop
        exact h.resume hop hroom
          (fun r blobid heq => hok.opened i answer mem r blobid rfl (heq ▸ hop)) hstep

end Counted

/-- In every run whose blob opens for a file succeed, each file's `ref_count` is the
number of opens on its queue and of its handles that are not closed. -/
theorem refCounted_of_runs {s₀ s : Filesystem} (hinitial : Initial s₀)
    (hrun : Runs Steps OpensBlobs s₀ s) : RefCounted s := by
  have hcounted : Counted none s := hrun.keeps (Counted.initial hinitial) fun h hok hstep =>
    h.step hok hstep
  intro r f hf
  have hcount := hcounted.count r f hf
  rwa [if_neg (fun heq => nomatch heq), Nat.add_zero] at hcount

theorem nameA_nulFree : (0 : UInt8) ∉ [97] := by decide

/-- A filesystem with a closed file, `"a"`. -/
def nameA : CString := ⟨[97], nameA_nulFree⟩

def fileA : SpdkFile := ⟨some nameA, some 5, none, 0, false, []⟩

def oneFile : Filesystem where
  files := Function.update (fun _ => none) 0 (some fileA)
  names := Function.update (fun _ => none) nameA (some 0)
  brk := 1
  pending := []
  handles := []
  replies := []

theorem oneFile_files {r : FileRef} {f : SpdkFile} (hf : oneFile.files r = some f) :
    r = 0 ∧ f = fileA := by
  by_cases hr : r = 0
  · subst hr
    exact ⟨rfl, (Option.some.inj hf).symm⟩
  · have hnone : oneFile.files r = none := by simp [oneFile, hr]
    cases hnone.symm.trans hf

theorem oneFile_initial : Initial oneFile := by
  refine ⟨rfl, rfl, fun r f hf => ?_, fun r f hf => ?_, fun name r hname => ?_⟩
  · obtain ⟨-, rfl⟩ := oneFile_files hf
    exact ⟨rfl, rfl, rfl, rfl⟩
  · obtain ⟨rfl, rfl⟩ := oneFile_files hf
    exact ⟨nofun, Nat.one_pos⟩
  · by_cases hn : name = nameA
    · subst hn
      obtain rfl : 0 = r := Option.some.inj hname
      exact ⟨fileA, rfl, rfl⟩
    · have hnone : oneFile.names name = none := by simp [oneFile, hn]
      cases hnone.symm.trans hname

def plenty : Memory := ⟨true, true, true⟩

/-- With an open of `"a"` waiting for its blob. -/
def openingA : Filesystem :=
  (oneFile.setFile 0 (fileA.opened 7)).send (.openBlob 0 (some 5))

theorem open_a : Steps oneFile (.open nameA false 7 plenty) openingA := rfl

/-- Opening `"a"`, with a blob open that succeeds. -/
theorem refCounted_of_runs_open : ∃ s, RefCounted s ∧ s.handles = [0] := by
  have hopen : OpensBlobs oneFile (.open nameA false 7 plenty) := by
    refine ⟨fun r g hg => ?_, nofun⟩
    rw [(oneFile_files hg).2]
    decide
  have hcomplete : OpensBlobs openingA (.complete 0 ⟨0, 0, some 3⟩ plenty) := by
    refine ⟨fun r g hg => ?_, fun i answer mem r blobid heq _ => by cases heq; rfl⟩
    by_cases hr : r = 0
    · subst hr
      obtain rfl : fileA.opened 7 = g := Option.some.inj hg
      decide
    · have hold : oneFile.files r = some g := (Filesystem.setFile_files_ne _ hr).symm.trans hg
      exact absurd (oneFile_files hold).1 hr
  have hdone : Steps openingA (.complete 0 ⟨0, 0, some 3⟩ plenty) _ := rfl
  exact ⟨_, refCounted_of_runs oneFile_initial (.tail (.one hopen open_a) hcomplete hdone), rfl⟩

/-- After a blob open failed, the reference of the open stays. -/
theorem refCounted_leak : ¬ ∀ s₀ s, Initial s₀ → Runs Steps (fun _ _ => True) s₀ s →
    RefCounted s := by
  intro hall
  have hfailed : Steps openingA (.complete 0 ⟨-5, 0, none⟩ plenty) _ := rfl
  have hcounted := hall _ _ oneFile_initial (.tail (.one trivial open_a) trivial hfailed)
  exact absurd (hcounted 0 _ rfl) (by decide)

end Nbfs.Fs
