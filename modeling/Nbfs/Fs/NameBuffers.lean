import Nbfs.Fs.TreeOps
import Nbfs.Fs.HalfBuilt

set_option autoImplicit false

/-!
# Names in their buffers

A name of up to `SPDK_FILE_NAME_MAX` bytes is accepted.  With its NUL it fits the key
buffers of the tree, which have one byte more; `filename` in `spdk_fs_delete_file_async`
has not.
-/

namespace Nbfs.Fs

open Nbfs.Lib

/-- The name passes the length checks. -/
def Accepted (name : CString) : Prop := name.strlen ≤ spdkFileNameMax

def FileOp.Short : FileOp → Prop
  | fsRenameDeleteDone _ newName _ => Accepted newName
  | _ => True

def BsOp.Short : BsOp → Prop
  | createBlob _ fn | createOpen _ _ fn | createResize _ _ fn | createClose _ _ fn => fn.Short
  | syncDeleted _ fn | deleteBlob _ fn => fn.Short
  | _ => True

/-- The invariant: the names of the files, and those that a file is to get, were accepted. -/
structure ShortNames (s : Filesystem) : Prop where
  file : ∀ r f name, s.files r = some f → f.name = some name → Accepted name
  pending : ∀ op ∈ s.pending, op.Short

/-- The deletion of the name copies a name of `SPDK_FILE_NAME_MAX` bytes: that of a file
that no one has open. -/
def Filesystem.DeletesLongest (s : Filesystem) (name : CString) (mem : Memory) : Prop :=
  mem.request = true ∧ name.strlen = spdkFileNameMax ∧
    ∃ r f, s.names name = some r ∧ s.files r = some f ∧ f.refCount = 0 ∧ f.name = some name

/-- The name of a file that is deleted when it is closed. -/
def Filesystem.leaves (s : Filesystem) (r : FileRef) : Option CString :=
  (s.files r).bind fun f => if f.isDeleted then f.name else none

/-- The name whose deletion a step begins, with the memory for it. -/
def Request.deletion (s : Filesystem) : Request → Option (CString × Memory)
  | .event (.delete name _ mem) => some (name, mem)
  | .event (.complete i _ mem) =>
      match s.pending[i]? with
      | some (.closeBlob r _ _) => (s.leaves r).map fun name => (name, mem)
      | some (.closeSync r _) =>
          (s.files r).bind fun f =>
            if f.refCount = 0 then (s.leaves r).map fun name => (name, mem) else none
      | _ => none
  | .rename _ newName _ mem deleteMem => if mem.request then some (newName, deleteMem) else none
  | _ => none

/-- The step deletes at once a file whose name has `SPDK_FILE_NAME_MAX` bytes. -/
def Request.DeletesLongest (s : Filesystem) (request : Request) : Prop :=
  ∃ name mem, request.deletion s = some (name, mem) ∧ s.DeletesLongest name mem

namespace ShortNames

variable {s s' : Filesystem} {r : FileRef} {fn : FileOp} {cb : CallRef} {mem : Memory}
  {name : CString}

/-- Only the files and what waits matter. -/
theorem congr (h : ShortNames s) (hfiles : s'.files = s.files)
    (hpending : ∀ op ∈ s'.pending, op ∈ s.pending) : ShortNames s' :=
  ⟨hfiles ▸ h.file, fun op hop => h.pending op (hpending op hop)⟩

theorem reply (h : ShortNames s) (fserrno : Int) : ShortNames (s.reply cb fserrno) :=
  h.congr rfl fun _ hop => hop

theorem send (h : ShortNames s) (op : BsOp) (hop : op.Short) : ShortNames (s.send op) := by
  refine ⟨h.file, fun other hother => ?_⟩
  rcases List.mem_append.mp hother with hother | hother
  · exact h.pending other hother
  · rw [List.mem_singleton.mp hother]
    exact hop

/-- A file gets an accepted name. -/
theorem setNamed (h : ShortNames s) {f : SpdkFile}
    (hf : ∀ name, f.name = some name → Accepted name) : ShortNames (s.setFile r f) := by
  refine ⟨fun r' g name hg hname => ?_, h.pending⟩
  by_cases hr : r' = r
  · subst hr
    obtain rfl := Option.some.inj ((Filesystem.setFile_files_self ..).symm.trans hg)
    exact hf name hname
  · exact h.file r' g name ((Filesystem.setFile_files_ne _ hr).symm.trans hg) hname

/-- Or keeps its own. -/
theorem setFile (h : ShortNames s) {f f' : SpdkFile} (hf : s.files r = some f)
    (hname : f'.name = f.name) : ShortNames (s.setFile r f') :=
  h.setNamed fun name hname' => h.file r f name hf (hname ▸ hname')

theorem fileAlloc (h : ShortNames s) : ShortNames (s.fileAlloc name) := by
  refine ⟨fun r g name' hg hname => ?_, h.pending⟩
  by_cases hr : r = s.brk
  · subst hr
    obtain rfl := Option.some.inj (Filesystem.fileAlloc_files_self.symm.trans hg)
    cases hname
  · exact h.file r g name' ((Filesystem.fileAlloc_files_ne hr).symm.trans hg) hname

theorem fileFree (h : ShortNames s) : ShortNames (s.fileFree r) := by
  refine ⟨fun r' g name hg hname => ?_, h.pending⟩
  by_cases hr : r' = r
  · subst hr
    cases (Filesystem.fileFree_files_self s r').symm.trans hg
  · exact h.file r' g name ((Filesystem.fileFree_files_ne hr).symm.trans hg) hname

theorem fsOpenBlobDone (h : ShortNames s) {blob : Option BlobRef} {bserrno : Int}
    (hdone : s.fsOpenBlobDone r blob bserrno = .ok s') : ShortNames s' := by
  obtain ⟨f, hf, rfl⟩ := Filesystem.fsOpenBlobDone_ok hdone
  have hset : ShortNames (s.setFile r { f with blob, openRequests := [] }) := h.setFile hf rfl
  exact hset.congr rfl fun _ hop => hop

theorem fsOpenBlobCreateCb (h : ShortNames s) {file : Option FileRef}
    (hopen : s.fsOpenBlobCreateCb file name cb = .ok s') : ShortNames s' := by
  obtain ⟨r, old, -, hold, hcases⟩ := Filesystem.fsOpenBlobCreateCb_ok hopen
  have hset : ShortNames (s.setFile r (old.opened cb)) := h.setFile hold rfl
  rcases hcases with ⟨-, -, rfl⟩ | ⟨-, -, rfl⟩ | ⟨-, -, hdone⟩
  · exact hset.send (.openBlob r old.blobid) trivial
  · exact hset
  · exact hset.fsOpenBlobDone hdone

theorem fsMdRenameFile (h : ShortNames s) {oldName newName : CString} (hnew : Accepted newName)
    (hrename : s.fsMdRenameFile oldName newName cb = .ok s') : ShortNames s' := by
  rcases Filesystem.fsMdRenameFile_ok hrename with ⟨-, rfl⟩ | ⟨r, f, name, -, -, -, rfl⟩
  · exact h.reply _
  · refine ShortNames.send ?_ (.renameOpen f.blobid newName cb) trivial
    have hnames : ShortNames { s with
        names := BplusTree.insertName (BplusTree.removeName s.names name) newName r } :=
      h.congr rfl fun _ hop => hop
    exact hnames.setNamed fun name hname => Option.some.inj hname ▸ hnew

theorem callFileOp (h : ShortNames s) (hfn : fn.Short) {fserrno : Int}
    (hcall : s.callFileOp fn fserrno = .ok s') : ShortNames s' := by
  rcases Filesystem.callFileOp_ok hcall with
    ⟨cb, rfl⟩ | ⟨name, cb, -, hopen⟩ | ⟨oldName, newName, cb, rfl, hrename⟩
  · exact h.reply _
  · exact h.fsOpenBlobCreateCb hopen
  · exact h.fsMdRenameFile hfn hrename

theorem spdkFsCreateFileAsync (h : ShortNames s) (hfn : fn.Short)
    (hcreate : s.spdkFsCreateFileAsync name fn mem = .ok s') : ShortNames s' := by
  by_cases hlong : spdkFileNameMax < name.strlen
  · unfold Filesystem.spdkFsCreateFileAsync at hcreate
    rw [if_pos hlong] at hcreate
    exact h.callFileOp hfn hcreate
  rcases Filesystem.spdkFsCreateFileAsync_ok hcreate with
    ⟨_, hcall⟩ | ⟨-, -, hcall⟩ | ⟨-, -, rfl⟩
  · exact h.callFileOp hfn hcall
  · exact h.fileAlloc.callFileOp hfn hcall
  · refine ShortNames.send (h.fileAlloc.setNamed fun name' hname => ?_) (.createBlob s.brk fn) hfn
    exact Option.some.inj hname ▸ Nat.le_of_not_lt hlong

theorem spdkFsOpenFileAsync (h : ShortNames s) {create : Bool}
    (hopen : s.spdkFsOpenFileAsync name create cb mem = .ok s') : ShortNames s' := by
  rcases Filesystem.spdkFsOpenFileAsync_ok hopen with ⟨_, rfl⟩ | ⟨-, hcreate⟩ | ⟨r, -, hopen⟩
  · exact h.reply _
  · exact h.spdkFsCreateFileAsync (show FileOp.Short (.fsOpenBlobCreateCb name cb) from trivial)
      hcreate
  · exact h.fsOpenBlobCreateCb hopen

theorem spdkFsDeleteFileAsync (h : ShortNames s) (hfn : fn.Short)
    (hdelete : s.spdkFsDeleteFileAsync name fn mem = .ok s') : ShortNames s' := by
  rcases Filesystem.spdkFsDeleteFileAsync_ok hdelete with
    ⟨_, hcall⟩ | ⟨r, f, -, hf, ⟨blob, -, -, rfl⟩ | ⟨filename, -, -, rfl⟩⟩
  · exact h.callFileOp hfn hcall
  · have hset : ShortNames (s.setFile r { f with isDeleted := true }) := h.setFile hf rfl
    exact hset.send (.syncDeleted blob fn) hfn
  · refine ShortNames.send ?_ (.deleteBlob f.blobid fn) hfn
    exact h.fileFree.congr rfl fun _ hop => hop

theorem fileCloseAsyncDone (h : ShortNames s) {bserrno : Int}
    (hdone : s.fileCloseAsyncDone r cb bserrno mem = .ok s') : ShortNames s' := by
  obtain ⟨f, -, ⟨-, rfl⟩ | ⟨name, -, -, hdelete⟩⟩ := Filesystem.fileCloseAsyncDone_ok hdone
  · exact h.reply _
  · exact h.spdkFsDeleteFileAsync (show FileOp.Short (.blobDeleteCb cb) from trivial) hdelete

theorem fileCloseAsync (h : ShortNames s) (hclose : s.fileCloseAsync r cb mem = .ok s') :
    ShortNames s' := by
  obtain ⟨f, hf, ⟨-, hdone⟩ | ⟨-, rfl⟩ | ⟨blob, -, -, rfl⟩⟩ := Filesystem.fileCloseAsync_ok hclose
  · exact h.fileCloseAsyncDone hdone
  · have hset : ShortNames (s.setFile r { f with refCount := f.refCount - 1 }) := h.setFile hf rfl
    exact hset.reply 0
  · have hset : ShortNames (s.setFile r { f with refCount := f.refCount - 1, blob := none }) :=
      h.setFile hf rfl
    exact hset.send (.closeBlob r blob cb) trivial

theorem spdkFsRenameFileAsync (h : ShortNames s) {oldName newName : CString} {deleteMem : Memory}
    (hrename : s.spdkFsRenameFileAsync oldName newName cb mem deleteMem = .ok s') :
    ShortNames s' := by
  unfold Filesystem.spdkFsRenameFileAsync at hrename
  split at hrename
  · obtain rfl := Except.ok.inj hrename
    exact h.reply _
  have hnew : Accepted newName := Nat.le_of_not_lt ‹_›
  split at hrename
  · obtain rfl := Except.ok.inj hrename
    exact h.reply _
  split at hrename
  · exact h.fsMdRenameFile hnew hrename
  · exact h.spdkFsDeleteFileAsync
      (show FileOp.Short (.fsRenameDeleteDone oldName newName cb) from hnew) hrename

theorem resume (h : ShortNames s) {op : BsOp} {answer : Answer} (hop : op.Short)
    (hresume : op.resume s answer mem = .ok s') : ShortNames s' := by
  cases op with
  | createBlob r fn =>
      simp only [BsOp.resume, Filesystem.fsCreateBlobCreateCb] at hresume
      split at hresume
      · exact h.callFileOp hop hresume
      · obtain ⟨f, hf, hresume⟩ := bind_ok.mp hresume
        obtain rfl := Except.ok.inj hresume
        have hset : ShortNames (s.setFile r { f with blobid := some answer.blobid }) :=
          h.setFile (Filesystem.file_ok.mp hf) rfl
        exact hset.send (.createOpen r answer.blobid fn) hop
  | createOpen r blobid fn =>
      simp only [BsOp.resume, Filesystem.fsCreateBlobOpenCb] at hresume
      split at hresume
      · exact h.callFileOp hop hresume
      · obtain rfl := Except.ok.inj hresume
        exact h.send (.createResize r answer.blob fn) hop
  | createResize r blob fn =>
      simp only [BsOp.resume, Filesystem.fsCreateBlobResizeCb] at hresume
      split at hresume
      · obtain rfl := Except.ok.inj hresume
        exact h.send (.createClose blob answer.bserrno fn) hop
      · obtain ⟨f, -, hresume⟩ := bind_ok.mp hresume
        split at hresume
        · cases hresume
        · obtain rfl := Except.ok.inj hresume
          exact h.send (.createClose blob 0 fn) hop
  | createClose blob rc fn => exact h.callFileOp hop hresume
  | openBlob r blobid => exact h.fsOpenBlobDone hresume
  | closeSync r cb => exact h.fileCloseAsync hresume
  | closeBlob r blob cb => exact h.fileCloseAsyncDone hresume
  | syncDeleted blob fn => exact h.callFileOp hop hresume
  | deleteBlob blobid fn => exact h.callFileOp hop hresume
  | renameOpen blobid newName cb =>
      simp only [BsOp.resume, Filesystem.fsRenameBlobOpenCb] at hresume
      split at hresume
      · cases hresume
      · obtain rfl := Except.ok.inj hresume
        exact h.send (.renameClose _ cb) trivial
  | renameClose blob cb =>
      obtain rfl := Except.ok.inj hresume
      exact h.reply _

theorem taken (h : ShortNames s) (i : Nat) :
    ShortNames { s with pending := s.pending.eraseIdx i } :=
  h.congr rfl fun _ hop => List.mem_of_mem_eraseIdx hop

/-- One step keeps the names short. -/
theorem step {s s' : Store} {request : Request} (h : ShortNames s.fs)
    (hstep : StoreSteps s request s') : ShortNames s'.fs := by
  cases request with
  | rename oldName newName cb mem deleteMem =>
      obtain ⟨fs, hfs, hstep⟩ := bind_ok.mp hstep
      obtain rfl := Except.ok.inj hstep
      exact h.spdkFsRenameFileAsync hfs
  | event e =>
      cases e with
      | complete i answer mem =>
          change s.complete i answer mem = .ok s' at hstep
          unfold Store.complete at hstep
          split at hstep
          · cases hstep
          rename_i op hop
          split at hstep
          · cases hstep
          obtain ⟨fs, hfs, hstep⟩ := bind_ok.mp hstep
          obtain rfl := Except.ok.inj hstep
          exact (h.taken i).resume (h.pending op (List.mem_of_getElem? hop)) hfs
      | create name cb mem =>
          obtain ⟨fs, hfs, hstep⟩ := bind_ok.mp hstep
          obtain rfl := Except.ok.inj hstep
          exact h.spdkFsCreateFileAsync (show FileOp.Short (.client cb) from trivial) hfs
      | «open» name create cb mem =>
          obtain ⟨fs, hfs, hstep⟩ := bind_ok.mp hstep
          obtain rfl := Except.ok.inj hstep
          exact h.spdkFsOpenFileAsync hfs
      | delete name cb mem =>
          obtain ⟨fs, hfs, hstep⟩ := bind_ok.mp hstep
          obtain rfl := Except.ok.inj hstep
          exact h.spdkFsDeleteFileAsync (show FileOp.Short (.client cb) from trivial) hfs
      | close r cb mem =>
          obtain ⟨fs, hfs, hstep⟩ := bind_ok.mp hstep
          obtain rfl := Except.ok.inj hstep
          simp only [Fs.step] at hfs
          split at hfs
          · obtain ⟨f, -, hfs⟩ := bind_ok.mp hfs
            split at hfs
            · obtain rfl := Except.ok.inj hfs
              exact h.reply _
            · obtain rfl := Except.ok.inj hfs
              have hhandles : ShortNames { s.fs with handles := s.fs.handles.erase r } :=
                h.congr rfl fun _ hop => hop
              exact hhandles.send (.closeSync r cb) trivial
          · cases hfs

/-! ### The keys of the tree -/

theorem renameOps (h : ShortNames s) {oldName newName : CString} (hnew : Accepted newName) :
    ∀ op ∈ s.renameOps oldName newName, Accepted op.key := by
  unfold Filesystem.renameOps
  split
  · exact nofun
  split
  · exact nofun
  rename_i name hname
  obtain ⟨f, hf, hname⟩ := Option.bind_eq_some_iff.mp hname
  exact List.forall_mem_cons.mpr ⟨h.file _ f name hf hname, List.forall_mem_singleton.mpr hnew⟩

theorem fileOpOps (h : ShortNames s) (hfn : fn.Short) :
    ∀ op ∈ s.fileOpOps fn, Accepted op.key := by
  cases fn with
  | fsRenameDeleteDone oldName newName cb => exact h.renameOps hfn
  | _ => exact nofun

theorem createOps (h : ShortNames s) (hfn : fn.Short) :
    ∀ op ∈ s.createOps name fn mem, Accepted op.key := by
  unfold Filesystem.createOps
  split
  · exact h.fileOpOps hfn
  split
  · exact h.fileOpOps hfn
  split
  · exact h.fileOpOps hfn
  refine List.forall_mem_cons.mpr ⟨Nat.le_of_not_lt ‹_›, ?_⟩
  split
  · exact h.fileAlloc.fileOpOps hfn
  · exact nofun

theorem openOps (h : ShortNames s) {create : Bool} :
    ∀ op ∈ s.openOps name create cb mem, Accepted op.key := by
  unfold Filesystem.openOps
  split
  · exact nofun
  split
  · split
    · exact nofun
    split
    · exact nofun
    · exact h.createOps (show FileOp.Short (.fsOpenBlobCreateCb name cb) from trivial)
  · exact nofun

theorem deleteOps (h : ShortNames s) (hfn : fn.Short) :
    ∀ op ∈ s.deleteOps name fn mem, Accepted op.key := by
  unfold Filesystem.deleteOps
  split
  · exact h.fileOpOps hfn
  split
  · exact h.fileOpOps hfn
  split
  · exact h.fileOpOps hfn
  split
  · exact nofun
  rename_i f hf
  split
  · exact nofun
  intro op hop
  obtain ⟨filename, hfilename, rfl⟩ := Option.map_eq_some_iff.mp (Option.mem_toList.mp hop)
  exact h.file _ f filename hf hfilename

theorem closeDoneOps (h : ShortNames s) : ∀ op ∈ s.closeDoneOps r cb mem, Accepted op.key := by
  unfold Filesystem.closeDoneOps
  split
  · exact nofun
  split
  · exact nofun
  split
  · exact h.deleteOps (show FileOp.Short (.blobDeleteCb cb) from trivial)
  · exact nofun

theorem closeOps (h : ShortNames s) : ∀ op ∈ s.closeOps r cb mem, Accepted op.key := by
  unfold Filesystem.closeOps
  split
  · exact nofun
  split
  · exact h.closeDoneOps
  · exact nofun

/-- Every key that a step gives to the tree was accepted. -/
theorem treeOps (h : ShortNames s) (request : Request) :
    ∀ op ∈ request.treeOps s, Accepted op.key := by
  unfold Request.treeOps
  split
  · exact h.createOps (show FileOp.Short (.client _) from trivial)
  · exact h.openOps
  · exact h.deleteOps (show FileOp.Short (.client _) from trivial)
  · exact nofun
  · split
    · exact nofun
    rename_i op hop
    have hshort := h.pending op (List.mem_of_getElem? hop)
    cases op with
    | createBlob r fn =>
        dsimp only [BsOp.treeOps]
        split
        · exact h.fileOpOps hshort
        · exact nofun
    | createOpen r blobid fn =>
        dsimp only [BsOp.treeOps]
        split
        · exact h.fileOpOps hshort
        · exact nofun
    | createClose blob rc fn => exact h.fileOpOps hshort
    | syncDeleted blob fn => exact h.fileOpOps hshort
    | deleteBlob blobid fn => exact h.fileOpOps hshort
    | closeSync r cb => exact h.closeOps
    | closeBlob r blob cb => exact h.closeDoneOps
    | _ => exact nofun
  · unfold Filesystem.renameFileOps
    split
    · exact nofun
    have hnew := Nat.le_of_not_lt ‹_›
    split
    · exact nofun
    split
    · exact h.renameOps hnew
    · exact h.deleteOps (show FileOp.Short (.fsRenameDeleteDone _ _ _) from hnew)

end ShortNames

/-! ### The copy of the name in a deletion -/

section overflow

variable {s : Filesystem} {r : FileRef} {fn : FileOp} {cb : CallRef} {mem : Memory}
  {name : CString}

/-- A deletion writes behind `filename` if and only if the name has all its bytes. -/
theorem spdkFsDeleteFileAsync_overflow_iff (hshort : ShortNames s) (hkeyed : Keyed s) :
    s.spdkFsDeleteFileAsync name fn mem = .error .overflow ↔ s.DeletesLongest name mem := by
  constructor
  · intro h
    unfold Filesystem.spdkFsDeleteFileAsync at h
    split at h
    · exact absurd h (callFileOp_ne rfl)
    split at h
    · exact absurd h (callFileOp_ne rfl)
    rename_i r hname
    split at h
    · exact absurd h (callFileOp_ne rfl)
    have hrequest : mem.request = true := by simpa using ‹¬ mem.request = false›
    cases hf : s.files r with
    | none =>
        simp only [Filesystem.file, hf] at h
        cases h
    | some f =>
        simp only [Filesystem.file, hf, bind, Except.bind] at h
        split at h
        · split at h
          · cases h
          · cases h
        rename_i hzero
        split at h
        · cases h
        rename_i filename hfilename
        split at h
        · rename_i hlong
          obtain ⟨rfl, -⟩ := hkeyed.inj hf hfilename hname hname
          exact ⟨hrequest, Nat.le_antisymm (hshort.file r f name hf hfilename) hlong, r, f, hname,
            hf, Nat.eq_zero_of_not_pos hzero, hfilename⟩
        · cases h
  · rintro ⟨hrequest, hlen, r, f, hname, hf, hzero, hfilename⟩
    unfold Filesystem.spdkFsDeleteFileAsync
    rw [if_neg (by omega), hname]
    dsimp only
    rw [if_neg (by simp [hrequest]), Filesystem.file_ok.mpr hf]
    simp only [bind, Except.bind, hzero, Nat.lt_irrefl, if_false, hfilename, hlen, Nat.le_refl,
      if_true]

/-- The end of a close does, if the file goes with it. -/
theorem fileCloseAsyncDone_overflow_iff (hshort : ShortNames s) (hkeyed : Keyed s)
    {bserrno : Int} : s.fileCloseAsyncDone r cb bserrno mem = .error .overflow ↔
      ∃ name, s.leaves r = some name ∧ s.DeletesLongest name mem := by
  unfold Filesystem.fileCloseAsyncDone Filesystem.leaves
  cases hf : s.files r with
  | none =>
      simp [Filesystem.file, hf, bind, Except.bind]
  | some f =>
      simp only [Filesystem.file, hf, bind, Except.bind, Option.bind_some]
      by_cases hdeleted : f.isDeleted = true
      · rw [if_pos hdeleted, if_pos hdeleted]
        cases hname : f.name with
        | none => simp
        | some name =>
            refine (spdkFsDeleteFileAsync_overflow_iff hshort hkeyed).trans ?_
            simp
      · rw [if_neg hdeleted, if_neg hdeleted]
        exact iff_of_false nofun (by simp)

theorem fileCloseAsync_overflow_iff (hshort : ShortNames s) (hkeyed : Keyed s) :
    s.fileCloseAsync r cb mem = .error .overflow ↔
      ∃ f, s.files r = some f ∧ f.refCount = 0 ∧
        ∃ name, s.leaves r = some name ∧ s.DeletesLongest name mem := by
  unfold Filesystem.fileCloseAsync
  cases hf : s.files r with
  | none => simp [Filesystem.file, hf, bind, Except.bind]
  | some f =>
      simp only [Filesystem.file, hf, bind, Except.bind, Option.some.injEq, exists_eq_left']
      by_cases hzero : f.refCount = 0
      · rw [if_pos hzero, and_iff_right hzero]
        exact fileCloseAsyncDone_overflow_iff hshort hkeyed
      · rw [if_neg hzero]
        refine iff_of_false ?_ fun h => hzero h.1
        split
        · exact nofun
        · split
          · exact nofun
          · exact nofun

theorem spdkFsRenameFileAsync_overflow_iff (hshort : ShortNames s) (hkeyed : Keyed s)
    {oldName newName : CString} {deleteMem : Memory} :
    s.spdkFsRenameFileAsync oldName newName cb mem deleteMem = .error .overflow ↔
      mem.request = true ∧ s.DeletesLongest newName deleteMem := by
  unfold Filesystem.spdkFsRenameFileAsync
  split
  · refine iff_of_false nofun ?_
    rintro ⟨-, -, hlen, -⟩
    omega
  split
  · rename_i hrequest
    exact iff_of_false nofun fun h => nomatch hrequest.symm.trans h.1
  have hrequest : mem.request = true := by simpa using ‹¬ mem.request = false›
  rw [and_iff_right hrequest]
  split
  · rename_i hnone
    refine iff_of_false (fsMdRenameFile_ne rfl) ?_
    rintro ⟨-, -, r, f, hname, -⟩
    cases hnone.symm.trans hname
  · exact spdkFsDeleteFileAsync_overflow_iff hshort hkeyed

/-- A completion overflows if and only if it deletes such a file. -/
theorem resume_overflow_iff (hshort : ShortNames s) (hkeyed : Keyed s) {i : Nat} {op : BsOp}
    {answer : Answer} (hop : s.pending[i]? = some op) :
    op.resume { s with pending := s.pending.eraseIdx i } answer mem = .error .overflow ↔
      (Request.event (.complete i answer mem)).DeletesLongest s := by
  have hshort' := hshort.taken i
  have hkeyed' : Keyed { s with pending := s.pending.eraseIdx i } := hkeyed.congr rfl rfl rfl
  unfold Request.DeletesLongest
  simp only [Request.deletion, hop]
  cases op with
  | closeBlob r blob cb =>
      refine (fileCloseAsyncDone_overflow_iff hshort' hkeyed').trans ?_
      simp only [Option.map_eq_some_iff, Prod.mk.injEq]
      constructor
      · rintro ⟨name, hname, hlongest⟩
        exact ⟨name, mem, ⟨name, hname, rfl, rfl⟩, hlongest⟩
      · rintro ⟨name, _, ⟨_, hname, rfl, rfl⟩, hlongest⟩
        exact ⟨_, hname, hlongest⟩
  | closeSync r cb =>
      refine (fileCloseAsync_overflow_iff hshort' hkeyed').trans ?_
      simp only [Option.bind_eq_some_iff]
      constructor
      · rintro ⟨f, hf, hzero, name, hname, hlongest⟩
        refine ⟨name, mem, ⟨f, hf, ?_⟩, hlongest⟩
        rw [if_pos hzero]
        exact Option.map_eq_some_iff.mpr ⟨name, hname, rfl⟩
      · rintro ⟨name, mem', ⟨f, hf, hdeletes⟩, hlongest⟩
        split at hdeletes
        · obtain ⟨_, hname, heq⟩ := Option.map_eq_some_iff.mp hdeletes
          cases heq
          exact ⟨f, hf, ‹_›, name, hname, hlongest⟩
        · cases hdeletes
  | _ => exact iff_of_false (resume_ne rfl nofun nofun) (by simp)

end overflow

/-- A step writes behind `filename` if and only if it deletes such a file. -/
theorem step_overflow_iff {s : Store} (hshort : ShortNames s.fs) (hkeyed : Keyed s.fs)
    {request : Request} :
    s.step request = .error .overflow ↔ request.DeletesLongest s.fs := by
  cases request with
  | rename oldName newName cb mem deleteMem =>
      refine bind_pure_error.trans
        ((spdkFsRenameFileAsync_overflow_iff hshort hkeyed).trans ?_)
      unfold Request.DeletesLongest
      simp only [Request.deletion]
      split
      · rename_i hrequest
        simp only [hrequest, true_and, Option.some.injEq, Prod.mk.injEq]
        constructor
        · exact fun h => ⟨newName, deleteMem, ⟨rfl, rfl⟩, h⟩
        · rintro ⟨_, _, ⟨rfl, rfl⟩, h⟩
          exact h
      · rename_i hrequest
        exact iff_of_false (fun h => hrequest h.1) (by simp)
  | event e =>
      cases e with
      | complete i answer mem =>
          change s.complete i answer mem = .error .overflow ↔ _
          unfold Store.complete
          split
          · rename_i hnone
            refine iff_of_false (by simp) ?_
            rintro ⟨name, mem, hdeletes, -⟩
            simp only [Request.deletion, hnone] at hdeletes
            cases hdeletes
          rename_i op hop
          split
          · rename_i hanswers
            refine iff_of_false (by simp) fun hlongest => ?_
            have hresume : op.resume { s.fs with pending := s.fs.pending.eraseIdx i } answer mem =
                .error .overflow := (resume_overflow_iff hshort hkeyed hop).mpr hlongest
            cases op with
            | closeSync r cb => cases hanswers
            | closeBlob r blob cb => cases hanswers
            | _ => exact absurd hresume (resume_ne rfl (by simp) (by simp))
          · exact bind_pure_error.trans (resume_overflow_iff hshort hkeyed hop)
      | create name cb mem =>
          refine iff_of_false (mt bind_pure_error.mp (spdkFsCreateFileAsync_ne rfl)) ?_
          rintro ⟨_, _, hdeletes, -⟩
          cases hdeletes
      | «open» name create cb mem =>
          refine iff_of_false (mt bind_pure_error.mp (spdkFsOpenFileAsync_ne rfl)) ?_
          rintro ⟨_, _, hdeletes, -⟩
          cases hdeletes
      | delete name cb mem =>
          refine bind_pure_error.trans
            ((spdkFsDeleteFileAsync_overflow_iff hshort hkeyed).trans ?_)
          constructor
          · exact fun h => ⟨name, mem, rfl, h⟩
          · rintro ⟨_, _, heq, h⟩
            cases heq
            exact h
      | close r cb mem =>
          have hne : Fs.step s.fs (.close r cb mem) ≠ .error .overflow := by
            simp only [Fs.step]
            split
            · exact spdkFileCloseAsync_ne rfl
            · simp
          refine iff_of_false (mt bind_pure_error.mp hne) ?_
          rintro ⟨_, _, hdeletes, -⟩
          cases hdeletes

open BplusTree in
/-- In every run from a store whose names were accepted, a step writes behind `filename` if and
only if it deletes at once a file whose name has `SPDK_FILE_NAME_MAX` bytes; and whatever tree
the names were loaded into, no call of the tree, up to those of that step, finds a key buffer
too small. -/
theorem copiesFit_of_runs {t₀ t : Traced} (hinitial : StoreInitial t₀.store)
    (hnames : ∀ r f name, t₀.store.fs.files r = some f → f.name = some name → Accepted name)
    (hops : t₀.ops = []) (hrun : Runs TracedSteps (fun _ _ => True) t₀ t) (request : Request) :
    (t.store.step request = .error .overflow ↔ request.DeletesLongest t.store.fs) ∧
      ∀ (start : Start) (loading : List Call) (garbage : Nat → Int),
        (∀ c ∈ loading, Accepted c.key) →
          ∃ root h, (start.root >>= runCalls (loading ++ treeCalls garbage
            (t.ops ++ request.treeOps t.store.fs))) Heap.empty = some (root, h) := by
  have hboth : (Keyed t.store.fs ∧ ShortNames t.store.fs) ∧ ∀ op ∈ t.ops, Accepted op.key := by
    refine hrun.keeps (P := fun t => (Keyed t.store.fs ∧ ShortNames t.store.fs) ∧
      ∀ op ∈ t.ops, Accepted op.key) ?_ fun {t₁ request t₂} hold _ hstep => ?_
    · refine ⟨⟨Keyed.initial hinitial.fs, hnames, ?_⟩, ?_⟩
      · rw [hinitial.fs.pending]
        exact nofun
      · rw [hops]
        exact nofun
    · obtain ⟨⟨hkeyed, hshort⟩, haccepted⟩ := hold
      refine ⟨⟨hkeyed.step hstep.1, hshort.step hstep.1⟩, ?_⟩
      rw [hstep.2]
      exact List.forall_mem_append.mpr ⟨haccepted, hshort.treeOps request⟩
  obtain ⟨⟨hkeyed, hshort⟩, haccepted⟩ := hboth
  refine ⟨step_overflow_iff hshort hkeyed, fun start loading garbage hloading => ?_⟩
  have hfit : ∀ c ∈ loading ++ treeCalls garbage (t.ops ++ request.treeOps t.store.fs), c.Fits := by
    refine List.forall_mem_append.mpr ⟨fun c hc => Nat.lt_succ_of_le (hloading c hc), ?_⟩
    intro c hc
    obtain ⟨op, hop, hkey⟩ := mem_treeCalls hc
    have hall := List.forall_mem_append.mpr ⟨haccepted, hshort.treeOps request⟩
    rw [Call.Fits, hkey]
    exact Nat.lt_succ_of_le (hall op hop)
  obtain ⟨root₁, h₁, hstart, hS₁⟩ := Standing.start start
  obtain ⟨root, h, hcalls, -⟩ := hS₁.runCalls hfit
  exact ⟨root, h, by rw [CM.bind_run_of hstart, hcalls]⟩

/-- A filesystem without files. -/
def emptyStore : Store := ⟨⟨fun _ => none, fun _ => none, 0, [], [], []⟩, fun _ => false⟩

theorem emptyStore_initial : StoreInitial emptyStore :=
  ⟨⟨rfl, rfl, nofun, nofun, nofun⟩, nofun⟩

/-- While its first file is created. -/
def creating (name : CString) : Traced where
  store := ⟨((emptyStore.fs.fileAlloc name).setFile 0 ⟨some name, none, none, 0, false, []⟩).send
    (.createBlob 0 (.client 1)), fun _ => false⟩
  ops := [.insert name 0]

theorem create_empty {name : CString} (h : Accepted name) :
    TracedSteps ⟨emptyStore, []⟩ (.event (.create name 1 plenty)) (creating name) := by
  have hshort : ¬ spdkFileNameMax < name.strlen := Nat.not_lt.mpr h
  constructor
  · change (do
      let fs ← emptyStore.fs.spdkFsCreateFileAsync name (.client 1) plenty
      return { emptyStore with fs }) = .ok (creating name).store
    rw [Filesystem.spdkFsCreateFileAsync, if_neg hshort]
    rfl
  · change [TreeOp.insert name 0] = emptyStore.fs.createOps name (.client 1) plenty
    rw [Filesystem.createOps, if_neg hshort]
    rfl

/-- Deleting it again, before its blob is there. -/
theorem creating_deletesLongest_iff {name : CString} :
    (Request.event (.delete name 2 plenty)).DeletesLongest (creating name).store.fs ↔
      name.strlen = spdkFileNameMax := by
  constructor
  · rintro ⟨_, _, heq, -, hlen, -⟩
    cases heq
    exact hlen
  · intro hlen
    have hname : BplusTree.insertName emptyStore.fs.names name 0 name = some 0 :=
      BplusTree.insertName_self 0
    exact ⟨name, plenty, rfl, rfl, hlen, 0, _, hname, rfl, rfl, rfl⟩

/-- A name of one byte fits. -/
theorem copiesFit_of_runs_one :
    (creating nameA).store.step (.event (.delete nameA 2 plenty)) ≠ .error .overflow ∧
      ∃ root h, (BplusTree.Start.initial.root >>= BplusTree.runCalls (treeCalls (fun _ => 1)
        ([.insert nameA 0] ++ (Request.event (.delete nameA 2 plenty)).treeOps
          (creating nameA).store.fs))) BplusTree.Heap.empty = some (root, h) := by
  have hnameA : Accepted nameA := by
    unfold Accepted
    decide
  have hrun : Runs TracedSteps (fun _ _ => True) ⟨emptyStore, []⟩ (creating nameA) :=
    .one trivial (create_empty hnameA)
  have hnames : ∀ r f name, emptyStore.fs.files r = some f → f.name = some name →
      Accepted name := nofun
  obtain ⟨hiff, htree⟩ := copiesFit_of_runs emptyStore_initial hnames rfl hrun
    (.event (.delete nameA 2 plenty))
  refine ⟨fun hoverflow => ?_, htree .initial [] (fun _ => 1) nofun⟩
  exact absurd (creating_deletesLongest_iff.mp (hiff.mp hoverflow)) (by decide)

/-- The longest name that is accepted. -/
def longestName : CString := ⟨List.replicate spdkFileNameMax 97, by simp⟩

/-- The copy of the longest name writes its NUL behind the end of `filename`. -/
theorem copiesFit_longest : ¬ ∀ (t₀ t : Traced) (request : Request), StoreInitial t₀.store →
    (∀ r f name, t₀.store.fs.files r = some f → f.name = some name → Accepted name) →
      t₀.ops = [] → Runs TracedSteps (fun _ _ => True) t₀ t →
        t.store.step request ≠ .error .overflow := by
  intro hall
  have hlen : longestName.strlen = spdkFileNameMax := List.length_replicate
  have haccepted : Accepted longestName := Nat.le_of_eq hlen
  have hstep := create_empty haccepted
  have hkeyed : Keyed (creating longestName).store.fs :=
    (Keyed.initial emptyStore_initial.fs).step hstep.1
  have hshort : ShortNames (creating longestName).store.fs :=
    (show ShortNames emptyStore.fs from ⟨nofun, nofun⟩).step hstep.1
  refine hall ⟨emptyStore, []⟩ (creating longestName) (.event (.delete longestName 2 plenty))
    emptyStore_initial nofun rfl (.one trivial hstep) ?_
  exact (step_overflow_iff hshort hkeyed).mpr (creating_deletesLongest_iff.mpr hlen)

end Nbfs.Fs
