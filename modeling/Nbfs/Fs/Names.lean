import Nbfs.BplusTree.Directory
import Nbfs.Lib.Fallible
import Nbfs.Lib.Runs
import Mathlib.Algebra.Group.Nat.Defs

set_option autoImplicit false

/-!
# Creating, opening, closing, deleting and renaming files (`lib/NBFS/NBFS.c`)

A function runs until it has handed its work to the blobstore; the rest of it is
a callback.  The filesystem steps once for each call of a client and once for each
completion, in any order.  Of the cache of a file only this matters here: a close
begins with a sync, which calls back at some later time.
-/

namespace Nbfs.Fs

open Nbfs.Lib

/-- `spdk_blob_id`. -/
abbrev BlobId := UInt64

/-- The address of a `struct spdk_file`. -/
abbrev FileRef := BplusTree.FileRef

/-- A `struct spdk_blob *` other than NULL. -/
abbrev BlobRef := Nat

/-- The `cb_arg` of a client's call. -/
abbrev CallRef := Nat

def enoent : Int := 2
def ebadf : Int := 9
def enomem : Int := 12
def eexist : Int := 17
def enametoolong : Int := 36

/-- `SPDK_FILE_NAME_MAX`. -/
def spdkFileNameMax : Nat := 255

/-- `struct spdk_file`, as far as these functions use it. -/
structure SpdkFile where
  /-- NULL until `spdk_fs_create_file_async` has set it. -/
  name : Option CString
  /-- `none` until `fs_create_blob_create_cb` has set it; the code reads 0 there. -/
  blobid : Option BlobId
  blob : Option BlobRef
  /-- `uint32_t`. -/
  refCount : Nat
  isDeleted : Bool
  openRequests : List CallRef

/-- `ref_count++`, and the request is put on the queue. -/
def SpdkFile.opened (f : SpdkFile) (cb : CallRef) : SpdkFile :=
  { f with refCount := (f.refCount + 1) % 2 ^ 32, openRequests := f.openRequests ++ [cb] }

/-- `args->fn.file_op` with its argument. -/
inductive FileOp where
  /-- The client's `cb_fn`, or `__wake_caller`. -/
  | client (cb : CallRef)
  /-- `fs_open_blob_create_cb`, for an open whose `args->file` is NULL. -/
  | fsOpenBlobCreateCb (name : CString) (cb : CallRef)
  /-- `blob_delete_cb`, with the request of a close. -/
  | blobDeleteCb (cb : CallRef)
  /-- `fs_rename_delete_done`, with the request of a rename. -/
  | fsRenameDeleteDone (oldName newName : CString) (cb : CallRef)

/-- What waits for the blobstore, each with the function it calls back. -/
inductive BsOp where
  /-- `spdk_bs_create_blob`, then `fs_create_blob_create_cb`. -/
  | createBlob (file : FileRef) (fn : FileOp)
  /-- `spdk_bs_open_blob`, then `fs_create_blob_open_cb`. -/
  | createOpen (file : FileRef) (blobid : BlobId) (fn : FileOp)
  /-- `spdk_blob_resize`, then `fs_create_blob_resize_cb`. -/
  | createResize (file : FileRef) (blob : Option BlobRef) (fn : FileOp)
  /-- `spdk_blob_close`, then `fs_create_blob_close_cb`. -/
  | createClose (blob : Option BlobRef) (rc : Int) (fn : FileOp)
  /-- `spdk_bs_open_blob`, then `fs_open_blob_done`. -/
  | openBlob (file : FileRef) (blobid : Option BlobId)
  /-- `spdk_file_sync_async`, then `__file_close_async__sync_done`. -/
  | closeSync (file : FileRef) (cb : CallRef)
  /-- `spdk_blob_close`, then `__file_close_async_done`. -/
  | closeBlob (file : FileRef) (blob : BlobRef) (cb : CallRef)
  /-- `spdk_blob_sync_md`, then `blob_delete_cb`. -/
  | syncDeleted (blob : BlobRef) (fn : FileOp)
  /-- `spdk_bs_delete_blob`, then `blob_delete_cb`. -/
  | deleteBlob (blobid : Option BlobId) (fn : FileOp)
  /-- `spdk_bs_open_blob`, then `fs_rename_blob_open_cb`. -/
  | renameOpen (blobid : Option BlobId) (newName : CString) (cb : CallRef)
  /-- `spdk_blob_close`, then `fs_rename_blob_close_cb`. -/
  | renameClose (blob : BlobRef) (cb : CallRef)

/-- A call of a client's `cb_fn`. -/
structure Reply where
  cb : CallRef
  fserrno : Int
  file : Option FileRef

/-- `struct spdk_filesystem` with its files. -/
structure Filesystem where
  /-- Files that are allocated. -/
  files : FileRef → Option SpdkFile
  /-- `fs->files`: the map that the B+ tree keeps. -/
  names : CString → Option FileRef
  /-- The next address. -/
  brk : Nat
  pending : List BsOp
  /-- The handles clients hold, one for each open that was delivered with 0. -/
  handles : List FileRef
  replies : List Reply

/-- Where the code has no defined behaviour, or stops. -/
inductive Fault where
  /-- A `struct spdk_file` is used after it was freed. -/
  | freedFile
  /-- `file->blob` is used while it is NULL. -/
  | nullBlob
  /-- `file->name` is used while it is NULL. -/
  | nullName
  /-- `spdk_blob_set_xattr` is given NULL. -/
  | nullHandle
  /-- `strcpy` writes behind the end of `filename`. -/
  | overflow
  | assertion
  /-- No such handle, or no such completion. -/
  | noEvent

/-- Which allocations succeed. -/
structure Memory where
  /-- `alloc_fs_request` of the call. -/
  request : Bool
  /-- `file_alloc`. -/
  file : Bool
  /-- `alloc_fs_request` of `spdk_fs_create_file_async`. -/
  createRequest : Bool

namespace Filesystem

variable (s : Filesystem)

def file (r : FileRef) : Except Fault SpdkFile :=
  match s.files r with
  | some f => .ok f
  | none => .error .freedFile

def setFile (r : FileRef) (f : SpdkFile) : Filesystem :=
  { s with files := Function.update s.files r (some f) }

def send (op : BsOp) : Filesystem := { s with pending := s.pending ++ [op] }

/-- `cb_fn(cb_arg, fserrno)`. -/
def reply (cb : CallRef) (fserrno : Int) : Filesystem :=
  { s with replies := s.replies ++ [⟨cb, fserrno, none⟩] }

/-- `file_alloc`, when it succeeds; a name that is in the tree keeps its file. -/
def fileAlloc (name : CString) : Filesystem :=
  { s with
    files := Function.update s.files s.brk (some ⟨none, none, none, 0, false, []⟩)
    names := BplusTree.insertName s.names name s.brk
    brk := s.brk + 1 }

/-- `file_free`, the cache apart. -/
def fileFree (r : FileRef) : Filesystem := { s with files := Function.update s.files r none }

/-- `fs_open_blob_done`: every request on the queue gets the file and `bserrno`. -/
def fsOpenBlobDone (r : FileRef) (blob : Option BlobRef) (bserrno : Int) :
    Except Fault Filesystem := do
  let f ← s.file r
  let s := s.setFile r { f with blob, openRequests := [] }
  return { s with
    replies := s.replies ++ f.openRequests.map fun cb => ⟨cb, bserrno, some r⟩
    handles := s.handles ++ if bserrno = 0 then f.openRequests.map fun _ => r else [] }

/-- The file of `fs_open_blob_create_cb`: `args->file`, or what the name stands for now. -/
def openedFile (file : Option FileRef) (name : CString) : Except Fault FileRef :=
  match file with
  | some r => .ok r
  | none =>
      match s.names name with
      | some r => .ok r
      | none => .error .assertion

/-- `fs_open_blob_create_cb`. -/
def fsOpenBlobCreateCb (file : Option FileRef) (name : CString) (cb : CallRef) :
    Except Fault Filesystem := do
  let r ← s.openedFile file name
  let old ← s.file r
  let f := old.opened cb
  let s := s.setFile r f
  if f.refCount = 1 then
    if f.blob.isSome then .error .assertion
    else return s.send (.openBlob r f.blobid)
  else if f.blob.isSome then s.fsOpenBlobDone r f.blob 0
  else return s

/-- `_fs_md_rename_file`. -/
def fsMdRenameFile (oldName newName : CString) (cb : CallRef) : Except Fault Filesystem :=
  match s.names oldName with
  | none => .ok (s.reply cb (-enoent))
  | some r => do
      let f ← s.file r
      match f.name with
      | none => .error .nullName
      | some name =>
          let names := BplusTree.insertName (BplusTree.removeName s.names name) newName r
          let s := { s with names }.setFile r { f with name := some newName }
          return s.send (.renameOpen f.blobid newName cb)

/-- `args->fn.file_op(args->arg, fserrno)`. -/
def callFileOp (fn : FileOp) (fserrno : Int) : Except Fault Filesystem :=
  match fn with
  | .client cb => .ok (s.reply cb fserrno)
  | .fsOpenBlobCreateCb name cb => s.fsOpenBlobCreateCb none name cb
  | .blobDeleteCb cb => .ok (s.reply cb fserrno)
  | .fsRenameDeleteDone oldName newName cb => s.fsMdRenameFile oldName newName cb

/-! ### Creating a file -/

/-- `fs_create_blob_close_cb`. -/
def fsCreateBlobCloseCb (rc : Int) (fn : FileOp) (bserrno : Int) : Except Fault Filesystem :=
  s.callFileOp fn (if rc ≠ 0 then rc else bserrno)

/-- `fs_create_blob_resize_cb`. -/
def fsCreateBlobResizeCb (r : FileRef) (blob : Option BlobRef) (fn : FileOp) (bserrno : Int) :
    Except Fault Filesystem :=
  if bserrno ≠ 0 then .ok (s.send (.createClose blob bserrno fn))
  else do
    let f ← s.file r
    match f.name with
    | none => .error .nullName
    | some _ => return s.send (.createClose blob 0 fn)

/-- `fs_create_blob_open_cb`. -/
def fsCreateBlobOpenCb (r : FileRef) (fn : FileOp) (blob : Option BlobRef) (bserrno : Int) :
    Except Fault Filesystem :=
  if bserrno ≠ 0 then s.callFileOp fn bserrno
  else .ok (s.send (.createResize r blob fn))

/-- `fs_create_blob_create_cb`. -/
def fsCreateBlobCreateCb (r : FileRef) (fn : FileOp) (blobid : BlobId) (bserrno : Int) :
    Except Fault Filesystem :=
  if bserrno ≠ 0 then s.callFileOp fn bserrno
  else do
    let f ← s.file r
    return (s.setFile r { f with blobid := some blobid }).send (.createOpen r blobid fn)

/-- `spdk_fs_create_file_async`. -/
def spdkFsCreateFileAsync (name : CString) (fn : FileOp) (mem : Memory) :
    Except Fault Filesystem :=
  if spdkFileNameMax < name.strlen then s.callFileOp fn (-enametoolong)
  else
    match s.names name with
    | some _ => s.callFileOp fn (-eexist)
    | none =>
        if mem.file = false then s.callFileOp fn (-enomem)
        else if mem.createRequest = false then (s.fileAlloc name).callFileOp fn (-enomem)
        else do
          let r := s.brk
          let s := s.fileAlloc name
          let f ← s.file r
          return (s.setFile r { f with name := some name }).send (.createBlob r fn)

/-! ### Opening a file -/

/-- `spdk_fs_open_file_async`; `create` is `SPDK_BLOBFS_OPEN_CREATE`. -/
def spdkFsOpenFileAsync (name : CString) (create : Bool) (cb : CallRef) (mem : Memory) :
    Except Fault Filesystem :=
  if spdkFileNameMax < name.strlen then .ok (s.reply cb (-enametoolong))
  else
    match s.names name with
    | none =>
        if create = false then .ok (s.reply cb (-enoent))
        else if mem.request = false then .ok (s.reply cb (-enomem))
        else s.spdkFsCreateFileAsync name (.fsOpenBlobCreateCb name cb) mem
    | some r => do
        let f ← s.file r
        if f.isDeleted then return s.reply cb (-enoent)
        else if mem.request = false then return s.reply cb (-enomem)
        else s.fsOpenBlobCreateCb (some r) name cb

/-! ### Deleting a file -/

/-- `spdk_fs_delete_file_async`. -/
def spdkFsDeleteFileAsync (name : CString) (fn : FileOp) (mem : Memory) :
    Except Fault Filesystem :=
  if spdkFileNameMax < name.strlen then s.callFileOp fn (-enametoolong)
  else
    match s.names name with
    | none => s.callFileOp fn (-enoent)
    | some r =>
        if mem.request = false then s.callFileOp fn (-enomem)
        else do
          let f ← s.file r
          if 0 < f.refCount then
            match f.blob with
            | none => .error .nullBlob
            | some blob =>
                return (s.setFile r { f with isDeleted := true }).send (.syncDeleted blob fn)
          else
            match f.name with
            | none => .error .nullName
            | some filename =>
                if spdkFileNameMax ≤ filename.strlen then .error .overflow
                else
                  let s := s.fileFree r
                  let s := { s with names := BplusTree.removeName s.names filename }
                  return s.send (.deleteBlob f.blobid fn)

/-! ### Closing a file -/

/-- `__file_close_async_done`. -/
def fileCloseAsyncDone (r : FileRef) (cb : CallRef) (bserrno : Int) (mem : Memory) :
    Except Fault Filesystem := do
  let f ← s.file r
  if f.isDeleted then
    match f.name with
    | none => .error .nullName
    | some name => s.spdkFsDeleteFileAsync name (.blobDeleteCb cb) mem
  else return s.reply cb bserrno

/-- `__file_close_async`. -/
def fileCloseAsync (r : FileRef) (cb : CallRef) (mem : Memory) : Except Fault Filesystem := do
  let f ← s.file r
  if f.refCount = 0 then s.fileCloseAsyncDone r cb (-ebadf) mem
  else
    let refCount := f.refCount - 1
    if 0 < refCount then return (s.setFile r { f with refCount }).reply cb 0
    else
      match f.blob with
      | none => .error .nullBlob
      | some blob =>
          return (s.setFile r { f with refCount, blob := none }).send (.closeBlob r blob cb)

/-- `spdk_file_close_async`, on a handle the client holds. -/
def spdkFileCloseAsync (r : FileRef) (cb : CallRef) (mem : Memory) : Except Fault Filesystem := do
  let _ ← s.file r
  if mem.request = false then return s.reply cb (-enomem)
  else return { s with handles := s.handles.erase r }.send (.closeSync r cb)

/-! ### Renaming a file -/

/-- `fs_rename_blob_open_cb`, which does not look at its `bserrno`. -/
def fsRenameBlobOpenCb (cb : CallRef) (blob : Option BlobRef) : Except Fault Filesystem :=
  match blob with
  | none => .error .nullHandle
  | some blob => .ok (s.send (.renameClose blob cb))

/-- `spdk_fs_rename_file_async`; `mem` is for its own request, `deleteMem` for that of the
deletion of the file that has the new name. -/
def spdkFsRenameFileAsync (oldName newName : CString) (cb : CallRef) (mem deleteMem : Memory) :
    Except Fault Filesystem :=
  if spdkFileNameMax < newName.strlen then .ok (s.reply cb (-enametoolong))
  else if mem.request = false then .ok (s.reply cb (-enomem))
  else
    match s.names newName with
    | none => s.fsMdRenameFile oldName newName cb
    | some _ => s.spdkFsDeleteFileAsync newName (.fsRenameDeleteDone oldName newName cb) deleteMem

/-! ### What the functions do -/

variable {s} {s' : Filesystem} {r : FileRef} {fn : FileOp} {cb : CallRef} {mem : Memory}
  {name : CString} {bserrno : Int}

theorem file_ok {f : SpdkFile} : s.file r = .ok f ↔ s.files r = some f := by
  unfold file
  cases s.files r with
  | none => simp
  | some g => simp

@[simp] theorem setFile_files_self (s : Filesystem) (r : FileRef) (f : SpdkFile) :
    (s.setFile r f).files r = some f :=
  Function.update_self r _ _

theorem setFile_files_ne {r' : FileRef} (f : SpdkFile) (h : r' ≠ r) :
    (s.setFile r f).files r' = s.files r' :=
  Function.update_of_ne h _ _

@[simp] theorem fileFree_files_self (s : Filesystem) (r : FileRef) :
    (s.fileFree r).files r = none :=
  Function.update_self r _ _

theorem fileFree_files_ne {r' : FileRef} (h : r' ≠ r) : (s.fileFree r).files r' = s.files r' :=
  Function.update_of_ne h _ _

theorem fileAlloc_files_ne (h : r ≠ s.brk) : (s.fileAlloc name).files r = s.files r :=
  Function.update_of_ne h _ _

theorem fileAlloc_files_self :
    (s.fileAlloc name).files s.brk = some ⟨none, none, none, 0, false, []⟩ :=
  Function.update_self s.brk _ _

theorem fsOpenBlobDone_ok {blob : Option BlobRef} (h : s.fsOpenBlobDone r blob bserrno = .ok s') :
    ∃ f, s.files r = some f ∧ s' =
      { s.setFile r { f with blob, openRequests := [] } with
        replies := s.replies ++ f.openRequests.map fun cb => ⟨cb, bserrno, some r⟩
        handles := s.handles ++ if bserrno = 0 then f.openRequests.map fun _ => r else [] } := by
  obtain ⟨f, hf, h⟩ := bind_ok.mp h
  exact ⟨f, file_ok.mp hf, (Except.ok.inj h).symm⟩

/-- An open starts the blob's open, waits for it, or has the handle at once. -/
theorem fsOpenBlobCreateCb_ok {file : Option FileRef}
    (h : s.fsOpenBlobCreateCb file name cb = .ok s') :
    ∃ r old, s.openedFile file name = .ok r ∧ s.files r = some old ∧
      ((old.opened cb).refCount = 1 ∧ old.blob = none ∧
          s' = (s.setFile r (old.opened cb)).send (.openBlob r old.blobid) ∨
        (old.opened cb).refCount ≠ 1 ∧ old.blob = none ∧ s' = s.setFile r (old.opened cb) ∨
        (old.opened cb).refCount ≠ 1 ∧ old.blob ≠ none ∧
          (s.setFile r (old.opened cb)).fsOpenBlobDone r old.blob 0 = .ok s') := by
  obtain ⟨r, hr, h⟩ := bind_ok.mp h
  obtain ⟨old, hold, h⟩ := bind_ok.mp h
  refine ⟨r, old, hr, file_ok.mp hold, ?_⟩
  have hblob : (old.opened cb).blob = old.blob := rfl
  simp only [hblob] at h
  by_cases hone : (old.opened cb).refCount = 1
  · rw [if_pos hone] at h
    cases hsome : old.blob with
    | none =>
        rw [hsome] at h
        exact Or.inl ⟨hone, rfl, (Except.ok.inj h).symm⟩
    | some blob =>
        rw [hsome] at h
        cases h
  · rw [if_neg hone] at h
    cases hsome : old.blob with
    | none =>
        rw [hsome] at h
        exact Or.inr (Or.inl ⟨hone, rfl, (Except.ok.inj h).symm⟩)
    | some blob =>
        rw [hsome] at h
        exact Or.inr (Or.inr ⟨hone, by simp, h⟩)

/-- A callback of the caller replies to a client, or goes on with its open or rename. -/
theorem callFileOp_ok {fserrno : Int} (h : s.callFileOp fn fserrno = .ok s') :
    (∃ cb, s' = s.reply cb fserrno) ∨
      (∃ name cb, fn = .fsOpenBlobCreateCb name cb ∧ s.fsOpenBlobCreateCb none name cb = .ok s') ∨
      ∃ oldName newName cb, fn = .fsRenameDeleteDone oldName newName cb ∧
        s.fsMdRenameFile oldName newName cb = .ok s' := by
  cases fn with
  | client cb => exact Or.inl ⟨cb, (Except.ok.inj h).symm⟩
  | fsOpenBlobCreateCb name cb => exact Or.inr (Or.inl ⟨name, cb, rfl, h⟩)
  | blobDeleteCb cb => exact Or.inl ⟨cb, (Except.ok.inj h).symm⟩
  | fsRenameDeleteDone oldName newName cb => exact Or.inr (Or.inr ⟨oldName, newName, cb, rfl, h⟩)

/-- A rename finds no file, or moves its entry and opens its blob. -/
theorem fsMdRenameFile_ok {oldName newName : CString}
    (h : s.fsMdRenameFile oldName newName cb = .ok s') :
    s.names oldName = none ∧ s' = s.reply cb (-enoent) ∨
      ∃ r f name, s.names oldName = some r ∧ s.files r = some f ∧ f.name = some name ∧ s' =
        ({ s with names := BplusTree.insertName (BplusTree.removeName s.names name) newName r
          }.setFile r { f with name := some newName }).send (.renameOpen f.blobid newName cb) := by
  unfold fsMdRenameFile at h
  cases hold : s.names oldName with
  | none =>
      rw [hold] at h
      exact Or.inl ⟨rfl, (Except.ok.inj h).symm⟩
  | some r =>
      rw [hold] at h
      obtain ⟨f, hf, h⟩ := bind_ok.mp h
      cases hname : f.name with
      | none =>
          rw [hname] at h
          cases h
      | some name =>
          rw [hname] at h
          exact Or.inr ⟨r, f, name, rfl, file_ok.mp hf, hname, (Except.ok.inj h).symm⟩

/-- A creation calls back, with or without a file in the tree, or asks for the blob. -/
theorem spdkFsCreateFileAsync_ok (h : s.spdkFsCreateFileAsync name fn mem = .ok s') :
    (∃ fserrno, s.callFileOp fn fserrno = .ok s') ∨
      s.names name = none ∧ mem.createRequest = false ∧
        (s.fileAlloc name).callFileOp fn (-enomem) = .ok s' ∨
      s.names name = none ∧ mem.createRequest = true ∧ s' =
        ((s.fileAlloc name).setFile s.brk ⟨some name, none, none, 0, false, []⟩).send
          (.createBlob s.brk fn) := by
  unfold spdkFsCreateFileAsync at h
  split at h
  · exact Or.inl ⟨_, h⟩
  · cases hname : s.names name with
    | some r =>
        rw [hname] at h
        exact Or.inl ⟨_, h⟩
    | none =>
        rw [hname] at h
        by_cases hfile : mem.file = false
        · rw [if_pos hfile] at h
          exact Or.inl ⟨_, h⟩
        rw [if_neg hfile] at h
        by_cases hrequest : mem.createRequest = false
        · rw [if_pos hrequest] at h
          exact Or.inr (Or.inl ⟨rfl, hrequest, h⟩)
        · rw [if_neg hrequest] at h
          obtain ⟨f, hf, h⟩ := bind_ok.mp h
          rw [file_ok, fileAlloc_files_self, Option.some.injEq] at hf
          subst hf
          exact Or.inr (Or.inr ⟨rfl, by simpa using hrequest, (Except.ok.inj h).symm⟩)

/-- An open is refused, creates the file first, or goes on with the file. -/
theorem spdkFsOpenFileAsync_ok {create : Bool}
    (h : s.spdkFsOpenFileAsync name create cb mem = .ok s') :
    (∃ fserrno, s' = s.reply cb fserrno) ∨
      s.names name = none ∧
        s.spdkFsCreateFileAsync name (.fsOpenBlobCreateCb name cb) mem = .ok s' ∨
      ∃ r, s.names name = some r ∧ s.fsOpenBlobCreateCb (some r) name cb = .ok s' := by
  unfold spdkFsOpenFileAsync at h
  split at h
  · exact Or.inl ⟨_, (Except.ok.inj h).symm⟩
  · cases hname : s.names name with
    | none =>
        rw [hname] at h
        dsimp only at h
        split at h
        · exact Or.inl ⟨_, (Except.ok.inj h).symm⟩
        split at h
        · exact Or.inl ⟨_, (Except.ok.inj h).symm⟩
        · exact Or.inr (Or.inl ⟨rfl, h⟩)
    | some r =>
        rw [hname] at h
        obtain ⟨f, -, h⟩ := bind_ok.mp h
        split at h
        · exact Or.inl ⟨_, (Except.ok.inj h).symm⟩
        split at h
        · exact Or.inl ⟨_, (Except.ok.inj h).symm⟩
        · exact Or.inr (Or.inr ⟨r, rfl, h⟩)

/-- A deletion calls back, marks a file that is open, or frees the file. -/
theorem spdkFsDeleteFileAsync_ok (h : s.spdkFsDeleteFileAsync name fn mem = .ok s') :
    (∃ fserrno, s.callFileOp fn fserrno = .ok s') ∨
      ∃ r f, s.names name = some r ∧ s.files r = some f ∧
        ((∃ blob, 0 < f.refCount ∧ f.blob = some blob ∧
            s' = (s.setFile r { f with isDeleted := true }).send (.syncDeleted blob fn)) ∨
          ∃ filename, f.refCount = 0 ∧ f.name = some filename ∧ s' =
            { s.fileFree r with names := BplusTree.removeName s.names filename }.send
              (.deleteBlob f.blobid fn)) := by
  unfold spdkFsDeleteFileAsync at h
  split at h
  · exact Or.inl ⟨_, h⟩
  · cases hname : s.names name with
    | none =>
        rw [hname] at h
        exact Or.inl ⟨_, h⟩
    | some r =>
        rw [hname] at h
        dsimp only at h
        split at h
        · exact Or.inl ⟨_, h⟩
        obtain ⟨f, hf, h⟩ := bind_ok.mp h
        refine Or.inr ⟨r, f, rfl, file_ok.mp hf, ?_⟩
        by_cases href : 0 < f.refCount
        · rw [if_pos href] at h
          cases hblob : f.blob with
          | none =>
              rw [hblob] at h
              cases h
          | some blob =>
              rw [hblob] at h
              exact Or.inl ⟨blob, href, rfl, (Except.ok.inj h).symm⟩
        · rw [if_neg href] at h
          cases hfilename : f.name with
          | none =>
              rw [hfilename] at h
              cases h
          | some filename =>
              rw [hfilename] at h
              dsimp only at h
              split at h
              · cases h
              · exact Or.inr ⟨filename, Nat.eq_zero_of_not_pos href, rfl, (Except.ok.inj h).symm⟩

/-- The end of a close replies, or deletes the file. -/
theorem fileCloseAsyncDone_ok (h : s.fileCloseAsyncDone r cb bserrno mem = .ok s') :
    ∃ f, s.files r = some f ∧
      (f.isDeleted = false ∧ s' = s.reply cb bserrno ∨
        ∃ name, f.isDeleted = true ∧ f.name = some name ∧
          s.spdkFsDeleteFileAsync name (.blobDeleteCb cb) mem = .ok s') := by
  obtain ⟨f, hf, h⟩ := bind_ok.mp h
  refine ⟨f, file_ok.mp hf, ?_⟩
  by_cases hdeleted : f.isDeleted = true
  · rw [if_pos hdeleted] at h
    cases hname : f.name with
    | none =>
        rw [hname] at h
        cases h
    | some name =>
        rw [hname] at h
        exact Or.inr ⟨name, hdeleted, rfl, h⟩
  · rw [if_neg hdeleted] at h
    exact Or.inl ⟨by simpa using hdeleted, (Except.ok.inj h).symm⟩

/-- A close takes one reference, and the last one starts the blob's close. -/
theorem fileCloseAsync_ok (h : s.fileCloseAsync r cb mem = .ok s') :
    ∃ f, s.files r = some f ∧
      (f.refCount = 0 ∧ s.fileCloseAsyncDone r cb (-ebadf) mem = .ok s' ∨
        1 < f.refCount ∧ s' = (s.setFile r { f with refCount := f.refCount - 1 }).reply cb 0 ∨
        ∃ blob, f.refCount = 1 ∧ f.blob = some blob ∧
          s' = (s.setFile r { f with refCount := f.refCount - 1, blob := none }).send
            (.closeBlob r blob cb)) := by
  obtain ⟨f, hf, h⟩ := bind_ok.mp h
  refine ⟨f, file_ok.mp hf, ?_⟩
  by_cases hzero : f.refCount = 0
  · rw [if_pos hzero] at h
    exact Or.inl ⟨hzero, h⟩
  rw [if_neg hzero] at h
  by_cases hmore : 0 < f.refCount - 1
  · rw [if_pos hmore] at h
    exact Or.inr (Or.inl ⟨by omega, (Except.ok.inj h).symm⟩)
  · rw [if_neg hmore] at h
    cases hblob : f.blob with
    | none =>
        rw [hblob] at h
        cases h
    | some blob =>
        rw [hblob] at h
        exact Or.inr (Or.inr ⟨blob, by omega, rfl, (Except.ok.inj h).symm⟩)

end Filesystem

/-! ### Steps -/

/-- What a completion brings; each callback reads its own part. -/
structure Answer where
  bserrno : Int
  blobid : BlobId
  blob : Option BlobRef

/-- A client's call other than a rename, or the completion of what waits at index `i`. -/
inductive Event where
  | create (name : CString) (cb : CallRef) (mem : Memory)
  | open (name : CString) (create : Bool) (cb : CallRef) (mem : Memory)
  | delete (name : CString) (cb : CallRef) (mem : Memory)
  | close (file : FileRef) (cb : CallRef) (mem : Memory)
  | complete (i : Nat) (answer : Answer) (mem : Memory)

/-- The callback of a completion. -/
def BsOp.resume (s : Filesystem) (answer : Answer) (mem : Memory) : BsOp → Except Fault Filesystem
  | createBlob r fn => s.fsCreateBlobCreateCb r fn answer.blobid answer.bserrno
  | createOpen r _ fn => s.fsCreateBlobOpenCb r fn answer.blob answer.bserrno
  | createResize r blob fn => s.fsCreateBlobResizeCb r blob fn answer.bserrno
  | createClose _ rc fn => s.fsCreateBlobCloseCb rc fn answer.bserrno
  | openBlob r _ => s.fsOpenBlobDone r answer.blob answer.bserrno
  | closeSync r cb => s.fileCloseAsync r cb mem
  | closeBlob r _ cb => s.fileCloseAsyncDone r cb answer.bserrno mem
  | syncDeleted _ fn => s.callFileOp fn answer.bserrno
  | deleteBlob _ fn => s.callFileOp fn answer.bserrno
  | renameOpen _ _ cb => s.fsRenameBlobOpenCb cb answer.blob
  | renameClose _ cb => .ok (s.reply cb answer.bserrno)

def step (s : Filesystem) : Event → Except Fault Filesystem
  | .create name cb mem => s.spdkFsCreateFileAsync name (.client cb) mem
  | .open name create cb mem => s.spdkFsOpenFileAsync name create cb mem
  | .delete name cb mem => s.spdkFsDeleteFileAsync name (.client cb) mem
  | .close r cb mem =>
      if r ∈ s.handles then s.spdkFileCloseAsync r cb mem else .error .noEvent
  | .complete i answer mem =>
      match s.pending[i]? with
      | none => .error .noEvent
      | some op => op.resume { s with pending := s.pending.eraseIdx i } answer mem

/-- The filesystem makes the step. -/
def Steps (s : Filesystem) (e : Event) (s' : Filesystem) : Prop := step s e = .ok s'

/-- Nothing is open and nothing waits. -/
structure Initial (s : Filesystem) : Prop where
  pending : s.pending = []
  handles : s.handles = []
  closed : ∀ r f, s.files r = some f →
    f.blob = none ∧ f.refCount = 0 ∧ f.isDeleted = false ∧ f.openRequests = []
  /-- A loaded file has its blob. -/
  named : ∀ r f, s.files r = some f → f.blobid ≠ none ∧ r < s.brk
  /-- The tree's files are allocated, under their names. -/
  tree : ∀ name r, s.names name = some r → ∃ f, s.files r = some f ∧ f.name = some name

end Nbfs.Fs
