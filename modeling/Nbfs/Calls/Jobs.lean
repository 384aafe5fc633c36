import Nbfs.Fs.Names
import Nbfs.Lib.Conversation
import Nbfs.Cache.Tree

set_option autoImplicit false

/-!
# What other threads do for a client that waits (`lib/NBFS/NBFS.c`)

A synchronous call has another thread run a function of the asynchronous interface.  Its
last callback wakes the client.  What the function finds, and how the operations of the
blobstore end, may be anything.
-/

namespace Nbfs.Calls

open Nbfs.Lib Conv
open Nbfs.Fs (FileRef BlobRef enoent ebadf enomem eexist enametoolong spdkFileNameMax)

def einval : Int := 22

inductive Xattr where
  | name
  | length
  | isDeleted

/-- What the functions look at, and what they call. -/
inductive Request where
  /-- `fs_find_file`. -/
  | findFile (name : CString)
  /-- `file_alloc`, which puts the file into the tree. -/
  | fileAlloc (name : CString)
  | fileFree (file : FileRef)
  | treeInsert (name : CString) (file : FileRef)
  | treeRemove (name : CString)
  /-- `alloc_fs_request` of a channel that no client waits on. -/
  | allocRequest
  /-- `spdk_malloc` of so many bytes. -/
  | mallocPinBuf (size : UInt64)
  | name (file : FileRef)
  | setName (file : FileRef) (name : CString)
  | isDeleted (file : FileRef)
  | setDeleted (file : FileRef)
  | refCount (file : FileRef)
  | setRefCount (file : FileRef) (n : UInt32)
  | blob (file : FileRef)
  | setBlob (file : FileRef) (blob : Option BlobRef)
  | length (file : FileRef)
  /-- `file->length`, and `file->append_pos` where that is larger. -/
  | setLength (file : FileRef) (length : UInt64)
  | clusterSz
  | ioUnitSize
  | createBlob
  /-- `spdk_bs_open_blob` of the blob of the file. -/
  | openBlob (file : FileRef)
  | closeBlob (blob : BlobRef)
  /-- `spdk_bs_delete_blob` of the blob of the file. -/
  | deleteBlob (file : FileRef)
  | resize (file : FileRef) (numClusters : UInt64)
  | setXattr (blob : BlobRef) (xattr : Xattr)
  | syncMd (file : FileRef)
  | ioRead (file : FileRef) (startLba numLba : UInt64)
  | ioWrite (file : FileRef) (startLba numLba : UInt64)
  /-- `fs_open_blob_done` comes to the request on `file->open_requests`. -/
  | openRequestDone (file : FileRef)
  /-- `__file_cache_finish_sync` of the request on `file->sync_requests`. -/
  | syncRequestDone (file : FileRef)
  /-- `args->rc`, and `args->rwerrno` where it is 0. -/
  | setRc (fserrno : Int)
  /-- `sem_post` of the semaphore of the client. -/
  | semPost

abbrev Response : Request → Type
  | .findFile _ | .fileAlloc _ => Option FileRef
  | .allocRequest | .mallocPinBuf _ | .isDeleted _ => Bool
  | .name _ => CString
  | .refCount _ => UInt32
  | .blob _ => Option BlobRef
  | .length _ | .clusterSz | .ioUnitSize => UInt64
  | .createBlob | .closeBlob _ | .deleteBlob _ | .resize .. | .syncMd _ => Int
  | .ioRead .. | .ioWrite .. | .openRequestDone _ | .syncRequestDone _ => Int
  | .openBlob _ => Option BlobRef × Int
  | _ => Unit

abbrev Job := Conv Request Response Unit

/-- The request, in a function that goes on. -/
abbrev ask (r : Request) : Conv Request Response (Response r) := Conv.request r

/-- `__wake_caller`, and `__copy_stat`. -/
def wakeCaller (fserrno : Int) : Job := do
  ask (.setRc fserrno)
  ask .semPost

/-! ### Reading the directory -/

/-- `spdk_fs_file_stat_async`. -/
def spdkFsFileStatAsync (name : CString) (cb : Int → Job) : Job :=
  if spdkFileNameMax < name.strlen then cb (-enametoolong)
  else do
    let f ← ask (.findFile name)
    match f with
    | some _ => cb 0
    | none => cb (-enoent)

/-! ### Creating and opening -/

/-- `fs_create_blob_resize_cb`, and `fs_create_blob_close_cb`. -/
def fsCreateBlobResizeCb (f : FileRef) (blob : BlobRef) (cb : Int → Job) (bserrno : Int) : Job :=
  if bserrno ≠ 0 then do
    let _ ← ask (.closeBlob blob)
    cb bserrno
  else do
    let _ ← ask (.name f)
    ask (.setXattr blob .name)
    ask (.setXattr blob .length)
    let rc ← ask (.closeBlob blob)
    cb rc

/-- `fs_create_blob_create_cb`, and `fs_create_blob_open_cb`. -/
def fsCreateBlobCreateCb (f : FileRef) (cb : Int → Job) (bserrno : Int) : Job :=
  if bserrno ≠ 0 then cb bserrno
  else do
    let (blob, bserrno) ← ask (.openBlob f)
    if bserrno ≠ 0 then cb bserrno
    else
      match blob with
      | none => undefined
      | some blob =>
          let rc ← ask (.resize f 1)
          fsCreateBlobResizeCb f blob cb rc

/-- `spdk_fs_create_file_async`. -/
def spdkFsCreateFileAsync (name : CString) (cb : Int → Job) : Job :=
  if spdkFileNameMax < name.strlen then cb (-enametoolong)
  else do
    let f ← ask (.findFile name)
    match f with
    | some _ => cb (-eexist)
    | none =>
        let file ← ask (.fileAlloc name)
        match file with
        | none => cb (-enomem)
        | some file =>
            let req ← ask .allocRequest
            if req = false then cb (-enomem)
            else
              ask (.setName file name)
              let rc ← ask .createBlob
              fsCreateBlobCreateCb file cb rc

/-- `fs_open_blob_create_cb` once it has the file; `fs_open_blob_done` calls back. -/
def openFile (file : FileRef) (cb : Int → Job) : Job := do
  let refCount ← ask (.refCount file)
  ask (.setRefCount file (refCount + 1))
  if refCount + 1 = 1 then
    let blob ← ask (.blob file)
    match blob with
    | some _ => undefined
    | none =>
        let (blob, bserrno) ← ask (.openBlob file)
        ask (.setBlob file blob)
        cb bserrno
  else
    let blob ← ask (.blob file)
    match blob with
    | some _ => cb 0
    | none =>
        let bserrno ← ask (.openRequestDone file)
        cb bserrno

/-- `fs_open_blob_create_cb`, which does not look at its `bserrno`; `file` is `args->file`. -/
def fsOpenBlobCreateCb (file : Option FileRef) (name : CString) (cb : Int → Job)
    (_bserrno : Int) : Job :=
  match file with
  | some file => openFile file cb
  | none => do
      let file ← ask (.findFile name)
      match file with
      | none => undefined
      | some file => openFile file cb

/-- `spdk_fs_open_file_async`; `create` is `SPDK_BLOBFS_OPEN_CREATE`. -/
def spdkFsOpenFileAsync (name : CString) (create : Bool) (cb : Int → Job) : Job :=
  if spdkFileNameMax < name.strlen then cb (-enametoolong)
  else do
    let f ← ask (.findFile name)
    match f with
    | none =>
        if create = false then cb (-enoent)
        else
          let req ← ask .allocRequest
          if req = false then cb (-enomem)
          else spdkFsCreateFileAsync name (fsOpenBlobCreateCb none name cb)
    | some file =>
        let deleted ← ask (.isDeleted file)
        if deleted = true then cb (-enoent)
        else
          let req ← ask .allocRequest
          if req = false then cb (-enomem) else fsOpenBlobCreateCb (some file) name cb 0

/-! ### Deleting and renaming -/

/-- `spdk_fs_delete_file_async`, and `blob_delete_cb`. -/
def spdkFsDeleteFileAsync (name : CString) (cb : Int → Job) : Job :=
  if spdkFileNameMax < name.strlen then cb (-enametoolong)
  else do
    let f ← ask (.findFile name)
    match f with
    | none => cb (-enoent)
    | some file =>
        let req ← ask .allocRequest
        if req = false then cb (-enomem)
        else
          let refCount ← ask (.refCount file)
          if 0 < refCount then
            ask (.setDeleted file)
            let blob ← ask (.blob file)
            match blob with
            | none => undefined
            | some blob =>
                ask (.setXattr blob .isDeleted)
                let rc ← ask (.syncMd file)
                cb rc
          else
            let filename ← ask (.name file)
            if spdkFileNameMax ≤ filename.strlen then undefined
            else
              ask (.fileFree file)
              ask (.treeRemove filename)
              let rc ← ask (.deleteBlob file)
              cb rc

/-- `_fs_md_rename_file`, with `fs_rename_blob_open_cb`, which does not look at its
`bserrno`. -/
def fsMdRenameFile (oldName newName : CString) (cb : Int → Job) : Job := do
  let f ← ask (.findFile oldName)
  match f with
  | none => cb (-enoent)
  | some file =>
      let name ← ask (.name file)
      ask (.treeRemove name)
      ask (.treeInsert newName file)
      ask (.setName file newName)
      let (blob, _) ← ask (.openBlob file)
      match blob with
      | none => undefined
      | some blob =>
          ask (.setXattr blob .name)
          let rc ← ask (.closeBlob blob)
          cb rc

/-- `spdk_fs_rename_file_async`; `fs_rename_delete_done` does not look at its `fserrno`. -/
def spdkFsRenameFileAsync (oldName newName : CString) (cb : Int → Job) : Job :=
  if spdkFileNameMax < newName.strlen then cb (-enametoolong)
  else do
    let req ← ask .allocRequest
    if req = false then cb (-enomem)
    else
      let f ← ask (.findFile newName)
      match f with
      | none => fsMdRenameFile oldName newName cb
      | some _ => spdkFsDeleteFileAsync newName fun _ => fsMdRenameFile oldName newName cb

/-! ### Closing -/

/-- `__file_close_async_done`. -/
def fileCloseAsyncDone (file : FileRef) (cb : Int → Job) (bserrno : Int) : Job := do
  let deleted ← ask (.isDeleted file)
  if deleted = true then
    let name ← ask (.name file)
    spdkFsDeleteFileAsync name cb
  else cb bserrno

/-- `__file_close_async`. -/
def fileCloseAsync (file : FileRef) (cb : Int → Job) : Job := do
  let refCount ← ask (.refCount file)
  if refCount = 0 then fileCloseAsyncDone file cb (-ebadf)
  else
    ask (.setRefCount file (refCount - 1))
    if 0 < refCount - 1 then cb 0
    else
      let blob ← ask (.blob file)
      ask (.setBlob file none)
      match blob with
      | none => undefined
      | some blob =>
          let rc ← ask (.closeBlob blob)
          fileCloseAsyncDone file cb rc

/-! ### The contents of a file -/

/-- `__bytes_to_clusters`. -/
def bytesToClusters (length clusterSz : UInt64) : UInt64 := (length + clusterSz - 1) / clusterSz

/-- `fs_truncate_resize_cb`, and `fs_truncate_complete_cb`. -/
def fsTruncateResizeCb (file : FileRef) (length : UInt64) (cb : Int → Job) (bserrno : Int) :
    Job :=
  if bserrno ≠ 0 then cb bserrno
  else do
    ask (.setLength file length)
    let rc ← ask (.syncMd file)
    cb rc

/-- `spdk_file_truncate_async`. -/
def spdkFileTruncateAsync (file : FileRef) (length : UInt64) (cb : Int → Job) : Job := do
  let old ← ask (.length file)
  if length = old then cb 0
  else
    let req ← ask .allocRequest
    if req = false then cb (-enomem)
    else
      let clusterSz ← ask .clusterSz
      let rc ← ask (.resize file (bytesToClusters length clusterSz))
      fsTruncateResizeCb file length cb rc

/-- A `struct` of `args->op.rw`. -/
structure Rw where
  file : FileRef
  isRead : Bool
  startLba : UInt64
  numLba : UInt64

/-- `__get_page_parameters`. -/
def getPageParameters (file : FileRef) (isRead : Bool) (offset length lbaSize : UInt64) : Rw :=
  let startLba := offset / lbaSize
  let endLba := (offset + length - 1) / lbaSize
  ⟨file, isRead, startLba, endLba - startLba + 1⟩

/-- `__read_done`, which does not look at its `bserrno`. -/
def readDone (rw : Rw) (cb : Int → Job) : Job :=
  if rw.isRead = true then cb 0
  else do
    let rc ← ask (.ioWrite rw.file rw.startLba rw.numLba)
    cb rc

/-- `__do_blob_read`. -/
def doBlobRead (rw : Rw) (cb : Int → Job) (fserrno : Int) : Job :=
  if fserrno ≠ 0 then cb fserrno
  else do
    let _ ← ask (.ioRead rw.file rw.startLba rw.numLba)
    readDone rw cb

/-- `__is_lba_aligned`. -/
def isLbaAligned (offset length lbaSize : UInt64) : Bool :=
  offset % lbaSize = 0 ∧ length % lbaSize = 0

/-- `__readvwritev`, of one `iov`. -/
def readvwritev (file : FileRef) (isRead : Bool) (offset length : UInt64) (cb : Int → Job) :
    Job := do
  let fileLength ← ask (.length file)
  if isRead = true ∧ fileLength < offset + length then cb (-einval)
  else
    let req ← ask .allocRequest
    if req = false then cb (-enomem)
    else
      let lbaSize ← ask .ioUnitSize
      let rw := getPageParameters file isRead offset length lbaSize
      let pinBuf ← ask (.mallocPinBuf (rw.numLba * lbaSize))
      if pinBuf = false then cb (-enomem)
      else
        let fileLength ← ask (.length file)
        if isRead = false ∧ fileLength < offset + length then
          spdkFileTruncateAsync file (offset + length) (doBlobRead rw cb)
        else if isRead = false ∧ isLbaAligned offset length lbaSize = true then
          let rc ← ask (.ioWrite file rw.startLba rw.numLba)
          cb rc
        else doBlobRead rw cb 0

/-- `__file_extend_blob`, with `__file_extend_resize_cb` and `__file_extend_done`. -/
def fileExtendBlob (file : FileRef) (numClusters : UInt64) (cb : Int → Job) : Job := do
  let rc ← ask (.resize file numClusters)
  if rc ≠ 0 then cb rc
  else
    let rc ← ask (.syncMd file)
    cb rc

/-! ### The messages -/

/-- What is sent to another thread, and what waits on a queue of the file. -/
inductive Message where
  | fileFlush (file : FileRef)
  | readahead (file : FileRef) (offset length : UInt64)
  | fileExtendBlob (file : FileRef) (numClusters : UInt64)
  | rwFromFile (file : FileRef) (isRead : Bool) (offset length : UInt64)
  /-- A request on `file->sync_requests`. -/
  | syncRequest (file : FileRef) (offset : UInt64)
  | truncate (file : FileRef) (length : UInt64)
  | fileClose (file : FileRef)
  | fileStat (name : CString)
  | fsCreateFile (name : CString)
  | fsOpenFile (name : CString) (create : Bool)
  | fsRenameFile (oldName newName : CString)
  | fsDeleteFile (name : CString)

/-- What is done for a client that waits for the message.  A flush wakes only those whose sync
requests it completes, and a readahead nobody. -/
def Message.job : Message → Option Job
  | fileFlush _ | readahead .. => none
  | fileExtendBlob file numClusters => some (Calls.fileExtendBlob file numClusters wakeCaller)
  | rwFromFile file isRead offset length => some (readvwritev file isRead offset length wakeCaller)
  | syncRequest file _ => some do
      let rc ← ask (.syncRequestDone file)
      wakeCaller rc
  | truncate file length => some (spdkFileTruncateAsync file length wakeCaller)
  | fileClose file => some (fileCloseAsync file wakeCaller)
  | fileStat name => some (spdkFsFileStatAsync name wakeCaller)
  | fsCreateFile name => some (spdkFsCreateFileAsync name wakeCaller)
  | fsOpenFile name create => some (spdkFsOpenFileAsync name create wakeCaller)
  | fsRenameFile oldName newName => some (spdkFsRenameFileAsync oldName newName wakeCaller)
  | fsDeleteFile name => some (spdkFsDeleteFileAsync name wakeCaller)

end Nbfs.Calls
