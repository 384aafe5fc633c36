import Nbfs.Nbfs2.NormalBlob

set_option autoImplicit false

/-!
# Creating, reading and writing the superblob (`create_super_blob.h`,
# `read_super_blob.h`, `write_super_blob.h`)

Each request is given the function that goes on with its `bserrno`.
-/

namespace Nbfs.Nbfs2

open Nbfs.Lib Conv

variable {β : Type}

/-! ## Creating -/

/-- `create_super_blob`, with `_csb_super_blob_created` and `_csb_super_blob_set`; an error
comes without an id. -/
def createSuperBlob (cb : BlobId → Int → Async β) : Async β := do
  let args ← mallocCreateArgs
  if args = false then
    cb 0 (-enomem)
  else
    let (blobid, bserrno) ← spdkBsCreateBlob
    if bserrno ≠ 0 then
      cb 0 bserrno
    else
      let rc ← spdkBsSetSuper blobid
      cb blobid rc

/-! ## Writing -/

/-- `_wsb_write_complete`. -/
def wsbWriteComplete (args : WriteArgs) (cb : Int → Async β) (bserrno : Int) : Async β := do
  if bserrno ≠ 0 then
    cb bserrno
  else
    if args.channel then spdkBsFreeIoChannel
    let rc ← spdkBlobClose args.blob
    cb rc

/-- `spdk_blob_io_write` with the fields of the block, then `_wsb_write_complete`. -/
def wsbWrite (args : WriteArgs) (cb : Int → Async β) : Async β := do
  let rc ← spdkBlobIoWrite args.blob args.payload args.offset args.length
  wsbWriteComplete args cb rc

/-- `_wsb_sync_complete`. -/
def wsbSyncComplete (args : WriteArgs) (cb : Int → Async β) (bserrno : Int) : Async β :=
  if bserrno ≠ 0 then cb bserrno else wsbWrite args cb

/-- `_wsb_resize_complete`. -/
def wsbResizeComplete (args : WriteArgs) (cb : Int → Async β) (bserrno : Int) : Async β := do
  if bserrno ≠ 0 then
    cb bserrno
  else
    let _ ← spdkBlobGetNumClusters args.blob
    let rc ← spdkBlobSyncMd args.blob
    wsbSyncComplete args cb rc

/-- `_wsb_open_complete`. -/
def wsbOpenComplete (args : WriteArgs) (cb : Int → Async β) (blb : BlobId) (bserrno : Int) :
    Async β := do
  if bserrno ≠ 0 then
    cb bserrno
  else
    let args := { args with blob := blb }
    let channel ← spdkBsAllocIoChannel
    let args := { args with channel := channel }
    if channel = false then
      cb (-enomem)
    else
      let clusters ← spdkBlobGetNumClusters args.blob
      let ioUnits ← spdkBlobGetNumIoUnits args.blob
      if args.offset + args.length > ioUnits then
        let more := clustersFor args (args.offset + args.length - ioUnits)
        let free ← spdkBsFreeClusterCount
        if free < more then
          cb (-enospc)
        else
          let rc ← spdkBlobResize args.blob (clusters + more)
          wsbResizeComplete args cb rc
      else wsbWrite args cb

/-- `_wsb_super_blobid_got`. -/
def wsbSuperBlobidGot (args : WriteArgs) (cb : Int → Async β) (blobid : BlobId) (bserrno : Int) :
    Async β := do
  if bserrno ≠ 0 then
    cb bserrno
  else
    let args := { args with blobid := blobid }
    let (blb, rc) ← spdkBsOpenBlob args.blobid
    wsbOpenComplete args cb blb rc

/-- `write_super_blob`. -/
def writeSuperBlob (payload : Address) (offset length : UInt64) (cb : Int → Async β) :
    Async β := do
  match ← mallocWriteArgs with
  | none => cb (-enomem)
  | some args =>
      let args := { args with payload := payload, offset := offset, length := length }
      let clusterSize ← spdkBsGetClusterSize
      let ioUnitSize ← spdkBsGetIoUnitSize
      let args := { args with clusterSize := clusterSize, ioUnitSize := ioUnitSize }
      let (blobid, rc) ← spdkBsGetSuper
      wsbSuperBlobidGot args cb blobid rc

/-! ## Reading -/

/-- `_rsb_read_complete`. -/
def rsbReadComplete (args : ReadArgs) (cb : Int → Async β) (bserrno : Int) : Async β := do
  if bserrno ≠ 0 then
    cb bserrno
  else
    if args.channel then spdkBsFreeIoChannel
    let rc ← spdkBlobClose args.blob
    cb rc

/-- `_rsb_open_complete`. -/
def rsbOpenComplete (args : ReadArgs) (cb : Int → Async β) (blb : BlobId) (bserrno : Int) :
    Async β := do
  if bserrno ≠ 0 then
    cb bserrno
  else
    let args := { args with blob := blb }
    let channel ← spdkBsAllocIoChannel
    let args := { args with channel := channel }
    if channel = false then
      cb (-enomem)
    else
      let rc ← spdkBlobIoRead args.blob args.payload args.offset args.length
      rsbReadComplete args cb rc

/-- `_rsb_super_blobid_got`. -/
def rsbSuperBlobidGot (args : ReadArgs) (cb : Int → Async β) (blobid : BlobId) (bserrno : Int) :
    Async β := do
  if bserrno ≠ 0 then
    cb bserrno
  else
    let args := { args with blobid := blobid }
    let (blb, rc) ← spdkBsOpenBlob args.blobid
    rsbOpenComplete args cb blb rc

/-- `read_super_blob`. -/
def readSuperBlob (payload : Address) (offset length : UInt64) (cb : Int → Async β) :
    Async β := do
  match ← mallocReadArgs with
  | none => cb (-enomem)
  | some args =>
      let args := { args with payload := payload, offset := offset, length := length }
      let (blobid, rc) ← spdkBsGetSuper
      rsbSuperBlobidGot args cb blobid rc

/-! ## A file's blob -/

/-- A file's blob is written like the superblob. -/
theorem wnbOpenComplete_eq (args : WriteArgs) (blb : BlobId) (bserrno : Int) :
    wnbOpenComplete args blb bserrno = wsbOpenComplete args cbFn blb bserrno := rfl

/-- And read like it. -/
theorem rnbOpenComplete_eq (args : ReadArgs) (blb : BlobId) (bserrno : Int) :
    rnbOpenComplete args blb bserrno = rsbOpenComplete args cbFn blb bserrno := rfl

end Nbfs.Nbfs2
