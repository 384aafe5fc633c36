import Nbfs.Nbfs2.Blobstore

set_option autoImplicit false

/-!
# Reading and writing a file's blob (`write_normal_blob.h`, `read_normal_blob.h`)

The arguments of a request travel through a block that `malloc` returns; a field
that no one sets keeps what was in the block.
-/

namespace Nbfs.Nbfs2

open Nbfs.Lib Conv

/-- The end of both requests: an error goes to the caller as it is, else the channel is
freed and the blob closed for the caller. -/
def ioComplete (channel : Bool) (blob : BlobId) (bserrno : Int) : Async Unit := do
  if bserrno ≠ 0 then
    cbFn bserrno
  else
    if channel then spdkBsFreeIoChannel
    let rc ← spdkBlobClose blob
    cbFn rc

/-! ## Writing -/

/-- `_wnb_write_complete`. -/
def wnbWriteComplete (args : WriteArgs) (bserrno : Int) : Async Unit :=
  ioComplete args.channel args.blob bserrno

/-- `spdk_blob_io_write` with the fields of the block, then `_wnb_write_complete`. -/
def wnbWrite (args : WriteArgs) : Async Unit := do
  let rc ← spdkBlobIoWrite args.blob args.payload args.offset args.length
  wnbWriteComplete args rc

/-- `_wnb_sync_complete`. -/
def wnbSyncComplete (args : WriteArgs) (bserrno : Int) : Async Unit :=
  if bserrno ≠ 0 then cbFn bserrno else wnbWrite args

/-- `_wnb_resize_complete`. -/
def wnbResizeComplete (args : WriteArgs) (bserrno : Int) : Async Unit := do
  if bserrno ≠ 0 then
    cbFn bserrno
  else
    let _ ← spdkBlobGetNumClusters args.blob
    let rc ← spdkBlobSyncMd args.blob
    wnbSyncComplete args rc

/-- The clusters that `count` more io units need. -/
def clustersFor (args : WriteArgs) (count : UInt64) : UInt64 :=
  count * args.ioUnitSize / args.clusterSize +
    if count * args.ioUnitSize % args.clusterSize ≠ 0 then 1 else 0

/-- `_wnb_open_complete`. -/
def wnbOpenComplete (args : WriteArgs) (blb : BlobId) (bserrno : Int) : Async Unit := do
  if bserrno ≠ 0 then
    cbFn bserrno
  else
    let args := { args with blob := blb }
    let channel ← spdkBsAllocIoChannel
    let args := { args with channel := channel }
    if channel = false then
      cbFn (-enomem)
    else
      let clusters ← spdkBlobGetNumClusters args.blob
      let ioUnits ← spdkBlobGetNumIoUnits args.blob
      if args.offset + args.length > ioUnits then
        let more := clustersFor args (args.offset + args.length - ioUnits)
        let free ← spdkBsFreeClusterCount
        if free < more then
          cbFn (-enospc)
        else
          let rc ← spdkBlobResize args.blob (clusters + more)
          wnbResizeComplete args rc
      else wnbWrite args

/-- `write_normal_blob`; the block's `payload` is not set. -/
def writeNormalBlob (blobid : BlobId) (_payload : Address) (offset length : UInt64) :
    Async Unit := do
  match ← mallocWriteArgs with
  | none => cbFn (-enomem)
  | some args =>
      let args := { args with blobid := blobid, offset := offset, length := length }
      let clusterSize ← spdkBsGetClusterSize
      let ioUnitSize ← spdkBsGetIoUnitSize
      let args := { args with clusterSize := clusterSize, ioUnitSize := ioUnitSize }
      let (blb, rc) ← spdkBsOpenBlob args.blobid
      wnbOpenComplete args blb rc

/-! ## Reading -/

/-- `_rnb_read_complete`. -/
def rnbReadComplete (args : ReadArgs) (bserrno : Int) : Async Unit :=
  ioComplete args.channel args.blob bserrno

/-- `_rnb_open_complete`. -/
def rnbOpenComplete (args : ReadArgs) (blb : BlobId) (bserrno : Int) : Async Unit := do
  if bserrno ≠ 0 then
    cbFn bserrno
  else
    let args := { args with blob := blb }
    let channel ← spdkBsAllocIoChannel
    let args := { args with channel := channel }
    if channel = false then
      cbFn (-enomem)
    else
      let rc ← spdkBlobIoRead args.blob args.payload args.offset args.length
      rnbReadComplete args rc

/-- `read_normal_blob`; the block's `blobid` is not set. -/
def readNormalBlob (_blobid : BlobId) (payload : Address) (offset length : UInt64) :
    Async Unit := do
  match ← mallocReadArgs with
  | none => cbFn (-enomem)
  | some args =>
      let args := { args with payload := payload, offset := offset, length := length }
      let (blb, rc) ← spdkBsOpenBlob args.blobid
      rnbOpenComplete args blb rc

end Nbfs.Nbfs2
