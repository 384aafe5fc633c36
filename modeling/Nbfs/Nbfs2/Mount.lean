import Nbfs.Nbfs2.SuperBlob
import Nbfs.Nbfs2.Files

set_option autoImplicit false

/-!
# Building and unloading the filesystem (`src/NBFS2/NBFS2.c`)

The hash table is kept in the superblob while the filesystem is unloaded, one record
for each entry.
-/

namespace Nbfs.Nbfs2

open Nbfs.Lib Conv

/-- `struct _nbfs2_filesystem`, as far as building and unloading use it. -/
structure MountedFs where
  fs : Filesystem
  superblob : BlobId
  /-- `unsigned`. -/
  htSize : UInt32

/-- `INIT_HASHTABLE_SIZE`. -/
def initHashtableSize : UInt32 := 65536

/-- `MAXFILENAME`. -/
def maxfilename : Nat := 128

namespace MountedFs

variable (m : MountedFs)

/-- An error exit of a callback. -/
def failed (bserrno : Int) : Async MountedFs := do
  cbFn bserrno
  spdkAppStop (-1)
  return m

/-- `args->fs->table = create_table(args->fs->ht_size)`, whose size is an `int`. -/
def createTable : MountedFs :=
  { m with fs := { m.fs with table := Nbfs2.createTable m.htSize.toInt32.toInt.toNat } }

/-! ## Initializing -/

/-- `_nbfs2_superblob_opened_init`. -/
def superblobOpenedInit (blb : BlobId) (bserrno : Int) : Async MountedFs := do
  if bserrno ≠ 0 then
    m.failed bserrno
  else
    let m := { m with superblob := blb, htSize := initHashtableSize }
    let _rc ← spdkBlobSetXattr m.superblob .hts m.htSize.toUInt64
    if ← mallocTable then
      cbFn 0
      return m.createTable
    else .undefined

/-- `_nbfs2_superblob_created`. -/
def superblobCreated (blobid : BlobId) (bserrno : Int) : Async MountedFs := do
  if bserrno ≠ 0 then
    m.failed bserrno
  else
    let (blb, rc) ← spdkBsOpenBlob blobid
    m.superblobOpenedInit blb rc

/-- `_nbfs2_bs_init_complete`. -/
def bsInitComplete (bserrno : Int) : Async MountedFs :=
  if bserrno ≠ 0 then m.failed bserrno else createSuperBlob m.superblobCreated

/-! ## Loading -/

/-- The loop of `_nbfs2_build_htable` from record `i` on, with `n` records to come; it ends
without a table where it stops the application.  `garbage` is what `malloc` leaves in a new
overflow node. -/
def buildLoop (garbage : Nat → Ptr) (readBuff : Option Address) :
    Nat → Nat → HashTable → Async (Option HashTable)
  | 0, _, t => return some t
  | n + 1, i, t =>
      match readBuff with
      | none => .undefined
      | some buffer => do
          let (name, blobid) ← getMdata buffer i
          if ← mallocBlobidString then
            if ← mallocItem then
              let t ← ofOption (htInsert (garbage i) t name (blobid2char blobid))
              buildLoop garbage readBuff n (i + 1) t
            else .undefined
          else
            spdkAppStop (-1)
            return none

/-- `mdata_num`, an `int`. -/
def mdataNum : Nat := (m.fs.spbDataSize / metaDataSize).toUInt32.toInt32.toInt.toNat

/-- `_nbfs2_build_htable`. -/
def buildHtable (garbage : Nat → Ptr) (readBuff : Option Address) : Async MountedFs := do
  if ← mallocMdata then
    match ← buildLoop garbage readBuff m.mdataNum 0 m.fs.table with
    | some table =>
        cbFn 0
        return { m with fs := { m.fs with table } }
    | none => return m
  else m.failed (-enomem)

/-- `_nbfs2_superblob_read`. -/
def superblobRead (garbage : Nat → Ptr) (readBuff : Option Address) (bserrno : Int) :
    Async MountedFs :=
  if bserrno ≠ 0 then m.failed bserrno else m.buildHtable garbage readBuff

/-- `_nbfs2_superblob_opened_load`, from the size of the data on; NULL is address 0. -/
def loadData (garbage : Nat → Ptr) : Async MountedFs := do
  let (rc, value) ← spdkBlobGetXattrValue m.superblob .spbds
  let m := if rc = 0 then { m with fs := { m.fs with spbDataSize := value } } else m
  let readBuff ← spdkMalloc m.fs.spbDataSize
  readSuperBlob (readBuff.getD 0) 0 m.fs.spbDataSize (m.superblobRead garbage readBuff)

/-- `_nbfs2_superblob_opened_load`. -/
def superblobOpenedLoad (garbage : Nat → Ptr) (blb : BlobId) (bserrno : Int) :
    Async MountedFs := do
  if bserrno ≠ 0 then
    m.failed bserrno
  else
    let m := { m with superblob := blb }
    let (rc, value) ← spdkBlobGetXattrValue m.superblob .hts
    let m := if rc = 0 then { m with htSize := value.toUInt32 } else m
    if ← mallocTable then m.createTable.loadData garbage
    else .undefined

/-- `_nbfs2_superblob_id_got`. -/
def superblobIdGot (garbage : Nat → Ptr) (blobid : BlobId) (bserrno : Int) : Async MountedFs := do
  if bserrno ≠ 0 then
    m.failed bserrno
  else
    let (blb, rc) ← spdkBsOpenBlob blobid
    m.superblobOpenedLoad garbage blb rc

/-- `_nbfs2_bs_load_complete`. -/
def bsLoadComplete (garbage : Nat → Ptr) (bserrno : Int) : Async MountedFs := do
  if bserrno ≠ 0 then
    m.failed bserrno
  else
    let (blobid, rc) ← spdkBsGetSuper
    m.superblobIdGot garbage blobid rc

/-! ## Unloading -/

/-- The items of an overflow list. -/
def listItems (t : HashTable) : Nat → Ptr → Option (List HtItem)
  | _, none => some []
  | 0, some _ => none
  | fuel + 1, some list => do
      let node ← t.lists list
      let rest ← listItems t fuel node.next
      some (node.item :: rest)

/-- The items that the loop of `_nbfs2_write_htable` comes to in the first `n` slots. -/
def tableItems (t : HashTable) : Nat → Option (List HtItem)
  | 0 => some []
  | n + 1 => do
      let before ← tableItems t n
      match ← t.item n with
      | none => some before
      | some item => do
          let head ← t.bucket n
          let rest ← listItems t (t.brk + 1) head
          some (before ++ item :: rest)

/-- The records of `_nbfs2_write_htable` from number `i` on; a name has to fit its array,
and a record the buffer, of `size` bytes. -/
def writeLoop (writeBuff : Option Address) (size : UInt64) : Nat → List HtItem → Async Unit
  | _, [] => return
  | i, item :: items =>
      match writeBuff with
      | none => .undefined
      | some buffer =>
          if item.key.strlen < maxfilename ∧ (i + 1) * metaDataSize.toNat ≤ size.toNat then do
            putMdata (char2blobid item.value) buffer i item.key
            writeLoop writeBuff size (i + 1) items
          else .undefined

/-- `_nbfs2_unload_complete`. -/
def unloadComplete (bserrno : Int) : Async MountedFs := do
  if bserrno ≠ 0 then
    m.failed bserrno
  else
    cbFn 0
    spdkAppStop 0
    return m

/-- `_nbfs2_superblob_written`. -/
def superblobWritten (bserrno : Int) : Async MountedFs := do
  if bserrno ≠ 0 then
    m.failed bserrno
  else
    let rc ← spdkBsUnload
    m.unloadComplete rc

/-- `_nbfs2_write_htable` after its loop. -/
def writeData (writeBuff : Option Address) : Async MountedFs := do
  let _rc ← spdkBlobSetXattr m.superblob .hts m.htSize.toUInt64
  let _rc ← spdkBlobSetXattr m.superblob .spbds m.fs.spbDataSize
  writeSuperBlob (writeBuff.getD 0) 0 m.fs.spbDataSize m.superblobWritten

/-- `_nbfs2_write_htable`. -/
def writeHtable (writeBuff : Option Address) : Async MountedFs := do
  if ← mallocMdata then
    let items ← ofOption (tableItems m.fs.table m.htSize.toNat)
    writeLoop writeBuff m.fs.spbDataSize 0 items
    let spbDataSize := UInt64.ofNat items.length * metaDataSize
    { m with fs := { m.fs with spbDataSize } }.writeData writeBuff
  else m.failed (-enomem)

end MountedFs

/-- `enum FS_BUILD_METHOD`. -/
inductive FsBuildMethod where
  | init
  | load

/-- `nbfs2_build_fs`; `m` is what `args->fs` holds before. -/
def nbfs2BuildFs (garbage : Nat → Ptr) (m : MountedFs) (buildMthd : FsBuildMethod) :
    Async MountedFs := do
  match buildMthd with
  | .init => do
      let rc ← spdkBsInit
      m.bsInitComplete rc
  | .load => do
      let rc ← spdkBsLoad
      m.bsLoadComplete garbage rc

/-- `nbfs2_unload_fs`. -/
def nbfs2UnloadFs (m : MountedFs) : Async MountedFs := do
  let writeBuff ← spdkMalloc m.fs.spbDataSize
  m.writeHtable writeBuff

/-- `nbfs2_read_file`. -/
def nbfs2ReadFile (blobid : BlobId) (buffer : Address) (length : UInt64) : Async Unit :=
  readNormalBlob blobid buffer 0 length

/-- `nbfs2_write_file`. -/
def nbfs2WriteFile (blobid : BlobId) (buffer : Address) (length : UInt64) : Async Unit :=
  writeNormalBlob blobid buffer 0 length

end Nbfs.Nbfs2
