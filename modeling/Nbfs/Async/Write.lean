import Nbfs.Lib.Bytes
import Nbfs.Lib.Runs
import Mathlib.Logic.Function.Basic

set_option autoImplicit false

/-!
# Asynchronous reads and writes (`lib/NBFS/NBFS.c`)

`spdk_file_write_async` and `spdk_file_read_async` go to the blob, past the cache.
A request makes one blobstore operation after the other; an operation takes effect
and calls back in one step, and those of several requests come in any order.
-/

namespace Nbfs.Async

open Nbfs.Lib

def ENOMEM : Int := 12
def EINVAL : Int := 22

/-- The sizes a blobstore was made with; the size of an io unit is a power of two. -/
structure Blobstore where
  ioUnitShift : Nat
  clusterSz : Nat
  clusterSz_pos : 0 < clusterSz
  ioUnit_dvd : 2 ^ ioUnitShift ∣ clusterSz

/-- `spdk_bs_get_io_unit_size`. -/
def Blobstore.ioUnitSize (bs : Blobstore) : Nat := 2 ^ bs.ioUnitShift

structure Blob where
  numClusters : Nat
  bytes : Nat → UInt8
  /-- The xattr `"length"`. -/
  xattrLength : Nat

/-- The fields of a `struct spdk_file` that these requests use; the counters are `uint64_t`. -/
structure File where
  length : Nat
  appendPos : Nat
  blob : Blob

/-- A call of `spdk_file_read_async` or `spdk_file_write_async`; `iov` is what the caller's
buffer holds. -/
structure Call where
  isRead : Bool
  offset : Nat
  iov : List UInt8

/-- `args->op.rw` of a request, with its buffers. -/
structure Rw where
  isRead : Bool
  offset : Nat
  blocklen : Nat
  /-- The length of `pinBuf`. -/
  length : Nat
  startLba : Nat
  numLba : Nat
  pinBuf : Nat → UInt8
  iov : List UInt8

/-- How far a call came: the operation of the blobstore that it waits for. -/
inductive Stage where
  | idle
  /-- `spdk_blob_resize`, for a truncate to `length`. -/
  | resize (length : Nat) (rw : Rw)
  | syncMd (rw : Rw)
  | read (rw : Rw)
  | write (rw : Rw)
  /-- It called back. -/
  | done (rc : Int) (iov : List UInt8)

/-- Whether the allocations of a call succeed, and what the new buffer holds. -/
structure Memory where
  request : Bool
  pinBuf : Option (Nat → UInt8)
  truncate : Bool

/-- `spdk_malloc`, which gives NULL for no bytes. -/
def Memory.malloc (mem : Memory) (size : Nat) : Option (Nat → UInt8) :=
  if size = 0 then none else mem.pinBuf

/-- How an operation ends.  `contents` is what is found where the operation leaves it open:
in clusters that are new, and after an error. -/
structure Answer where
  bserrno : Int
  contents : Nat → UInt8

/-! ### The functions -/

/-- `__get_page_parameters`: `start_lba` and `num_lba`. -/
def getPageParameters (bs : Blobstore) (offset length : Nat) : Nat × Nat :=
  let startLba := offset / bs.ioUnitSize
  let endLba := (offset + length + 2 ^ 64 - 1) % 2 ^ 64 / bs.ioUnitSize
  (startLba, (endLba + 2 ^ 64 - startLba + 1) % 2 ^ 64)

/-- `__is_lba_aligned`. -/
def isLbaAligned (bs : Blobstore) (offset length : Nat) : Bool :=
  offset % bs.ioUnitSize = 0 ∧ length % bs.ioUnitSize = 0

/-- `__bytes_to_clusters`. -/
def bytesToClusters (length clusterSz : Nat) : Nat :=
  (length + clusterSz + 2 ^ 64 - 1) % 2 ^ 64 / clusterSz

/-- `_copy_iovs_to_buf` of one iov, at `start` in the buffer. -/
def copyIovsToBuf (buf : Nat → UInt8) (start bufLen : Nat) (iov : List UInt8) : Nat → UInt8 :=
  splice buf start (min iov.length bufLen) fun k => iov.getD k 0

/-- `_copy_buf_to_iovs` of one iov, from `start` in the buffer. -/
def copyBufToIovs (iov : List UInt8) (buf : Nat → UInt8) (start bufLen : Nat) : List UInt8 :=
  iov.mapIdx fun k byte => if k < bufLen then buf (start + k) else byte

/-- `__rw_done`. -/
def rwDone (rw : Rw) (bserrno : Int) : Stage := .done bserrno rw.iov

/-- `__read_done`, which does not look at its `bserrno`. -/
def readDone (rw : Rw) : Stage :=
  let start := rw.offset &&& (rw.blocklen - 1)
  if rw.isRead then rwDone { rw with iov := copyBufToIovs rw.iov rw.pinBuf start rw.length } 0
  else .write { rw with pinBuf := copyIovsToBuf rw.pinBuf start rw.length rw.iov }

/-- `__do_blob_read`. -/
def doBlobRead (rw : Rw) (fserrno : Int) : Stage :=
  if fserrno ≠ 0 then rwDone rw fserrno else .read rw

/-- `fs_truncate_complete_cb`, of a truncate that a write asked for. -/
def fsTruncateCompleteCb (rw : Rw) (bserrno : Int) : Stage := doBlobRead rw bserrno

/-- `fs_truncate_resize_cb`. -/
def fsTruncateResizeCb (file : File) (length : Nat) (rw : Rw) (bserrno : Int) : File × Stage :=
  if bserrno ≠ 0 then (file, doBlobRead rw bserrno)
  else
    ({ length
       appendPos := if length < file.appendPos then length else file.appendPos
       blob := { file.blob with xattrLength := length } }, .syncMd rw)

/-- `spdk_file_truncate_async`. -/
def fileTruncateAsync (file : File) (length : Nat) (mem : Memory) (rw : Rw) : Stage :=
  if length = file.length then doBlobRead rw 0
  else if mem.truncate = false then doBlobRead rw (-ENOMEM)
  else .resize length rw

/-- `pin_buf_length`. -/
def rwLength (bs : Blobstore) (c : Call) : Nat :=
  (getPageParameters bs c.offset c.iov.length).2 * bs.ioUnitSize % 2 ^ 64

/-- What `__readvwritev` fills a request with. -/
def rwOf (bs : Blobstore) (c : Call) (pinBuf : Nat → UInt8) : Rw where
  isRead := c.isRead
  offset := c.offset
  blocklen := bs.ioUnitSize
  length := rwLength bs c
  startLba := (getPageParameters bs c.offset c.iov.length).1
  numLba := (getPageParameters bs c.offset c.iov.length).2
  pinBuf := pinBuf
  iov := c.iov

/-- `offset + length`. -/
def Call.last (c : Call) : Nat := (c.offset + c.iov.length) % 2 ^ 64

/-- `__readvwritev`. -/
def readvwritev (bs : Blobstore) (file : File) (c : Call) (mem : Memory) : Stage :=
  if c.isRead ∧ file.length < c.last then .done (-EINVAL) c.iov
  else if mem.request = false then .done (-ENOMEM) c.iov
  else
    match mem.malloc (rwLength bs c) with
    | none => .done (-ENOMEM) c.iov
    | some pinBuf =>
        if !c.isRead ∧ file.length < c.last then
          fileTruncateAsync file c.last mem (rwOf bs c pinBuf)
        else if !c.isRead ∧ isLbaAligned bs c.offset c.iov.length then
          .write { rwOf bs c pinBuf with pinBuf := copyIovsToBuf pinBuf 0 (rwLength bs c) c.iov }
        else doBlobRead (rwOf bs c pinBuf) 0

/-! ### The blobstore -/

/-- `spdk_blob_resize`. -/
def Blob.resize (bs : Blobstore) (b : Blob) (numClusters : Nat) (contents : Nat → UInt8) : Blob :=
  { b with
    numClusters
    bytes := fun p =>
      if p < min b.numClusters numClusters * bs.clusterSz then b.bytes p else contents p }

/-- The io units are in the blob. -/
def Blob.HasUnits (bs : Blobstore) (b : Blob) (startLba numLba : Nat) : Prop :=
  (startLba + numLba) * bs.ioUnitSize ≤ b.numClusters * bs.clusterSz

instance (bs : Blobstore) (b : Blob) (startLba numLba : Nat) :
    Decidable (b.HasUnits bs startLba numLba) := inferInstanceAs (Decidable (_ ≤ _))

/-- `spdk_blob_io_read` into a buffer. -/
def Blob.ioRead (bs : Blobstore) (b : Blob) (buf : Nat → UInt8) (startLba numLba : Nat) :
    Nat → UInt8 :=
  splice buf 0 (numLba * bs.ioUnitSize) fun k => b.bytes (startLba * bs.ioUnitSize + k)

/-- `spdk_blob_io_write` from a buffer. -/
def Blob.ioWrite (bs : Blobstore) (b : Blob) (buf : Nat → UInt8) (startLba numLba : Nat) : Blob :=
  { b with bytes := splice b.bytes (startLba * bs.ioUnitSize) (numLba * bs.ioUnitSize) buf }

/-! ### Several requests on one file -/

/-- The file, and how far each call came; `ι` names the calls. -/
structure State (ι : Type) where
  file : File
  stage : ι → Stage

inductive Event (ι : Type) where
  | submit (i : ι) (mem : Memory)
  | complete (i : ι) (answer : Answer)

variable {ι : Type} [DecidableEq ι]

/-- One step; an event that cannot happen gives nothing. -/
def step (bs : Blobstore) (calls : ι → Call) (s : State ι) : Event ι → Option (State ι)
  | .submit i mem =>
      match s.stage i with
      | .idle => some
          { s with stage := Function.update s.stage i (readvwritev bs s.file (calls i) mem) }
      | _ => none
  | .complete i answer =>
      let next (file : File) (stage : Stage) : State ι :=
        { file, stage := Function.update s.stage i stage }
      match s.stage i with
      | .resize length rw =>
          let blob :=
            if answer.bserrno = 0 then
              s.file.blob.resize bs (bytesToClusters length bs.clusterSz) answer.contents
            else s.file.blob
          let (file, stage) :=
            fsTruncateResizeCb { s.file with blob } length rw answer.bserrno
          some (next file stage)
      | .syncMd rw => some (next s.file (fsTruncateCompleteCb rw answer.bserrno))
      | .read rw =>
          if answer.bserrno ≠ 0 then
            some (next s.file (readDone { rw with pinBuf := answer.contents }))
          else if s.file.blob.HasUnits bs rw.startLba rw.numLba then
            some (next s.file (readDone
              { rw with pinBuf := s.file.blob.ioRead bs rw.pinBuf rw.startLba rw.numLba }))
          else none
      | .write rw =>
          let write (buf : Nat → UInt8) : File :=
            { s.file with blob := s.file.blob.ioWrite bs buf rw.startLba rw.numLba }
          if answer.bserrno ≠ 0 then
            some (next (write answer.contents) (rwDone rw answer.bserrno))
          else if s.file.blob.HasUnits bs rw.startLba rw.numLba then
            some (next (write rw.pinBuf) (rwDone rw 0))
          else none
      | .idle => none
      | .done _ _ => none

/-- The calls make the step. -/
def Steps (bs : Blobstore) (calls : ι → Call) (s : State ι) (e : Event ι) (s' : State ι) : Prop :=
  step bs calls s e = some s'

end Nbfs.Async
