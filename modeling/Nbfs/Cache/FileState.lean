import Nbfs.Cache.File
import Nbfs.Async.Write

set_option autoImplicit false

/-!
# Appends, reads, syncs and closes of one file (`lib/NBFS/NBFS.c`)

What is appended goes to the cache, and from there to the blob when a buffer is full or
the file is synced; each flush looks for the next.  A step is a call, the completion of
an operation of the blobstore, the delivery of a message, or the next part of a function
between two places where another thread can come in; a loop over buffers makes one round
a step.  The result of a read and what it copies are left out, and so are the messages
to the thread of the cache pool.  An address is not used again, and what uses a freed
buffer has no defined behaviour.
-/

namespace Nbfs.Cache

open Nbfs.Lib
open Nbfs.Async (Blobstore Blob Stage bytesToClusters getPageParameters ENOMEM EINVAL)

/-- What is to be done, or completed, for the file; `id` is a call of the client. -/
inductive Work where
  /-- `spdk_file_write` after its test of `offset`. -/
  | append (id offset : Nat) (payload : List UInt8)
  /-- The message `__file_extend_blob`. -/
  | extend (id numClusters : Nat) (payload : List UInt8)
  | extendResize (id numClusters : Nat) (payload : List UInt8)
  | extendSync (id : Nat) (payload : List UInt8)
  /-- `spdk_file_write` from the allocation of `flush_req` on. -/
  | startFill (id : Nat) (payload : List UInt8)
  /-- Its loop: `last`, the rest of the payload, and `cache_buffers_filled`. -/
  | fill (id : Nat) (last : BufRef) (payload : List UInt8) (filled : Nat)
  /-- The message `__rw_from_file`; a write has its call. -/
  | rwFromFile (id : Option Nat) (call : Async.Call)
  /-- An operation of `spdk_file_write_async` or `spdk_file_read_async`. -/
  | rw (id : Option Nat) (stage : Stage)
  /-- The message `__file_flush`, or the end of `__file_flush_done`. -/
  | flush
  /-- `spdk_blob_io_write`, then `__file_flush_done`. -/
  | flushWrite (b : BufRef) (offset length : Nat)
  /-- A call of `__check_sync_reqs`, and of `__file_flush` after that of a flush. -/
  | check (thenFlush : Bool)
  /-- `spdk_blob_sync_md`, then `__file_cache_finish_sync`. -/
  | syncXattr (ref : Nat)
  /-- The message `__readahead`. -/
  | readahead (b : BufRef) (length : Nat)
  /-- `spdk_blob_io_read`, then `__readahead_done`. -/
  | readaheadRead (b : BufRef) (length : Nat)
  /-- The loop of `spdk_file_read`: `offset` and `final_offset`. -/
  | readLoop (offset finalOffset : Nat)
  /-- The message `__truncate`. -/
  | truncate (id length : Nat)
  /-- `spdk_blob_resize`, then `fs_truncate_resize_cb`. -/
  | truncateResize (id length : Nat)
  /-- `spdk_blob_sync_md`, then `fs_truncate_complete_cb`. -/
  | truncateSync (id : Nat)
  /-- The message `__file_close`. -/
  | close (id : Nat)
  /-- `spdk_blob_close`, then `__file_close_async_done`. -/
  | closeBlob (id : Nat)

/-- What happened that a client or the blobstore could see. -/
inductive Note where
  /-- A sync or a close was called, with `append_pos` as it was then. -/
  | asked (id appendPos : Nat)
  /-- A call came back, or called back. -/
  | replied (id : Nat) (rc : Int)
  /-- A sync request was put on the queue. -/
  | queued (ref : Nat)
  /-- It called back; `length_flushed` was this then. -/
  | called (ref offset lengthFlushed : Nat)
  /-- A flush wrote `length` bytes from `offset` on. -/
  | wrote (offset length : Nat) (bserrno : Int)
  /-- A buffer was removed and freed. -/
  | freed (buffer : CacheBuffer)

/-- A file with its blob, and what is under way for it. -/
structure FileState where
  file : CachedFile
  refCount : Nat
  /-- `file->blob` is not NULL. -/
  blobOpen : Bool
  /-- `file_free` was called. -/
  isFree : Bool
  blob : Blob
  /-- The `buf` of each buffer. -/
  mem : BufRef → Nat → UInt8
  /-- The next address, or number of a call. -/
  brk : Nat
  pending : List Work
  notes : List Note

/-- How an operation ends, and which allocations of a step succeed. -/
structure Answer extends Async.Answer, Async.Memory where
  syncRequest : Bool
  flushRequest : Bool
  buffer : Bool
  /-- Of the two readaheads of a read. -/
  aheads : Bool × Bool

def EBADF : Int := 9

/-- `CACHE_READAHEAD_THRESHOLD`. -/
def cacheReadaheadThreshold : Nat := 128 * 1024

/-- `NEXT_CACHE_BUFFER_OFFSET`, and `__next_cache_buffer_offset`. -/
def nextCacheBufferOffset (offset : Nat) : Nat :=
  (offset + cacheBufferSize) % 2 ^ 64 / cacheBufferSize * cacheBufferSize

namespace FileState

variable (s : FileState)

def setFile (file : CachedFile) : FileState := { s with file }

def send (w : Work) : FileState := { s with pending := s.pending ++ [w] }

def note (n : Note) : FileState := { s with notes := s.notes ++ [n] }

def reply (id : Nat) (rc : Int) : FileState := s.note (.replied id rc)

/-- The address of a new object. -/
def alloc : FileState := { s with brk := s.brk + 1 }

def setMem (b : BufRef) (image : Nat → UInt8) : FileState :=
  { s with mem := Function.update s.mem b image }

/-- An operation on `file->blob`. -/
def blobOp (w : Work) : Except Fault FileState :=
  if s.blobOpen then .ok (s.send w) else .error .nullPointer

/-- `__file_get_blob_size`. -/
def fileGetBlobSize (bs : Blobstore) : Except Fault Nat :=
  if s.blobOpen then .ok (bs.clusterSz * s.blob.numClusters) else .error .nullPointer

/-! ### Buffers -/

/-- `cache_insert_buffer`; `ok` is whether there is memory. -/
def cacheInsertBuffer (offset : Nat) (ok : Bool) : Except Fault (Option BufRef × FileState) :=
  if ok then do
    let file ← s.file.cacheInsertBuffer s.brk offset
    return (some s.brk, (s.setFile file).alloc)
  else .ok (none, s)

/-- The first assertion of `cache_append_buffer`. -/
def lastIsFull : Except Fault Bool :=
  match s.file.last with
  | none => .ok true
  | some b => do
      let last ← s.file.buffer b
      return last.bytesFilled = cacheBufferSize

/-- `cache_append_buffer`. -/
def cacheAppendBuffer (ok : Bool) : Except Fault (Option BufRef × FileState) := do
  if ← s.lastIsFull then
    if s.file.appendPos % cacheBufferSize = 0 then
      match ← s.cacheInsertBuffer s.file.appendPos ok with
      | (some b, s) => return (some b, s.setFile { s.file with last := some b })
      | (none, s) => return (none, s)
    else .error .assertion
  else .error .assertion

/-- The buffer leaves the tree and is freed. -/
def removeBuffer (b : BufRef) (buffer : CacheBuffer) : FileState :=
  (s.setFile (s.file.treeRemoveBuffer b)).note (.freed buffer)

/-- `tree_free_buffers`. -/
def treeFreeBuffers : FileState :=
  { s with
    file := s.file.treeFreeBuffers
    notes := s.notes ++ (s.file.cache.refs.filter (idleIn s.file.cache.buffers)).filterMap fun b =>
      (s.file.cache.buffers b).map .freed }

/-- `reclaim_cache_buffers`, of a file on `g_caches` whose lock is free. -/
def reclaimCacheBuffers : FileState :=
  if s.file.cache.isEmpty then s
  else
    let s := s.treeFreeBuffers
    if s.file.cache.isEmpty then s.setFile { s.file with last := none } else s

/-- `file_free`. -/
def fileFree : Except Fault FileState :=
  if s.file.cache.isEmpty then .ok { s with isFree := true }
  else
    let s := s.treeFreeBuffers
    if s.file.cache.isEmpty then .ok { s with isFree := true } else .error .assertion

/-! ### Closing -/

/-- `__file_close_async`. -/
def fileCloseAsync (id : Nat) : Except Fault FileState :=
  if s.refCount = 0 then .ok (s.reply id (-EBADF))
  else if s.refCount - 1 > 0 then .ok ({ s with refCount := s.refCount - 1 }.reply id 0)
  else if s.blobOpen then
    .ok ({ s with refCount := 0, blobOpen := false }.send (.closeBlob id))
  else .error .nullPointer

/-- The callback of a sync. -/
def callSyncCb (rc : Int) : SyncCb → Except Fault FileState
  | .client id => .ok (s.reply id rc)
  | .closeAsync id => s.fileCloseAsync id
  | .close id => .ok (s.send (.close id))

/-! ### Flushing and syncing -/

/-- `__check_sync_reqs`. -/
def checkSyncReqs : Except Fault FileState :=
  match s.file.syncRequests.find? fun r => decide (r.offset ≤ s.file.lengthFlushed) with
  | none => .ok s
  | some r =>
      if r.xattrInProgress then .ok s
      else
        let started := { r with xattrInProgress := true, length := s.file.lengthFlushed }
        let syncRequests := s.file.syncRequests.map fun q => if q.ref = r.ref then started else q
        { s with
          file := { s.file with syncRequests }
          blob := { s.blob with xattrLength := s.file.lengthFlushed } }.blobOp (.syncXattr r.ref)

/-- `__file_cache_finish_sync`. -/
def fileCacheFinishSync (ref : Nat) (bserrno : Int) : Except Fault FileState :=
  match s.file.syncRequests.find? fun r => decide (r.ref = ref) with
  | none => .error .noEvent
  | some r =>
      if s.file.lengthFlushed < r.offset then .error .assertion
      else do
        let syncRequests := s.file.syncRequests.filter fun q => q.ref ≠ ref
        let s := (s.setFile { s.file with lengthXattr := r.length, syncRequests }).note
          (.called ref r.offset s.file.lengthFlushed)
        let s ← s.callSyncCb bserrno r.cb
        return s.send (.check false)

/-- `__file_flush`. -/
def fileFlush : Except Fault FileState :=
  match s.file.cache.find s.file.lengthFlushed with
  | none => .ok ((s.setFile { s.file with lengthFlushed := s.file.appendPos }).send (.check false))
  | some b => do
      let next ← s.file.buffer b
      if next.inProgress ∨ next.bytesFilled < cacheBufferSize ∧ s.file.syncRequests.isEmpty then
        return s
      else
        let length := (next.bytesFilled + 2 ^ 32 - next.bytesFlushed) % 2 ^ 32
        if length = 0 then return s.send (.check false)
        else
          (s.setFile (s.file.setBuffer b { next with inProgress := true })).blobOp
            (.flushWrite b (next.offset + next.bytesFlushed) length)

/-- What the write of a flush does to the blob, from the memory of its buffer. -/
def flushed (bs : Blobstore) (b : BufRef) (next : CacheBuffer) (offset length : Nat) (a : Answer) :
    Except Fault FileState :=
  let (startLba, numLba) := getPageParameters bs offset length
  let image := fun k => s.mem b (startLba * bs.ioUnitSize - next.offset + k)
  let s := s.note (.wrote offset length a.bserrno)
  if a.bserrno ≠ 0 then .ok { s with blob := s.blob.ioWrite bs a.contents startLba numLba }
  else if s.blob.HasUnits bs startLba numLba then
    .ok { s with blob := s.blob.ioWrite bs image startLba numLba }
  else .error .noEvent

/-- The assertion of `__file_flush_done` about the buffer `next`. -/
def assertInBlob (bs : Blobstore) : Option BufRef → Except Fault FileState
  | none => .ok s
  | some b => do
      let next ← s.file.buffer b
      let blobSize ← s.fileGetBlobSize bs
      if next.offset < blobSize ∨ next.bytesFilled = 0 then return s else .error .assertion

/-- `__file_flush_done`, which does not look at its `bserrno`. -/
def fileFlushDone (bs : Blobstore) (b : BufRef) (next : CacheBuffer) (length : Nat) :
    Except Fault FileState := do
  let next := { next with
    inProgress := false, bytesFlushed := (next.bytesFlushed + length) % 2 ^ 32 }
  let lengthFlushed := (s.file.lengthFlushed + length) % 2 ^ 64
  let file := { s.file.setBuffer b next with
    lengthFlushed, length := max s.file.length lengthFlushed }
  let found := if next.bytesFlushed = cacheBufferSize then file.cache.find lengthFlushed else some b
  let s ← (s.setFile file).assertInBlob bs found
  return s.send (.check true)

/-- `_file_sync`. -/
def fileSync (cb : SyncCb) (a : Answer) : Except Fault FileState :=
  if s.file.appendPos ≤ s.file.lengthXattr then s.callSyncCb 0 cb
  else if a.syncRequest = false ∨ a.flushRequest = false then s.callSyncCb (-ENOMEM) cb
  else
    let request : SyncRequest := ⟨s.brk, cb, s.file.appendPos, false, 0⟩
    let s := (s.setFile { s.file with syncRequests := s.file.syncRequests ++ [request] }).alloc
    .ok ((s.note (.queued request.ref)).send .flush)

/-! ### Appending -/

/-- `spdk_file_write` from the allocation of `flush_req` on. -/
def startFill (id : Nat) (payload : List UInt8) (a : Answer) : Except Fault FileState :=
  if a.flushRequest then
    match s.file.last with
    | some last => .ok (s.send (.fill id last payload 0))
    | none => .error .nullPointer
  else .ok (s.reply id (-ENOMEM))

/-- The start of `spdk_file_write` under its lock: a file without a last buffer gets one, if
`append_pos` is where a buffer starts. -/
def openLast (a : Answer) : Except Fault FileState :=
  let s := s.setFile { s.file with openForWriting := true }
  if s.file.last = none ∧ s.file.appendPos % cacheBufferSize = 0 then do
    let (_, s) ← s.cacheAppendBuffer a.buffer
    return s
  else .ok s

/-- `spdk_file_write` after its test of `offset`. -/
def append (bs : Blobstore) (id offset : Nat) (payload : List UInt8) (a : Answer) :
    Except Fault FileState := do
  let s ← s.openLast a
  if s.file.last = none then
    let appendPos := (s.file.appendPos + payload.length) % 2 ^ 64
    let s := s.setFile { s.file with appendPos }
    if a.request then return s.send (.rwFromFile (some id) ⟨false, offset, payload⟩)
    else return s.reply id (-ENOMEM)
  else
    let blobSize ← s.fileGetBlobSize bs
    let final := (offset + payload.length) % 2 ^ 64
    if blobSize < final then
      return s.send (.extend id (bytesToClusters final bs.clusterSz) payload)
    else s.startFill id payload a

/-- A round of the loop of `spdk_file_write`. -/
def fillRound (id : Nat) (b : BufRef) (payload : List UInt8) (filled : Nat) (a : Answer) :
    Except Fault FileState := do
  let last ← s.file.buffer b
  let copy := min ((cacheBufferSize + 2 ^ 32 - last.bytesFilled) % 2 ^ 32) payload.length
  let appendPos := (s.file.appendPos + copy) % 2 ^ 64
  let bytesFilled := (last.bytesFilled + copy) % 2 ^ 32
  let image := splice (s.mem b) last.bytesFilled copy fun k => payload.getD k 0
  let file := { s.file.setBuffer b { last with bytesFilled } with
    appendPos, length := max s.file.length appendPos }
  let s := (s.setFile file).setMem b image
  let rest := payload.drop copy
  if bytesFilled = cacheBufferSize then
    match ← s.cacheAppendBuffer a.buffer with
    | (some b, s) => return s.send (.fill id b rest (filled + 1))
    | (none, s) => return s.reply id (-ENOMEM)
  else return s.send (.fill id b rest filled)

/-- The end of `spdk_file_write`. -/
def endFill (id filled : Nat) : FileState :=
  if filled = 0 then s.reply id 0 else (s.reply id 0).send .flush

/-! ### Requests past the cache -/

/-- The fields that requests past the cache use. -/
def asyncFile : Async.File := ⟨s.file.length, s.file.appendPos, s.blob⟩

def setAsyncFile (f : Async.File) : FileState :=
  { s with file := { s.file with length := f.length, appendPos := f.appendPos }, blob := f.blob }

/-- The request goes on, or calls back. -/
def rwStage (id : Option Nat) : Stage → Except Fault FileState
  | .done rc _ =>
      match id with
      | some id => .ok (s.reply id rc)
      | none => .ok s
  | stage => s.blobOp (.rw id stage)

/-- An operation of the request completes. -/
def rwComplete (bs : Blobstore) (id : Option Nat) (stage : Stage) (a : Answer) :
    Except Fault FileState :=
  match Async.step bs (fun _ : Unit => ⟨false, 0, []⟩) ⟨s.asyncFile, fun _ => stage⟩
      (.complete () a.toAnswer) with
  | none => .error .noEvent
  | some t => (s.setAsyncFile t.file).rwStage id (t.stage ())

/-! ### Reading -/

/-- `check_readahead`. -/
def checkReadahead (offset : Nat) (ok : Bool) : Except Fault FileState :=
  let offset := nextCacheBufferOffset offset
  if (s.file.cache.find offset).isSome ∨ s.file.length ≤ offset then .ok s
  else do
    match ← s.cacheInsertBuffer offset ok with
    | (none, s) => return s
    | (some b, s) =>
        let s := s.setFile (s.file.setBuffer b ⟨offset, 0, 0, true⟩)
        let length :=
          if s.file.length < (offset + cacheBufferSize) % 2 ^ 64 then
            s.file.length % cacheBufferSize
          else cacheBufferSize
        return s.send (.readahead b length)

/-- The length of a read up to `append_pos`. -/
def readableLength (offset length : Nat) : Nat :=
  if s.file.appendPos < (offset + length) % 2 ^ 64 then s.file.appendPos - offset else length

/-- The count of bytes that are read one after the other. -/
def sequential (offset length : Nat) : FileState :=
  let before := if offset = s.file.nextSeqOffset then s.file.seqByteCount else 0
  s.setFile { s.file with
    openForWriting := false
    seqByteCount := (before + length) % 2 ^ 64
    nextSeqOffset := (offset + length) % 2 ^ 64 }

/-- The readaheads of `spdk_file_read`. -/
def checkReadaheads (offset : Nat) (a : Answer) : Except Fault FileState :=
  if cacheReadaheadThreshold ≤ s.file.seqByteCount then do
    let s ← s.checkReadahead offset a.aheads.1
    s.checkReadahead ((offset + cacheBufferSize) % 2 ^ 64) a.aheads.2
  else .ok s

/-- `spdk_file_read` up to its loop. -/
def fileRead (offset length : Nat) (a : Answer) : Except Fault FileState :=
  if length = 0 ∨ s.file.appendPos ≤ offset then
    .ok (s.setFile { s.file with openForWriting := false })
  else do
    let length := s.readableLength offset length
    let s ← (s.sequential offset length).checkReadaheads offset a
    return s.send (.readLoop offset ((offset + length) % 2 ^ 64))

/-- How many bytes a round of `spdk_file_read` copies out of a buffer. -/
def readLen (buffer : CacheBuffer) (offset length : Nat) : Nat :=
  if (buffer.offset + buffer.bytesFilled) % 2 ^ 64 < (offset + length) % 2 ^ 64 then
    (buffer.offset + buffer.bytesFilled + 2 ^ 64 - offset) % 2 ^ 64
  else length

/-- A round of the loop of `spdk_file_read`. -/
def readRound (offset finalOffset : Nat) (a : Answer) : Except Fault FileState :=
  if offset < finalOffset then
    let length := min ((nextCacheBufferOffset offset + 2 ^ 64 - offset) % 2 ^ 64)
      (finalOffset - offset)
    let next := Work.readLoop ((offset + length) % 2 ^ 64) finalOffset
    match s.file.cache.findFilled offset with
    | none =>
        if a.request then
          .ok ((s.send (.rwFromFile none ⟨true, offset, List.replicate length 0⟩)).send next)
        else .ok s
    | some b => do
        let buffer ← s.file.buffer b
        let readLen := readLen buffer offset length
        if offset - buffer.offset + readLen ≤ cacheBufferSize then
          if (offset + readLen) % 2 ^ 64 % cacheBufferSize = 0 then
            return (s.removeBuffer b buffer).send next
          else return s.send next
        else .error .overrun
  else .ok s

/-- What a readahead finds on the blob. -/
def readAhead (bs : Blobstore) (b : BufRef) (buffer : CacheBuffer) (length : Nat) (a : Answer) :
    Except Fault FileState :=
  let (startLba, numLba) := getPageParameters bs buffer.offset length
  if a.bserrno ≠ 0 then .ok (s.setMem b a.contents)
  else if s.blob.HasUnits bs startLba numLba then
    .ok (s.setMem b (s.blob.ioRead bs (s.mem b) startLba numLba))
  else .error .noEvent

/-- `__readahead_done`, which does not look at its `bserrno`. -/
def readaheadDone (b : BufRef) (buffer : CacheBuffer) (length : Nat) : FileState :=
  s.setFile (s.file.setBuffer b
    { buffer with bytesFilled := length, bytesFlushed := length, inProgress := false })

/-! ### Truncating -/

/-- `spdk_file_truncate_async`. -/
def fileTruncateAsync (id length : Nat) (a : Answer) : Except Fault FileState :=
  if length = s.file.length then .ok (s.reply id 0)
  else if a.truncate = false then .ok (s.reply id (-ENOMEM))
  else s.blobOp (.truncateResize id length)

/-- `fs_truncate_resize_cb`, with the resize of the blob. -/
def fsTruncateResizeCb (bs : Blobstore) (id length : Nat) (a : Answer) : Except Fault FileState :=
  if a.bserrno ≠ 0 then .ok (s.reply id a.bserrno)
  else
    let blob := s.blob.resize bs (bytesToClusters length bs.clusterSz) a.contents
    let file := { s.file with length, appendPos := min s.file.appendPos length }
    { s with file, blob := { blob with xattrLength := length } }.blobOp (.truncateSync id)

end FileState

/-- What can happen next. -/
inductive FileEvent where
  | write (offset : Nat) (payload : List UInt8)
  | read (offset length : Nat)
  | sync
  | closeAsync
  | close
  | truncate (length : Nat)
  | reclaim
  | free
  /-- Something that is pending comes to be done. -/
  | complete (i : Nat)

/-- The client truncates the file. -/
def FileEvent.isTruncate : FileEvent → Bool
  | truncate _ => true
  | _ => false

namespace FileState

variable (s : FileState)

/-- `spdk_file_write` up to its lock. -/
def fileWrite (offset : Nat) (payload : List UInt8) : FileState :=
  if payload = [] then s.alloc.reply s.brk 0
  else if offset ≠ s.file.appendPos then s.alloc.reply s.brk (-EINVAL)
  else s.alloc.send (.append s.brk offset payload)

/-- What is pending comes to be done; it was taken from the list. -/
def perform (bs : Blobstore) (a : Answer) : Work → Except Fault FileState
  | .append id offset payload => s.append bs id offset payload a
  | .extend id numClusters payload => s.blobOp (.extendResize id numClusters payload)
  | .extendResize id numClusters payload =>
      if a.bserrno ≠ 0 then .ok (s.reply id a.bserrno)
      else
        { s with blob := s.blob.resize bs numClusters a.contents }.blobOp (.extendSync id payload)
  | .extendSync id payload =>
      if a.bserrno ≠ 0 then .ok (s.reply id a.bserrno) else .ok (s.send (.startFill id payload))
  | .startFill id payload => s.startFill id payload a
  | .fill id b payload filled =>
      if payload = [] then .ok (s.endFill id filled) else s.fillRound id b payload filled a
  | .rwFromFile id call => s.rwStage id (Async.readvwritev bs s.asyncFile call a.toMemory)
  | .rw id stage => s.rwComplete bs id stage a
  | .flush => s.fileFlush
  | .flushWrite b offset length => do
      let next ← s.file.buffer b
      let s ← s.flushed bs b next offset length a
      s.fileFlushDone bs b next length
  | .check thenFlush => do
      let s ← s.checkSyncReqs
      return if thenFlush then s.send .flush else s
  | .syncXattr ref => s.fileCacheFinishSync ref a.bserrno
  | .readahead b length => do
      let _ ← s.file.buffer b
      if length = 0 then .error .assertion else s.blobOp (.readaheadRead b length)
  | .readaheadRead b length => do
      let buffer ← s.file.buffer b
      let s ← s.readAhead bs b buffer length a
      return s.readaheadDone b buffer length
  | .readLoop offset finalOffset => s.readRound offset finalOffset a
  | .truncate id length => s.fileTruncateAsync id length a
  | .truncateResize id length => s.fsTruncateResizeCb bs id length a
  | .truncateSync id => .ok (s.reply id a.bserrno)
  | .close id => s.fileCloseAsync id
  | .closeBlob id => .ok (s.reply id a.bserrno)

/-- The work that an event completes. -/
def completed : FileEvent → Option Work
  | .complete i => s.pending[i]?
  | _ => none

/-- What is pending without the item `i`. -/
def take (i : Nat) : FileState := { s with pending := s.pending.eraseIdx i }

/-- A call of a sync or a close is given a number, and noted. -/
def ask : FileState := s.alloc.note (.asked s.brk s.file.appendPos)

/-- What an event does to a file. -/
def act (bs : Blobstore) (a : Answer) : FileEvent → Except Fault FileState
  | .write offset payload => .ok (s.fileWrite offset payload)
  | .read offset length => s.fileRead offset length a
  | .sync => s.ask.fileSync (.client s.brk) a
  | .closeAsync =>
      if a.request then s.ask.fileSync (.closeAsync s.brk) a else .ok (s.ask.reply s.brk (-ENOMEM))
  | .close =>
      if a.request then s.ask.fileSync (.close s.brk) a else .ok (s.ask.reply s.brk (-ENOMEM))
  | .truncate length =>
      if a.request then .ok (s.alloc.send (.truncate s.brk length))
      else .ok (s.alloc.reply s.brk (-ENOMEM))
  | .reclaim => .ok s.reclaimCacheBuffers
  | .free => s.fileFree
  | .complete i =>
      match s.pending[i]? with
      | none => .error .noEvent
      | some w => (s.take i).perform bs a w

/-- One step of a file that is not freed. -/
def step (bs : Blobstore) (a : Answer) (e : FileEvent) : Except Fault FileState :=
  if s.isFree then .error .freedFile else s.act bs a e

end FileState

/-- A file that was created, or loaded with its length, and is open. -/
structure FileState.Initial (bs : Blobstore) (s : FileState) : Prop where
  blobOpen : s.blobOpen = true
  isFree : s.isFree = false
  length_lt : s.file.length < 2 ^ 64
  inBlob : s.file.length ≤ bs.clusterSz * s.blob.numClusters
  xattrLength : s.blob.xattrLength = s.file.length
  lengthFlushed : s.file.lengthFlushed = s.file.length
  lengthXattr : s.file.lengthXattr = s.file.length
  appendPos : s.file.appendPos = s.file.length
  last : s.file.last = none
  cache : s.file.cache = ⟨[], fun _ => none⟩
  syncRequests : s.file.syncRequests = []
  pending : s.pending = []
  notes : s.notes = []

/-- The file makes the step. -/
def FileSteps (bs : Blobstore) (s : FileState) (e : FileEvent × Answer) (s' : FileState) : Prop :=
  s.step bs e.2 e.1 = .ok s'

/-! ### Two files -/

/-- Io units of 4 KiB, clusters of 1 MiB. -/
def oneMegabyte : Blobstore := ⟨12, 2 ^ 20, by decide, ⟨256, rfl⟩⟩

/-- A file that was loaded with one byte. -/
def loadedByte : FileState where
  file := ⟨1, false, 1, 1, 1, 0, 0, false, none, ⟨[], fun _ => none⟩, []⟩
  refCount := 1
  blobOpen := true
  isFree := false
  blob := ⟨1, fun _ => 0, 1⟩
  mem := fun _ _ => 0
  brk := 0
  pending := []
  notes := []

theorem loadedByte_initial : loadedByte.Initial oneMegabyte := by
  constructor
  all_goals first | rfl | decide

/-- A file that was created, in a blob of one cluster. -/
def createdFile : FileState :=
  { loadedByte with
    file := { loadedByte.file with
      length := 0, lengthFlushed := 0, lengthXattr := 0, appendPos := 0 }
    blob := ⟨1, fun _ => 0, 0⟩ }

theorem createdFile_initial : createdFile.Initial oneMegabyte := by
  constructor
  all_goals first | rfl | decide

/-- Every operation and every allocation succeeds. -/
def success : Answer :=
  ⟨⟨0, fun _ => 0⟩, ⟨true, some fun _ => 0, true⟩, true, true, true, (true, true)⟩

/-- The last operation fails. -/
def failure : Answer := { success with bserrno := -5 }

end Nbfs.Cache
