import Nbfs.Calls.Jobs

set_option autoImplicit false

/-!
# The synchronous calls (`lib/NBFS/NBFS.c`)

A synchronous call runs on the thread of its client.  Every access to what `file->lock`
protects is a step of its own, since other threads can come in between; what they leave
there may be anything.
-/

namespace Nbfs.Calls

open Nbfs.Lib Conv
open Nbfs.Fs (FileRef enomem)
open Nbfs.Cache (BufRef cacheBufferSize)

/-- A field of a file, or of one of its cache buffers. -/
inductive Field where
  | openForWriting
  | last
  | appendPos
  | length
  | lengthXattr
  | seqByteCount
  | nextSeqOffset
  | bufOffset (b : BufRef)
  | bytesFilled (b : BufRef)
  | inProgress (b : BufRef)

abbrev Field.Value : Field → Type
  | openForWriting | inProgress _ => Bool
  | last => Option BufRef
  | bytesFilled _ => UInt32
  | _ => UInt64

/-- What a client does. -/
inductive Action where
  /-- `pthread_spin_lock(&file->lock)`. -/
  | lock
  | unlock
  | get (x : Field)
  | set (x : Field) (v : x.Value)
  /-- `file->append_pos` where `spdk_file_write` compares `offset` with it. -/
  | testAppendPos
  /-- `alloc_fs_request_with_iov`; for `alloc_fs_request` the count is 0. -/
  | alloc (iovcnt : Nat)
  | freeRequest
  /-- `cache_insert_buffer`. -/
  | insertBuffer (offset : UInt64)
  /-- `tree_find_buffer`. -/
  | findBuffer (offset : UInt64)
  | findFilledBuffer (offset : UInt64)
  /-- `tree_remove_buffer`. -/
  | removeBuffer (b : BufRef)
  /-- `memcpy` into a buffer from its byte `start` on, and out of one. -/
  | copyIn (b : BufRef) (start : UInt32) (copy : UInt64)
  | copyOut (b : BufRef) (start readLen : UInt64)
  /-- `spdk_blob_get_num_clusters`. -/
  | numClusters
  | clusterSz
  /-- `send_request`, or `TAILQ_INSERT_TAIL` of a sync request. -/
  | send (m : Message)
  | semPost
  | semWait
  /-- `args->rc`, after the wait. -/
  | rc
  /-- `arg.rwerrno`. -/
  | rwerrno
  | setRwerrno (rc : Int)

abbrev Answer : Action → Type
  | .get x => x.Value
  | .testAppendPos | .numClusters | .clusterSz => UInt64
  | .alloc _ => Bool
  | .insertBuffer _ | .findBuffer _ | .findFilledBuffer _ => Option BufRef
  | .rc | .rwerrno => Int
  | _ => Unit

abbrev Client := Conv Action Answer

/-- The action, in a call that goes on. -/
abbrev act (r : Action) : Client (Answer r) := Conv.request r

/-- What is only done if `c`. -/
def when (c : Prop) [Decidable c] (p : Client Unit) : Client Unit := if c then p else ret ()

/-! ### Requests that wait -/

/-- `__send_rw_from_file`. -/
def sendRwFromFile (file : FileRef) (offset length : UInt64) (isRead : Bool) : Client Int := do
  let req ← act (.alloc 1)
  if req = false then
    act .semPost
    ret (-enomem)
  else
    act (.send (.rwFromFile file isRead offset length))
    ret 0

/-- A call that sends one message and waits for it: `spdk_fs_file_stat`,
`spdk_fs_create_file`, `spdk_fs_open_file`, `spdk_fs_rename_file`, `spdk_fs_delete_file` and
`spdk_file_truncate`. -/
def sendAndWait (m : Message) : Client Int := do
  let req ← act (.alloc 0)
  if req = false then ret (-enomem)
  else
    act (.send m)
    act .semWait
    let rc ← act .rc
    act .freeRequest
    ret rc

/-! ### Appending -/

/-- `assert`. -/
def check (b : Bool) : Client Unit := if b then ret () else undefined

/-- The first assertion of `cache_append_buffer`. -/
def assertLastFull : Client Unit := do
  let last ← act (.get .last)
  match last with
  | none => ret ()
  | some b =>
      let bytesFilled ← act (.get (.bytesFilled b))
      check (bytesFilled = cacheBufferSize.toUInt32)

/-- `cache_append_buffer`. -/
def cacheAppendBuffer : Client (Option BufRef) := do
  assertLastFull
  let appendPos ← act (.get .appendPos)
  check (appendPos % cacheBufferSize.toUInt64 = 0)
  let appendPos ← act (.get .appendPos)
  let last ← act (.insertBuffer appendPos)
  match last with
  | none => ret none
  | some b =>
      act (.set .last (some b))
      ret (some b)

/-- The loop of `spdk_file_write`, for so many rounds, and what comes after it. -/
def fillBuffers (file : FileRef) : Nat → BufRef → UInt64 → UInt32 → Client Int
  | 0, _, _, _ => undefined
  | rounds + 1, last, remLength, filled =>
      if 0 < remLength then do
        let bytesFilled ← act (.get (.bytesFilled last))
        let copy := min (cacheBufferSize.toUInt32 - bytesFilled).toUInt64 remLength
        let start ← act (.get (.bytesFilled last))
        act (.copyIn last start copy)
        let appendPos ← act (.get .appendPos)
        act (.set .appendPos (appendPos + copy))
        let length ← act (.get .length)
        let appendPos ← act (.get .appendPos)
        when (length < appendPos) (act (.set .length appendPos))
        let bytesFilled ← act (.get (.bytesFilled last))
        act (.set (.bytesFilled last) (bytesFilled + copy.toUInt32))
        let bytesFilled ← act (.get (.bytesFilled last))
        if bytesFilled = cacheBufferSize.toUInt32 then do
          let last ← cacheAppendBuffer
          match last with
          | none => do
              act .freeRequest
              act .unlock
              ret (-enomem)
          | some last => fillBuffers file rounds last (remLength - copy) (filled + 1)
        else fillBuffers file rounds last (remLength - copy) filled
      else do
        act .unlock
        if filled = 0 then do
          act .freeRequest
          ret 0
        else do
          act (.send (.fileFlush file))
          ret 0

/-- `spdk_file_write` from the allocation of `flush_req` on. -/
def startFill (rounds : Nat) (file : FileRef) (length : UInt64) : Client Int := do
  let flushReq ← act (.alloc 0)
  if flushReq = false then
    act .unlock
    ret (-enomem)
  else
    let last ← act (.get .last)
    match last with
    | none => undefined
    | some last => fillBuffers file rounds last length 0

/-- `spdk_file_write` of a file without a last buffer. -/
def writeDirect (file : FileRef) (offset length : UInt64) : Client Int := do
  let appendPos ← act (.get .appendPos)
  act (.set .appendPos (appendPos + length))
  act .unlock
  let rc ← sendRwFromFile file offset length false
  if rc ≠ 0 then ret rc
  else
    act .semWait
    act .rwerrno

/-- `spdk_file_write` of a file with a last buffer; the lock is given up while the blob is
extended. -/
def writeCached (rounds : Nat) (file : FileRef) (offset length : UInt64) : Client Int := do
  let clusterSz ← act .clusterSz
  let numClusters ← act .numClusters
  if clusterSz * numClusters < offset + length then
    act .unlock
    act (.send (.fileExtendBlob file (bytesToClusters (offset + length) clusterSz)))
    act .semWait
    let rc ← act .rc
    if rc ≠ 0 then ret rc else startFill rounds file length
  else startFill rounds file length

/-- The start of `spdk_file_write` under its lock. -/
def openLast : Client Unit := do
  act (.set .openForWriting true)
  let last ← act (.get .last)
  let appendPos ← act (.get .appendPos)
  when (last = none ∧ appendPos % cacheBufferSize.toUInt64 = 0) do
    let _ ← cacheAppendBuffer
    ret ()

/-- `spdk_file_write`, with a bound on the rounds of its loop. -/
def spdkFileWrite (rounds : Nat) (file : FileRef) (offset length : UInt64) : Client Int :=
  if length = 0 then ret 0
  else do
    let appendPos ← act .testAppendPos
    if offset ≠ appendPos then ret (-einval)
    else
      act .lock
      openLast
      let last ← act (.get .last)
      if last = none then writeDirect file offset length
      else writeCached rounds file offset length

/-! ### Reading -/

/-- `NEXT_CACHE_BUFFER_OFFSET`, and `__next_cache_buffer_offset`. -/
def nextCacheBufferOffset (offset : UInt64) : UInt64 :=
  (offset + cacheBufferSize.toUInt64) &&& ~~~(cacheBufferSize.toUInt64 - 1)

/-- `check_readahead`. -/
def checkReadahead (file : FileRef) (offset : UInt64) : Client Unit := do
  let offset := nextCacheBufferOffset offset
  let found ← act (.findBuffer offset)
  let length ← act (.get .length)
  if found ≠ none ∨ length ≤ offset then ret ()
  else
    let req ← act (.alloc 0)
    if req = false then ret ()
    else
      let b ← act (.insertBuffer offset)
      match b with
      | none => act .freeRequest
      | some b =>
          act (.set (.inProgress b) true)
          let length ← act (.get .length)
          let ahead :=
            if length < offset + cacheBufferSize.toUInt64 then
              length &&& (cacheBufferSize.toUInt64 - 1)
            else cacheBufferSize.toUInt64
          act (.send (.readahead file offset ahead))

/-- How many bytes a round of `spdk_file_read` copies out of a buffer. -/
def readLen (bufOffset : UInt64) (bytesFilled : UInt32) (offset length : UInt64) : UInt64 :=
  if bufOffset + bytesFilled.toUInt64 < offset + length then
    bufOffset + bytesFilled.toUInt64 - offset
  else length

/-- The loop of `spdk_file_read`, for so many rounds: `final_length` and `sub_reads`, which
for no buffer that fits into memory comes to 2^32. -/
def readLoop (file : FileRef) (finalOffset : UInt64) :
    Nat → UInt64 → UInt64 → Nat → Client (UInt64 × Nat)
  | 0, _, _, _ => undefined
  | rounds + 1, offset, finalLength, subReads =>
      if offset < finalOffset then do
        let length := min (nextCacheBufferOffset offset - offset) (finalOffset - offset)
        let buf ← act (.findFilledBuffer offset)
        match buf with
        | none => do
            act .unlock
            let rc ← sendRwFromFile file offset length true
            act .lock
            if rc = 0 then
              readLoop file finalOffset rounds (offset + length) (finalLength + length)
                (subReads + 1)
            else
              act (.setRwerrno rc)
              ret (finalLength, subReads)
        | some b => do
            let bufOffset ← act (.get (.bufOffset b))
            let bytesFilled ← act (.get (.bytesFilled b))
            let readLen := readLen bufOffset bytesFilled offset length
            act (.copyOut b (offset - bufOffset) readLen)
            when ((offset + readLen) % cacheBufferSize.toUInt64 = 0) (act (.removeBuffer b))
            readLoop file finalOffset rounds (offset + length) (finalLength + length) subReads
      else ret (finalLength, subReads)

/-- The last loop of `spdk_file_read`. -/
def waitSubReads : Nat → Client Unit
  | 0 => ret ()
  | subReads + 1 => do
      act .semWait
      waitSubReads subReads

/-- The readaheads of `spdk_file_read`. -/
def checkReadaheads (file : FileRef) (offset length : UInt64) : Client Unit := do
  let nextSeqOffset ← act (.get .nextSeqOffset)
  when (offset ≠ nextSeqOffset) (act (.set .seqByteCount 0))
  let seqByteCount ← act (.get .seqByteCount)
  act (.set .seqByteCount (seqByteCount + length))
  act (.set .nextSeqOffset (offset + length))
  let seqByteCount ← act (.get .seqByteCount)
  when (128 * 1024 ≤ seqByteCount) do
    checkReadahead file offset
    checkReadahead file (offset + cacheBufferSize.toUInt64)

/-- `spdk_file_read` of bytes that are there. -/
def readBytes (rounds : Nat) (file : FileRef) (offset length : UInt64) : Client Int := do
  checkReadaheads file offset length
  act (.setRwerrno 0)
  let (finalLength, subReads) ← readLoop file (offset + length) rounds offset 0 0
  act .unlock
  waitSubReads subReads
  let rwerrno ← act .rwerrno
  if rwerrno = 0 then ret finalLength.toInt64.toInt else ret rwerrno

/-- `spdk_file_read`, with a bound on the rounds of its loop. -/
def spdkFileRead (rounds : Nat) (file : FileRef) (offset length : UInt64) : Client Int := do
  act .lock
  act (.set .openForWriting false)
  let appendPos ← act (.get .appendPos)
  if length = 0 ∨ appendPos ≤ offset then
    act .unlock
    ret 0
  else
    let appendPos ← act (.get .appendPos)
    if appendPos < offset + length then
      let appendPos ← act (.get .appendPos)
      readBytes rounds file offset (appendPos - offset)
    else readBytes rounds file offset length

/-! ### Syncing and closing -/

/-- `_file_sync` for `__wake_caller`. -/
def fileSync (file : FileRef) : Client Unit := do
  act .lock
  let appendPos ← act (.get .appendPos)
  let lengthXattr ← act (.get .lengthXattr)
  if appendPos ≤ lengthXattr then
    act .unlock
    act .semPost
  else
    let syncReq ← act (.alloc 0)
    if syncReq = false then
      act .unlock
      act .semPost
    else
      let flushReq ← act (.alloc 0)
      if flushReq = false then
        act .freeRequest
        act .unlock
        act .semPost
      else
        let appendPos ← act (.get .appendPos)
        act (.send (.syncRequest file appendPos))
        act .unlock
        act (.send (.fileFlush file))

def spdkFileSync (file : FileRef) : Client Int := do
  fileSync file
  act .semWait
  act .rc

def spdkFileClose (file : FileRef) : Client Int := do
  let req ← act (.alloc 0)
  if req = false then ret (-enomem)
  else
    let _ ← spdkFileSync file
    act (.send (.fileClose file))
    act .semWait
    act .rc

def spdkFileTruncate (file : FileRef) (length : UInt64) : Client Int :=
  sendAndWait (.truncate file length)

/-! ### The namespace -/

def spdkFsFileStat (name : CString) : Client Int := sendAndWait (.fileStat name)

def spdkFsCreateFile (name : CString) : Client Int := sendAndWait (.fsCreateFile name)

def spdkFsOpenFile (name : CString) (create : Bool) : Client Int :=
  sendAndWait (.fsOpenFile name create)

def spdkFsRenameFile (oldName newName : CString) : Client Int :=
  sendAndWait (.fsRenameFile oldName newName)

def spdkFsDeleteFile (name : CString) : Client Int := sendAndWait (.fsDeleteFile name)

end Nbfs.Calls
