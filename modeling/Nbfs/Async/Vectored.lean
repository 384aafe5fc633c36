import Mathlib.Data.List.GetD
import Nbfs.Async.LostUpdate

set_option autoImplicit false

/-!
# Vectored reads and writes (`lib/NBFS/NBFS.c`)

`spdk_file_readv_async` and `spdk_file_writev_async` take the bytes of a request from
several iovs, one after the other.  A call runs with no other request in between: each
operation takes effect and calls back, and the function that it calls goes on.
-/

namespace Nbfs.Async

open Nbfs.Lib

/-- A call; `iovs` is what the caller's buffers hold. -/
structure VecCall where
  isRead : Bool
  offset : Nat
  length : Nat
  iovs : List (List UInt8)

/-- How the operations of a call end; that of `spdk_blob_sync_md` has no contents. -/
structure Outcomes where
  resize : Answer
  syncMd : Int
  read : Answer
  write : Answer

/-- A call that called back: the file then, and the caller's buffers. -/
structure Completion where
  file : File
  rc : Int
  iovs : List (List UInt8)

/-- `_copy_iovs_to_buf`, at `start` in the buffer. -/
def copyVecToBuf : List (List UInt8) → (Nat → UInt8) → Nat → Nat → Nat → UInt8
  | [], buf, _, _ => buf
  | iov :: iovs, buf, start, bufLen =>
      let len := min iov.length bufLen
      copyVecToBuf iovs (copyIovsToBuf buf start bufLen iov) (start + len) (bufLen - len)

/-- `_copy_buf_to_iovs`, from `start` in the buffer. -/
def copyBufToVec (buf : Nat → UInt8) : List (List UInt8) → Nat → Nat → List (List UInt8)
  | [], _, _ => []
  | iov :: iovs, start, bufLen =>
      let len := min iov.length bufLen
      copyBufToIovs iov buf start bufLen :: copyBufToVec buf iovs (start + len) (bufLen - len)

namespace VecCall

variable (bs : Blobstore) (c : VecCall)

/-- `offset + length`. -/
def last : Nat := (c.offset + c.length) % 2 ^ 64

/-- `start_lba`. -/
def startLba : Nat := (getPageParameters bs c.offset c.length).1

/-- `num_lba`. -/
def numLba : Nat := (getPageParameters bs c.offset c.length).2

/-- `pin_buf_length`. -/
def pinBufLength : Nat := c.numLba bs * bs.ioUnitSize % 2 ^ 64

/-- The io units of the call get what the buffer has. -/
def put (f : File) (buf : Nat → UInt8) : File :=
  { f with blob := f.blob.ioWrite bs buf (c.startLba bs) (c.numLba bs) }

/-- `spdk_blob_io_write`, then `__rw_done`. -/
def ioWrite (f : File) (pinBuf : Nat → UInt8) (o : Outcomes) : Option Completion :=
  if o.write.bserrno ≠ 0 then some ⟨c.put bs f o.write.contents, o.write.bserrno, c.iovs⟩
  else if f.blob.HasUnits bs (c.startLba bs) (c.numLba bs) then some ⟨c.put bs f pinBuf, 0, c.iovs⟩
  else none

/-- `__read_done`, which does not look at its `bserrno`. -/
def readDone (f : File) (pinBuf : Nat → UInt8) (o : Outcomes) : Option Completion :=
  let start := c.offset &&& (bs.ioUnitSize - 1)
  if c.isRead then some ⟨f, 0, copyBufToVec pinBuf c.iovs start (c.pinBufLength bs)⟩
  else c.ioWrite bs f (copyVecToBuf c.iovs pinBuf start (c.pinBufLength bs)) o

/-- `__do_blob_read`, with `spdk_blob_io_read`. -/
def doBlobRead (f : File) (pinBuf : Nat → UInt8) (fserrno : Int) (o : Outcomes) :
    Option Completion :=
  if fserrno ≠ 0 then some ⟨f, fserrno, c.iovs⟩
  else if o.read.bserrno ≠ 0 then c.readDone bs f o.read.contents o
  else if f.blob.HasUnits bs (c.startLba bs) (c.numLba bs) then
    c.readDone bs f (f.blob.ioRead bs pinBuf (c.startLba bs) (c.numLba bs)) o
  else none

/-- `fs_truncate_resize_cb` after a resize that succeeded. -/
def truncated (f : File) (contents : Nat → UInt8) : File where
  length := c.last
  appendPos := if c.last < f.appendPos then c.last else f.appendPos
  blob := { f.blob.resize bs (bytesToClusters c.last bs.clusterSz) contents with
    xattrLength := c.last }

/-- `spdk_file_truncate_async` to the end of the call. -/
def truncate (f : File) (mem : Memory) (pinBuf : Nat → UInt8) (o : Outcomes) : Option Completion :=
  if c.last = f.length then c.doBlobRead bs f pinBuf 0 o
  else if mem.truncate = false then c.doBlobRead bs f pinBuf (-ENOMEM) o
  else if o.resize.bserrno ≠ 0 then c.doBlobRead bs f pinBuf o.resize.bserrno o
  else c.doBlobRead bs (c.truncated bs f o.resize.contents) pinBuf o.syncMd o

/-- `__readvwritev`. -/
def readvwritev (f : File) (mem : Memory) (o : Outcomes) : Option Completion :=
  if c.isRead ∧ f.length < c.last then some ⟨f, -EINVAL, c.iovs⟩
  else if mem.request = false then some ⟨f, -ENOMEM, c.iovs⟩
  else
    match mem.malloc (c.pinBufLength bs) with
    | none => some ⟨f, -ENOMEM, c.iovs⟩
    | some pinBuf =>
        if !c.isRead ∧ f.length < c.last then c.truncate bs f mem pinBuf o
        else if !c.isRead ∧ isLbaAligned bs c.offset c.length then
          c.ioWrite bs f (copyVecToBuf c.iovs pinBuf 0 (c.pinBufLength bs)) o
        else c.doBlobRead bs f pinBuf 0 o

/-! ### One iov -/

/-- The call with its bytes in one iov. -/
def flat : Call := ⟨c.isRead, c.offset, c.iovs.flatten⟩

end VecCall

section copy

variable {bufLen start : Nat} {buf : Nat → UInt8}

/-- The iovs are copied as if they were one. -/
theorem copyVecToBuf_flatten : ∀ (iovs : List (List UInt8)) (buf : Nat → UInt8)
    (start bufLen : Nat),
    copyVecToBuf iovs buf start bufLen = copyIovsToBuf buf start bufLen iovs.flatten
  | [], buf, start, bufLen => by
      funext p
      exact (splice_outside (by simp)).symm
  | iov :: iovs, buf, start, bufLen => by
      have hlen : min iov.length bufLen + min iovs.flatten.length (bufLen - min iov.length bufLen) =
          min (iov.length + iovs.flatten.length) bufLen := by omega
      rw [copyVecToBuf, copyVecToBuf_flatten iovs, copyIovsToBuf, copyIovsToBuf, splice_splice,
        hlen,
        copyIovsToBuf, List.flatten_cons, List.length_append]
      refine splice_congr fun k hk => ?_
      split
      · exact (List.getD_append _ _ _ _ (by omega)).symm
      · rw [List.getD_append_right _ _ _ _ (by omega)]
        congr 1
        omega

theorem copyBufToVec_flatten : ∀ (iovs : List (List UInt8)) (start bufLen : Nat),
    (copyBufToVec buf iovs start bufLen).flatten = copyBufToIovs iovs.flatten buf start bufLen
  | [], _, _ => rfl
  | iov :: iovs, start, bufLen => by
      rw [copyBufToVec, List.flatten_cons, copyBufToVec_flatten iovs, List.flatten_cons,
        copyBufToIovs,
        copyBufToIovs, copyBufToIovs, List.mapIdx_append]
      congr 2
      funext k byte
      have hroom : k < bufLen - min iov.length bufLen ↔ k + iov.length < bufLen := by omega
      by_cases hk : k + iov.length < bufLen
      · rw [if_pos (hroom.mpr hk), if_pos hk]
        congr 1
        omega
      · rw [if_neg (mt hroom.mp hk), if_neg hk]

/-- No iov changes its length. -/
theorem copyBufToVec_lengths : ∀ (iovs : List (List UInt8)) (start bufLen : Nat),
    (copyBufToVec buf iovs start bufLen).map List.length = iovs.map List.length
  | [], _, _ => rfl
  | iov :: iovs, start, bufLen => by
      rw [copyBufToVec, List.map_cons, copyBufToVec_lengths iovs, List.map_cons]
      simp [copyBufToIovs]

end copy

namespace VecCall

variable {bs : Blobstore} {c : VecCall} {f : File} {mem : Memory} {o : Outcomes} {d : Completion}
  {pinBuf : Nat → UInt8}

/-- The request of the one iov comes from one stage to its end, as the call did. -/
def Follows (bs : Blobstore) (c : VecCall) (f : File) (stage : Stage) (d : Completion) : Prop :=
  Runs (Steps bs fun _ : Unit => c.flat) (fun _ _ => True) ⟨f, fun _ => stage⟩
    ⟨d.file, fun _ => .done d.rc d.iovs.flatten⟩

theorem Follows.step {stage : Stage} (f' : File) (stage' : Stage) {e : Event Unit}
    (hstep : Steps bs (fun _ => c.flat) ⟨f, fun _ => stage⟩ e ⟨f', fun _ => stage'⟩)
    (h : Follows bs c f' stage' d) : Follows bs c f stage d :=
  (Runs.one trivial hstep).trans h

theorem follows_done : Follows bs c d.file (.done d.rc d.iovs.flatten) d := .refl

/-- A step that gives the next stage. -/
theorem steps_next {stage stage' : Stage} {f' : File} {e : Event Unit}
    (h : Async.step bs (fun _ => c.flat) ⟨f, fun _ => stage⟩ e =
      some ⟨f', Function.update (fun _ => stage) () stage'⟩) :
    Steps bs (fun _ => c.flat) ⟨f, fun _ => stage⟩ e ⟨f', fun _ => stage'⟩ := by
  have hupdate : Function.update (fun _ : Unit => stage) () stage' = fun _ => stage' :=
    funext fun _ => rfl
  exact h.trans (congrArg (fun stages => some (⟨f', stages⟩ : State Unit)) hupdate)

/-- What the requests are filled with. -/
theorem flat_rw (hsum : c.iovs.flatten.length = c.length) (pinBuf : Nat → UInt8) :
    rwOf bs c.flat pinBuf = ⟨c.isRead, c.offset, bs.ioUnitSize, c.pinBufLength bs, c.startLba bs,
      c.numLba bs, pinBuf, c.iovs.flatten⟩ := by
  simp only [rwOf, rwLength, flat, hsum, pinBufLength, startLba, numLba]

theorem ioWrite_follows (hrun : c.ioWrite bs f pinBuf o = some d) :
    Follows bs c f (.write ⟨c.isRead, c.offset, bs.ioUnitSize, c.pinBufLength bs, c.startLba bs,
      c.numLba bs, pinBuf, c.iovs.flatten⟩) d := by
  unfold ioWrite at hrun
  split at hrun
  · rename_i hfailed
    obtain rfl := Option.some.inj hrun
    exact .step (c.put bs f o.write.contents) (.done o.write.bserrno c.iovs.flatten)
      (steps_next (e := .complete () o.write) (if_pos hfailed)) .refl
  · rename_i hzero
    split at hrun
    · obtain rfl := Option.some.inj hrun
      exact .step (c.put bs f pinBuf) (.done 0 c.iovs.flatten)
        (steps_next (e := .complete () o.write) ((if_neg hzero).trans (if_pos ‹_›))) .refl
    · cases hrun

theorem readDone_follows (hrun : c.readDone bs f pinBuf o = some d) :
    Follows bs c f (Async.readDone ⟨c.isRead, c.offset, bs.ioUnitSize, c.pinBufLength bs,
      c.startLba bs, c.numLba bs, pinBuf, c.iovs.flatten⟩) d := by
  unfold readDone at hrun
  unfold Async.readDone
  dsimp only at hrun ⊢
  split at hrun
  · rename_i hread
    obtain rfl := Option.some.inj hrun
    rw [if_pos hread, ← copyBufToVec_flatten]
    exact follows_done (d := ⟨f, 0, _⟩)
  · rename_i hwrite
    rw [if_neg hwrite, ← copyVecToBuf_flatten]
    exact ioWrite_follows hrun

theorem doBlobRead_follows {fserrno : Int} (hrun : c.doBlobRead bs f pinBuf fserrno o = some d) :
    Follows bs c f (Async.doBlobRead ⟨c.isRead, c.offset, bs.ioUnitSize, c.pinBufLength bs,
      c.startLba bs, c.numLba bs, pinBuf, c.iovs.flatten⟩ fserrno) d := by
  unfold doBlobRead at hrun
  unfold Async.doBlobRead
  split at hrun
  · rename_i hfailed
    obtain rfl := Option.some.inj hrun
    rw [if_pos hfailed]
    exact follows_done (d := ⟨f, fserrno, c.iovs⟩)
  rename_i hok
  rw [if_neg hok]
  split at hrun
  · rename_i hfailed
    exact .step _ _ (steps_next (e := .complete () o.read) (if_pos hfailed)) (readDone_follows hrun)
  rename_i hzero
  split at hrun
  · exact .step _ _ (steps_next (e := .complete () o.read) ((if_neg hzero).trans (if_pos ‹_›)))
      (readDone_follows hrun)
  · cases hrun

theorem truncate_follows (hrun : c.truncate bs f mem pinBuf o = some d) :
    Follows bs c f (fileTruncateAsync f c.last mem ⟨c.isRead, c.offset, bs.ioUnitSize,
      c.pinBufLength bs, c.startLba bs, c.numLba bs, pinBuf, c.iovs.flatten⟩) d := by
  unfold truncate at hrun
  unfold fileTruncateAsync
  split at hrun
  · rw [if_pos ‹_›]
    exact doBlobRead_follows hrun
  rw [if_neg ‹_›]
  split at hrun
  · rw [if_pos ‹_›]
    exact doBlobRead_follows hrun
  rw [if_neg ‹_›]
  split at hrun
  · rename_i hfailed
    refine .step _ _ (steps_next (e := .complete () o.resize) ?_) (doBlobRead_follows hrun)
    simp only [Async.step, if_neg hfailed, fsTruncateResizeCb, if_pos hfailed]
  · rename_i hzero
    refine .step (c.truncated bs f o.resize.contents) (.syncMd ⟨c.isRead, c.offset,
      bs.ioUnitSize, c.pinBufLength bs, c.startLba bs, c.numLba bs, pinBuf, c.iovs.flatten⟩)
      (steps_next (e := .complete () o.resize) ?_)
      (.step _ _ (steps_next (e := .complete () ⟨o.syncMd, o.resize.contents⟩) rfl)
        (doBlobRead_follows hrun))
    simp only [Async.step, if_pos (not_not.mp hzero), fsTruncateResizeCb, if_neg hzero]
    rfl

/-- A vectored call does to the file what the call of its one iov does, calls back with the same,
and leaves the same bytes in its iovs. -/
theorem readvwritev_follows (hsum : c.iovs.flatten.length = c.length)
    (hrun : c.readvwritev bs f mem o = some d) : Follows bs c f .idle d := by
  suffices h : Follows bs c f (Async.readvwritev bs f c.flat mem) d from
    .step _ _ (steps_next (e := .submit () mem) rfl) h
  have hlength : rwLength bs c.flat = c.pinBufLength bs := by
    simp only [rwLength, flat, hsum, pinBufLength, numLba]
  have hlast : c.flat.last = c.last := by simp only [Call.last, flat, hsum, last]
  unfold readvwritev at hrun
  unfold Async.readvwritev
  rw [hlength, hlast]
  simp only [show c.flat.isRead = c.isRead from rfl, show c.flat.offset = c.offset from rfl,
    show c.flat.iov = c.iovs.flatten from rfl, hsum, flat_rw hsum]
  split at hrun
  · obtain rfl := Option.some.inj hrun
    rw [if_pos ‹_›]
    exact follows_done (d := ⟨f, -EINVAL, c.iovs⟩)
  rw [if_neg ‹_›]
  split at hrun
  · obtain rfl := Option.some.inj hrun
    rw [if_pos ‹_›]
    exact follows_done (d := ⟨f, -ENOMEM, c.iovs⟩)
  rw [if_neg ‹_›]
  cases hmalloc : mem.malloc (c.pinBufLength bs) with
  | none =>
      simp only [hmalloc] at hrun ⊢
      obtain rfl := Option.some.inj hrun
      exact follows_done (d := ⟨f, -ENOMEM, c.iovs⟩)
  | some pinBuf =>
      simp only [hmalloc] at hrun ⊢
      split at hrun
      · rw [if_pos ‹_›]
        exact truncate_follows hrun
      rw [if_neg ‹_›]
      split at hrun
      · rw [if_pos ‹_›]
        rw [copyVecToBuf_flatten] at hrun
        exact ioWrite_follows hrun
      · rw [if_neg ‹_›]
        exact doBlobRead_follows hrun

/-- Three bytes are written from two iovs. -/
theorem readvwritev_follows_two : ∃ d : Completion, d.rc = 0 ∧ d.iovs = [[1, 2], [3]] ∧
    Follows smallBs ⟨false, 3, 3, [[1, 2], [3]]⟩ smallFile.file .idle d := by
  have hrun : (⟨false, 3, 3, [[1, 2], [3]]⟩ : VecCall).readvwritev smallBs smallFile.file plenty
      ⟨success, 0, success, success⟩ = some _ := rfl
  exact ⟨_, rfl, rfl, readvwritev_follows rfl hrun⟩

end VecCall

end Nbfs.Async
