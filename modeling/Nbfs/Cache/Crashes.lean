import Nbfs.Cache.Acknowledged
import Nbfs.Cache.ReadBytes

set_option autoImplicit false

/-!
# Crashes

When the process ends, what is only in buffers is gone, writes that are under way leave some of
their bytes, and of the metadata of a blob there is what was last made persistent.  `iter_cb` then
builds the file from the persistent xattr `"length"`.  What that length covers is read from the
file after any number of crashes and loads, and a sync that calls back with success has made it
cover what was written before.
-/

namespace Nbfs.Cache

open Nbfs.Lib
open Nbfs.Async (Blobstore Stage getPageParameters)

/-- `spdk_blob_close` is under way. -/
def Work.isCloseBlob : Work → Bool
  | closeBlob _ => true
  | _ => false

/-- `__file_sync`'s xattr is being stored. -/
def Work.isSyncXattr : Work → Bool
  | syncXattr _ => true
  | _ => false

namespace FileState

variable (s : FileState)

/-- `fs_open_blob_create_cb` and `fs_open_blob_done`, with the open of the blob. -/
def openFile : Except Fault FileState :=
  if s.isFree then .error .freedFile
  else if s.refCount + 1 = 1 then
    if s.blobOpen then .error .assertion
    else if s.pending.any Work.isCloseBlob then .error .noEvent
    else .ok { s with refCount := 1, blobOpen := true }
  else .ok { s with refCount := s.refCount + 1 }

/-- The file that `file_alloc` and `iter_cb` make of a blob. -/
def loaded (blob : Async.Blob) : FileState :=
  { s with
    file := {
      length := blob.xattrLength
      openForWriting := false
      lengthFlushed := blob.xattrLength
      lengthXattr := blob.xattrLength
      appendPos := blob.xattrLength
      seqByteCount := 0
      nextSeqOffset := 0
      lowPriority := true
      last := none
      cache := ⟨[], fun _ => none⟩
      syncRequests := [] }
    refCount := 0
    blobOpen := false
    isFree := false
    blob
    pending := []
    notes := [] }

/-- A write that is under way may leave `byte` at the position `p` of the blob. -/
def Writing (bs : Blobstore) (p : Nat) (byte : UInt8) : Prop := ∃ w ∈ s.pending,
  match w with
  | .flushWrite b offset length => ∃ next, s.file.cache.buffers b = some next ∧
      (getPageParameters bs offset length).1 * bs.ioUnitSize ≤ p ∧
      p < ((getPageParameters bs offset length).1 + (getPageParameters bs offset length).2) *
        bs.ioUnitSize ∧ byte = s.mem b (p - next.offset)
  | .rw _ (.write rw) => rw.startLba * bs.ioUnitSize ≤ p ∧
      p < (rw.startLba + rw.numLba) * bs.ioUnitSize ∧
      byte = rw.pinBuf (p - rw.startLba * bs.ioUnitSize)
  | _ => False

theorem openFile_ok {s s' : FileState} (h : s.openFile = .ok s') :
    ∃ refCount blobOpen, s' = { s with refCount, blobOpen } := by
  unfold openFile at h
  split at h
  · cases h
  split at h
  · split at h
    · cases h
    split at h
    · cases h
    · exact ⟨_, _, (Except.ok.inj h).symm⟩
  · exact ⟨_, _, (Except.ok.inj h).symm⟩

end FileState

/-- A file, with the metadata of its blob that is persistent. -/
structure StoredFile where
  file : FileState
  numClusters : Nat
  xattrLength : Nat

/-- What can happen to a file, from one load of the file system to the next. -/
inductive MountEvent where
  | step (e : FileEvent × Answer)
  /-- The blobstore makes the metadata of the blob persistent. -/
  | persist
  /-- An open that finds the file, whose blob is not being closed. -/
  | openFile
  /-- The process ends, in order or not, and the file system is loaded; `bytes` is what the blob
  then has. -/
  | load (bytes : Nat → UInt8)

namespace StoredFile

/-- What a sync was called to store is persistent when it succeeds. -/
def SyncsMd (x : StoredFile) (e : FileEvent × Answer) : Prop :=
  ∀ ref, .syncXattr ref ∈ x.file.completed e.1 → e.2.bserrno = 0 →
    ∀ r ∈ x.file.file.syncRequests, r.ref = ref → r.length ≤ x.xattrLength

/-- All of its metadata is persistent. -/
def ofFile (s : FileState) : StoredFile := ⟨s, s.blob.numClusters, s.blob.xattrLength⟩

end StoredFile

/-- The file makes the step, or is opened, made persistent or loaded. -/
inductive MountSteps (bs : Blobstore) (x : StoredFile) : MountEvent → StoredFile → Prop where
  | step {e : FileEvent × Answer} {s' : FileState} (hsyncs : x.SyncsMd e)
      (hstep : FileSteps bs x.file e s') : MountSteps bs x (.step e) { x with file := s' }
  | persist : MountSteps bs x .persist (.ofFile x.file)
  | openFile {s' : FileState} (hstep : x.file.openFile = .ok s') :
      MountSteps bs x .openFile { x with file := s' }
  | load {bytes : Nat → UInt8} (hbytes : ∀ p, bytes p = x.file.blob.bytes p ∨
      x.file.Writing bs p (bytes p)) : MountSteps bs x (.load bytes)
        { x with file := x.file.loaded ⟨x.numClusters, bytes, x.xattrLength⟩ }

/-- The steps within a mount meet a condition. -/
def InMount (ok : FileState → FileEvent × Answer → Prop) (x : StoredFile) : MountEvent → Prop
  | .step e => ok x.file e
  | _ => True

/-- There is no load. -/
def OneMount (ok : FileState → FileEvent × Answer → Prop) (x : StoredFile) : MountEvent → Prop
  | .step e => ok x.file e
  | .load _ => False
  | _ => True

/-- A run of the file in which no sync comes back. -/
theorem MountSteps.of_runs {bs : Blobstore} {ok : FileState → FileEvent × Answer → Prop}
    {ok' : StoredFile → MountEvent → Prop} {x : StoredFile} {s' : FileState}
    (hok : ∀ x e, ok x.file e → ok' x (.step e))
    (hrun : Runs (FileSteps bs)
      (fun s e => ok s e ∧ ∀ w ∈ s.completed e.1, w.isSyncXattr = false) x.file s') :
    Runs (MountSteps bs) ok' x { x with file := s' } := by
  generalize hs : x.file = s at hrun
  induction hrun with
  | refl =>
      subst hs
      exact .refl
  | @tail s₂ s₃ e _ hkeeps hstep ih =>
      refine .tail ih (hok { x with file := s₂ } e hkeeps.1) (.step (fun ref hmem => ?_) hstep)
      cases hkeeps.2 _ hmem

/-! ### Crashes -/

/-- Where the file is flushed, a write that is under way leaves what is there. -/
theorem Whole.writing_eq {bs : Blobstore} {s : FileState} (h : Whole bs s)
    (hunit : bs.ioUnitSize ∣ cacheBufferSize) {p : Nat} {byte : UInt8}
    (hp : p < s.file.lengthFlushed) (hwriting : s.Writing bs p byte) :
    byte = s.blob.bytes p := by
  obtain ⟨w, hw, hbyte⟩ := hwriting
  have hsuits := h.backed.works w hw
  cases w with
  | flushWrite b offset length =>
      obtain ⟨next, hnext, hfirst, -, rfl⟩ := hbyte
      obtain ⟨hoffset, hpos, hfits⟩ := h.heap.fits _ hw b rfl next hnext
      have hsits := h.heap.sits b next hnext
      have hfilled := hsits.filled
      have hends := (h.backed.buffers b next hnext).ends (by omega)
      have hlt := h.cursors.appendPos_lt
      have hstarts : offset = s.file.lengthFlushed := hsuits
      have hstart := (units_inside hunit hsits.aligned (show next.offset ≤ offset by omega) hpos
        (by omega) (by omega)).1
      have honBlob := (h.backed.buffers b next hnext).onBlob (p - next.offset) (by omega)
      rw [Nat.add_sub_cancel' (hstart.trans hfirst)] at honBlob
      exact honBlob.symm
  | rw id stage =>
      obtain ⟨rw, rfl, -⟩ := hsuits
      exact hbyte.elim
  | _ => exact hbyte.elim

/-- What is kept of a file and of its persistent metadata. -/
structure MountKept (bs : Blobstore) (x : StoredFile) : Prop where
  served : Served bs x.file
  stored : x.xattrLength ≤ x.file.blob.xattrLength
  inBlob : x.xattrLength ≤ x.numClusters * bs.clusterSz

/-- What is stored of the file stays stored, and is read from it. -/
structure StoredKept (x x' : StoredFile) : Prop where
  stored : x.xattrLength ≤ x'.xattrLength
  size : x'.xattrLength ≤ x'.file.file.appendPos
  view : ∀ p < x.xattrLength, x'.file.view p = x.file.view p
  onBlob : ∀ p < x.xattrLength, x'.file.blob.bytes p = x.file.view p

theorem StoredKept.trans {x x' x'' : StoredFile} (h : StoredKept x x') (h' : StoredKept x' x'') :
    StoredKept x x'' where
  stored := h.stored.trans h'.stored
  size := h'.size
  view := fun p hp => (h'.view p (hp.trans_le h.stored)).trans (h.view p hp)
  onBlob := fun p hp => (h'.onBlob p (hp.trans_le h.stored)).trans (h.view p hp)

/-- Who has the file open does not matter to its bytes. -/
theorem Served.opened {bs : Blobstore} {s : FileState} (h : Served bs s) (refCount : Nat)
    (blobOpen : Bool) : Served bs { s with refCount, blobOpen } where
  whole := {
    heap := h.whole.heap.fields rfl rfl rfl rfl rfl
    tail := { h.whole.tail with }
    backed := h.whole.backed.fields rfl rfl rfl rfl rfl rfl rfl
    cursors := h.whole.cursors.fields rfl rfl rfl rfl
    covered := { h.whole.covered with } }
  aheads := h.aheads.fields rfl rfl rfl rfl
  reached := { h.reached with }

namespace MountKept

variable {bs : Blobstore} {x x' : StoredFile}

theorem flushed (h : MountKept bs x) : x.xattrLength ≤ x.file.file.lengthFlushed :=
  h.stored.trans h.served.whole.backed.xattr

theorem appended (h : MountKept bs x) : x.xattrLength ≤ x.file.file.appendPos :=
  h.flushed.trans h.served.whole.backed.flushed

theorem onBlob (h : MountKept bs x) {p : Nat} (hp : p < x.xattrLength) :
    x.file.blob.bytes p = x.file.view p :=
  h.served.whole.backed.onBlob h.served.whole.heap (hp.trans_le h.flushed)

theorem refl (h : MountKept bs x) : StoredKept x x :=
  ⟨Nat.le_refl _, h.appended, fun _ _ => rfl, fun _ => h.onBlob⟩

theorem ofFile {s : FileState} (h : Served bs s) : MountKept bs (.ofFile s) where
  served := h
  stored := Nat.le_refl _
  inBlob := h.whole.backed.xattr.trans h.whole.backed.inBlob

theorem step (h : MountKept bs x) (hunit : bs.ioUnitSize ∣ cacheBufferSize) {e : FileEvent × Answer}
    {s' : FileState} (hkeeps : KeepsBytes x.file e) (hstep : FileSteps bs x.file e s') :
    MountKept bs { x with file := s' } ∧ StoredKept x { x with file := s' } := by
  obtain ⟨hserved, hsame, hforward⟩ := h.served.step hunit hkeeps hstep
  have hkept : MountKept bs { x with file := s' } := ⟨hserved, h.stored.trans hforward.stored, h.inBlob⟩
  have hview : ∀ p < x.xattrLength, s'.view p = x.file.view p := fun p hp =>
    hsame.view p (hp.trans_le h.appended)
  exact ⟨hkept, Nat.le_refl _, hkept.appended, hview, fun p hp =>
    (hkept.onBlob hp).trans (hview p hp)⟩

/-- After a crash the file is as `Initial` has it, once it is opened. -/
theorem loaded (h : MountKept bs x) (hunit : bs.ioUnitSize ∣ cacheBufferSize) {bytes : Nat → UInt8}
    (hbytes : ∀ p, bytes p = x.file.blob.bytes p ∨ x.file.Writing bs p (bytes p)) :
    MountKept bs { x with file := x.file.loaded ⟨x.numClusters, bytes, x.xattrLength⟩ } ∧
      StoredKept x { x with file := x.file.loaded ⟨x.numClusters, bytes, x.xattrLength⟩ } := by
  have hinitial : FileState.Initial bs
      { x.file.loaded ⟨x.numClusters, bytes, x.xattrLength⟩ with blobOpen := true } := {
    blobOpen := rfl
    isFree := rfl
    length_lt := h.appended.trans_lt h.served.whole.cursors.appendPos_lt
    inBlob := h.inBlob.trans (Nat.le_of_eq (Nat.mul_comm _ _))
    xattrLength := rfl
    lengthFlushed := rfl
    lengthXattr := rfl
    appendPos := rfl
    last := rfl
    cache := rfl
    syncRequests := rfl
    pending := rfl
    notes := rfl }
  have hfound : ∀ p < x.xattrLength, bytes p = x.file.view p := by
    intro p hp
    rw [← h.onBlob hp]
    exact (hbytes p).elim id (h.served.whole.writing_eq hunit (hp.trans_le h.flushed))
  exact ⟨⟨(Served.initial hinitial).opened _ false, Nat.le_refl _, h.inBlob⟩, Nat.le_refl _,
    Nat.le_refl _, hfound, hfound⟩

theorem mountStep (h : MountKept bs x) (hunit : bs.ioUnitSize ∣ cacheBufferSize) {e : MountEvent}
    (hkeeps : InMount KeepsBytes x e) (hstep : MountSteps bs x e x') :
    MountKept bs x' ∧ StoredKept x x' := by
  have hkept := h.refl
  cases hstep with
  | step _ hstep => exact h.step hunit hkeeps hstep
  | persist =>
      exact ⟨ofFile h.served, h.stored, (ofFile h.served).appended, fun _ _ => rfl, fun _ => h.onBlob⟩
  | openFile hstep =>
      obtain ⟨refCount, blobOpen, rfl⟩ := FileState.openFile_ok hstep
      exact ⟨⟨h.served.opened _ _, h.stored, h.inBlob⟩, { hkept with }⟩
  | load hbytes => exact h.loaded hunit hbytes

end MountKept

/-- A write begins in `x`, and came back with success before `x'`, in the same mount. -/
inductive WriteReplied (bs : Blobstore) (x : StoredFile) (offset : Nat) (payload : List UInt8)
    (x' : StoredFile) : Prop where
  | replied {y : StoredFile} {a : Answer} (hkeeps : KeepsWrites x.file (.write offset payload, a))
      (hwrite : MountSteps bs x (.step (.write offset payload, a)) y)
      (hrun : Runs (MountSteps bs) (OneMount KeepsWrites) y x')
      (hreply : .replied x.file.brk 0 ∈ x'.file.notes)

theorem InMount.imp {ok ok' : FileState → FileEvent × Answer → Prop} {x : StoredFile}
    {e : MountEvent} (h : ∀ e, ok x.file e → ok' x.file e) (hok : InMount ok x e) :
    InMount ok' x e := by
  cases e with
  | step e => exact h e hok
  | _ => trivial

namespace Fresh

variable {bs : Blobstore} {x x' : StoredFile}

theorem opened {s : FileState} (h : Fresh s) (refCount : Nat) (blobOpen : Bool) :
    Fresh { s with refCount, blobOpen } := { h with }

/-- Nothing is under way in a file that is loaded. -/
theorem loaded (s : FileState) (blob : Async.Blob) : Fresh (s.loaded blob) where
  writes := by simp [FileState.writes, FileState.loaded]
  minds := by simp [FileState.Minds, FileState.loaded]
  replies := by simp [FileState.loaded]

theorem mountStep (h : Fresh x.file) (hwhole : Whole bs x.file) {e : MountEvent}
    (hkeeps : InMount KeepsWrites x e) (hstep : MountSteps bs x e x') : Fresh x'.file := by
  cases hstep with
  | step _ hstep => exact h.turns (hwhole.turns hkeeps hstep)
  | persist => exact h
  | openFile hstep =>
      obtain ⟨refCount, blobOpen, rfl⟩ := FileState.openFile_ok hstep
      exact h.opened _ _
  | load => exact .loaded _ _

end Fresh

/-- A write does not mind who has the file open. -/
theorem Stands.opened {id offset : Nat} {payload : List UInt8} {s : FileState}
    (h : Stands id offset payload s) (refCount : Nat) (blobOpen : Bool) :
    Stands id offset payload { s with refCount, blobOpen } := by
  cases h with
  | underWay done hwrites hdone hplace hreads hminds hreply =>
      exact .underWay done hwrites hdone hplace hreads hminds hreply
  | whole hreads => exact .whole hreads
  | failed hwrites hminds hreply => exact .failed hwrites hminds hreply

namespace MountKept

variable {bs : Blobstore} {x x' : StoredFile}

/-- A write goes on within its mount. -/
theorem oneMount (h : MountKept bs x) (hunit : bs.ioUnitSize ∣ cacheBufferSize) {id offset : Nat}
    {payload : List UInt8} (hstands : Stands id offset payload x.file) (hlt : id < x.file.brk)
    {e : MountEvent} (hkeeps : OneMount KeepsWrites x e) (hstep : MountSteps bs x e x') :
    MountKept bs x' ∧ Stands id offset payload x'.file ∧ id < x'.file.brk := by
  have hok : InMount KeepsBytes x e := by
    cases e with
    | step e => exact hkeeps.1
    | _ => trivial
  obtain ⟨hnext, -⟩ := h.mountStep hunit hok hstep
  refine ⟨hnext, ?_⟩
  cases hstep with
  | step _ hstep =>
      have hturns := h.served.whole.turns hkeeps hstep
      obtain ⟨-, hsame⟩ := h.served.whole.step hunit hkeeps.1 hstep
      exact ⟨hstands.turns hlt hturns hsame, hlt.trans_le hturns.brk⟩
  | persist => exact ⟨hstands, hlt⟩
  | openFile hstep =>
      obtain ⟨refCount, blobOpen, rfl⟩ := FileState.openFile_ok hstep
      exact ⟨hstands.opened _ _, hlt⟩
  | load => exact hkeeps.elim

/-- The payload of a write that came back is in the file. -/
theorem reads (h : MountKept bs x) (hunit : bs.ioUnitSize ∣ cacheBufferSize) (hfresh : Fresh x.file)
    {offset : Nat} {payload : List UInt8} (hwritten : WriteReplied bs x offset payload x') :
    MountKept bs x' ∧ x'.file.Reads offset payload := by
  obtain ⟨hkeeps, hwrite, hrun, hreply⟩ := hwritten
  obtain ⟨hbegun, -⟩ := h.mountStep (e := .step _) hunit hkeeps.1 hwrite
  cases hwrite with
  | step _ hwrite =>
      obtain ⟨hstands, hlt⟩ := Stands.begins hfresh hkeeps hwrite
      have hkept : MountKept bs x' ∧ Stands x.file.brk offset payload x'.file ∧
          x.file.brk < x'.file.brk :=
        Runs.keeps (P := fun y => MountKept bs y ∧ Stands x.file.brk offset payload y.file ∧
          x.file.brk < y.file.brk) hrun ⟨hbegun, hstands, hlt⟩ fun h hk hstep =>
            h.1.oneMount hunit h.2.1 h.2.2 hk hstep
      exact ⟨hkept.1, hkept.2.1.reads hreply⟩

end MountKept

end Nbfs.Cache
