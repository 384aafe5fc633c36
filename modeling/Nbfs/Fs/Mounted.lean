import Nbfs.Fs.Load
import Nbfs.Fs.Metadata
import Nbfs.Fs.Store

set_option autoImplicit false

/-!
# A filesystem, its blobs and the next load

A mounted filesystem works on blobs whose xattrs the next `spdk_fs_load` reads.  An open, a
close, a deletion and what `spdk_blob_set_xattr` sets come to the metadata of the blobs; a
write comes to it by the xattr `"length"` and by syncs.
-/

namespace Nbfs.Fs

open Nbfs.Lib Conv

structure Mounted where
  fs : Filesystem
  md : Metadata
  /-- The files that were loaded, or whose creation got as far as their xattrs: it completes
  with 0 only after that. -/
  created : List FileRef
  /-- The files that a deletion found, or a rename to their name. -/
  deleted : List FileRef

/-- A call or a completion, with whether its `spdk_blob_set_xattr` succeed, or what the
writing of an open file does to the metadata. -/
inductive Operation where
  | request (request : Request) (set : Bool)
  | setLength (file : FileRef) (length : UInt64)
  | syncMd (file : FileRef)

/-- The answer to `spdk_bs_open_blob`: only a blob that exists is opened. -/
def Metadata.opens (md : Metadata) (blobid : Option BlobId) (answer : Answer) : Bool :=
  if answer.bserrno = 0 then
    blobid.any fun id => (md.xattrs id).isSome &&
      answer.blob.any fun blob => md.handle blob = none || md.handle blob = some id
  else answer.blob.isNone

namespace BsOp

/-- What the blobstore may answer. -/
def answered (md : Metadata) (answer : Answer) : BsOp → Bool
  | createBlob .. => answer.bserrno ≠ 0 || (md.xattrs answer.blobid).isNone
  | createOpen _ id _ => md.opens (some id) answer
  | openBlob _ blobid | renameOpen blobid _ _ => md.opens blobid answer
  | createClose blob _ _ => answer.bserrno ≠ 0 || blob.any fun blob => (md.openOf blob).isSome
  | closeBlob _ blob _ | renameClose blob _ | syncDeleted blob _ =>
      answer.bserrno ≠ 0 || (md.openOf blob).isSome
  | deleteBlob blobid _ =>
      answer.bserrno ≠ 0 || blobid.any fun id => (md.disk id).isSome && md.refs id = 0
  | createResize .. | closeSync .. => true

/-- What the blobstore has done when it answers. -/
def completed (md : Metadata) (answer : Answer) (op : BsOp) : Metadata :=
  if answer.bserrno ≠ 0 then md
  else
    match op with
    | createBlob .. => md.createBlob answer.blobid
    | createOpen _ id _ | openBlob _ (some id) | renameOpen (some id) _ _ =>
        (answer.blob.map (md.openBlob id)).getD md
    | createClose (some blob) _ _ | closeBlob _ blob _ | renameClose blob _ => md.closeBlob blob
    | syncDeleted blob _ => md.syncMd blob
    | deleteBlob (some id) _ => md.deleteBlob id
    | _ => md

/-- The xattrs that the callback sets. -/
def sets (s : Filesystem) (md : Metadata) (answer : Answer) (set : Bool) (op : BsOp) :
    Except Fault Metadata :=
  if set = false then .ok md
  else
    match op with
    | createResize r (some blob) _ =>
        if answer.bserrno ≠ 0 then .ok md
        else do
          let f ← s.file r
          md.setXattr blob fun x => { x with name := f.name, length := some (0, 8) }
    | renameOpen _ newName _ =>
        match answer.blob with
        | some blob => md.setXattr blob fun x => { x with name := some newName }
        | none => .ok md
    | _ => .ok md

/-- The xattr that a deletion sets before it syncs the blob of an open file. -/
def marks (set : Bool) (md : Metadata) : BsOp → Except Fault Metadata
  | syncDeleted blob _ =>
      if set then md.setXattr blob fun x => { x with isDeleted := true } else .ok md
  | _ => .ok md

/-- The file that gets its xattrs. -/
def creates (answer : Answer) : BsOp → List FileRef
  | createResize r _ _ => if answer.bserrno = 0 then [r] else []
  | _ => []

end BsOp

/-- What a call does before it returns. -/
def Request.run (s : Filesystem) : Request → Except Fault Filesystem
  | .event e => Fs.step s e
  | .rename oldName newName cb mem deleteMem =>
      s.spdkFsRenameFileAsync oldName newName cb mem deleteMem

/-- The file that a deletion finds, or a rename to its name. -/
def Request.deletes (s : Filesystem) : Request → List FileRef
  | .event (.delete name _ mem) =>
      if spdkFileNameMax < name.strlen || !mem.request then [] else (s.names name).toList
  | .rename _ newName _ mem deleteMem =>
      if spdkFileNameMax < newName.strlen || !mem.request || !deleteMem.request then []
      else (s.names newName).toList
  | _ => []

namespace Mounted

variable (m : Mounted)

/-- The completion of what waits at index `i`. -/
def complete (i : Nat) (answer : Answer) (mem : Memory) (set : Bool) : Except Fault Mounted :=
  match m.fs.pending[i]? with
  | none => .error .noEvent
  | some op =>
      if op.answered m.md answer = false then .error .noEvent
      else do
        let fs := { m.fs with pending := m.fs.pending.eraseIdx i }
        let md ← op.sets fs (op.completed m.md answer) answer set
        let fs' ← op.resume fs answer mem
        let md ← (fs'.pending.drop fs.pending.length).foldlM (BsOp.marks set) md
        return { m with fs := fs', md, created := op.creates answer ++ m.created }

/-- A call of a client. -/
def call (request : Request) (set : Bool) : Except Fault Mounted := do
  let fs ← request.run m.fs
  let md ← (fs.pending.drop m.fs.pending.length).foldlM (BsOp.marks set) m.md
  return { m with fs, md, deleted := request.deletes m.fs ++ m.deleted }

/-- The blob of a file that is open. -/
def blobOf (r : FileRef) : Except Fault BlobRef := do
  let f ← m.fs.file r
  match f.blob with
  | none => .error .nullBlob
  | some blob => .ok blob

def step : Operation → Except Fault Mounted
  | .request (.event (.complete i answer mem)) set => m.complete i answer mem set
  | .request request set => m.call request set
  | .setLength r length => do
      let blob ← m.blobOf r
      let md ← m.md.setXattr blob fun x => { x with length := some (length, 8) }
      return { m with md }
  | .syncMd r => do
      let blob ← m.blobOf r
      return { m with md := m.md.syncMd blob }

end Mounted

def MountedSteps (m : Mounted) (o : Operation) (m' : Mounted) : Prop := m.step o = .ok m'

/-! ### Before and after -/

/-- A filesystem as it was loaded: each file has its blob, each blob its file, and nothing is
open. -/
structure Ready (m : Mounted) : Prop where
  fs : Initial m.fs
  refs : ∀ id, m.md.refs id = 0
  files : ∀ r f, m.fs.files r = some f → ∃ n id length, f.name = some n ∧ f.blobid = some id ∧
    m.fs.names n = some r ∧ m.md.disk id = some ⟨some n, some (length, 8), false⟩
  apart : ∀ r r' f f', m.fs.files r = some f → m.fs.files r' = some f' → f.blobid = f'.blobid →
    r = r'
  blobs : ∀ id, m.md.disk id ≠ none → ∃ r f, m.fs.files r = some f ∧ f.blobid = some id
  created : ∀ r, r ∈ m.created ↔ m.fs.files r ≠ none

/-- `spdk_fs_unload` after everything has completed: `spdk_bs_unload` succeeds only where no
blob is open. -/
structure Unloads (m : Mounted) (disk : BlobId → Option Xattrs) : Prop where
  pending : m.fs.pending = []
  refs : ∀ id, m.md.refs id = 0
  disk : disk = m.md.disk

/-- What `spdk_bs_load` finds on the device. -/
structure LoadedBs.Reads (bs : LoadedBs) (disk : BlobId → Option Xattrs) : Prop where
  found : ∀ blob ∈ bs.found, blob.rc = 0 ∧
    disk blob.blobid = some ⟨blob.name, blob.length, blob.isDeleted⟩
  all : ∀ id, disk id ≠ none → ∃ blob ∈ bs.found, blob.blobid = id
  once : (bs.found.map FoundBlob.blobid).Nodup
  succeeds : bs.bserrno = 0
  bstype : bs.bstype ≠ .other

/-- A load gets its memory, and the blobs of the device. -/
def Undisturbed (disk : BlobId → Option Xattrs) : (r : LoadRequest) × LoadResponse r → Prop
  | ⟨.bsLoad, bs⟩ => LoadedBs.Reads bs disk
  | ⟨.callocFs, fs⟩ => fs = true
  | ⟨.allocFsRequest, req⟩ => req = true
  | ⟨.callocFile, f⟩ => f = true
  | ⟨.callocDeletedFile, deletedFile⟩ => deletedFile = true
  | _ => True

/-- The name that a rename that waits for the blob gives to it. -/
def BsOp.renames (id : BlobId) : BsOp → Option CString
  | renameOpen blobid newName _ => if blobid = some id then some newName else none
  | _ => none

/-- A rename that goes on after the deletion of the file of its new name finds its file, and
nothing under the new name. -/
def FileOp.Moves (s : Filesystem) : FileOp → Prop
  | fsRenameDeleteDone oldName newName _ => s.names oldName ≠ none ∧ s.names newName = none
  | _ => True

/-- A completion: a creation does not fail once it has a blob, nor does the deletion of a
blob; a new blob has not the id of one that a rename waits for; a rename finds the new name
free, and its blob before later renames do. -/
def BsOp.Keeps (s : Filesystem) (earlier : List BsOp) (answer : Answer) (set : Bool) : BsOp → Prop
  | createBlob .. => answer.bserrno = 0 → ∀ op ∈ s.pending, op.renames answer.blobid = none
  | createOpen .. => answer.bserrno = 0
  | createResize .. => answer.bserrno = 0 ∧ set = true
  | deleteBlob blobid fn => (blobid ≠ none → answer.bserrno = 0) ∧ fn.Moves s
  | syncDeleted _ fn => answer.bserrno = 0 ∧ fn.Moves s
  | renameOpen blobid _ _ => set = true ∧ ∀ op ∈ earlier, ∀ id, blobid = some id →
      op.renames id = none
  | _ => True

/-- A rename that deletes another file gets a request for it. -/
def Keeps (m : Mounted) : Operation → Prop
  | .request (.event (.complete i answer _)) set => ∀ op, m.fs.pending[i]? = some op →
      op.Keeps { m.fs with pending := m.fs.pending.eraseIdx i } (m.fs.pending.take i) answer set
  | .request (.rename oldName newName _ _ deleteMem) _ =>
      deleteMem.request = true ∨ m.fs.names newName = none ∨ m.fs.names oldName = none
  | _ => True

end Nbfs.Fs
