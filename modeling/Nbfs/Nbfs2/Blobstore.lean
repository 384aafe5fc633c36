import Nbfs.Lib.Conversation
import Nbfs.Lib.CString
import Mathlib.Algebra.Group.Nat.Defs
import Mathlib.Logic.Function.Basic

set_option autoImplicit false

/-!
# What NBFS2 asks of the blobstore and of its caller

Each call that answers through a callback, each getter, each `malloc` and each
call of the caller's `cb_fn` is a request.  The blobstore itself is a parameter:
what it does to the blobs and to memory is known as far as `spdk/blob.h`
promises it.
-/

namespace Nbfs.Nbfs2

open Nbfs.Lib

/-- `spdk_blob_id`. -/
abbrev BlobId := UInt64

/-- The address of a buffer. -/
abbrev Address := Nat

/-- `struct _write_normal_blob_args`. -/
structure WriteArgs where
  blob : BlobId
  blobid : BlobId
  channel : Bool
  payload : Address
  offset : UInt64
  length : UInt64
  clusterSize : UInt64
  ioUnitSize : UInt64

/-- `struct _read_normal_blob_args`. -/
structure ReadArgs where
  blob : BlobId
  channel : Bool
  blobid : BlobId
  payload : Address
  offset : UInt64
  length : UInt64

/-- The xattrs of the superblob. -/
inductive Xattr where
  /-- `XATTR_HTS`. -/
  | hts
  /-- `XATTR_SPBDS`. -/
  | spbds

/-- A request; a `struct spdk_blob *` is the id of the blob it was opened for. -/
inductive Request where
  | bsInit
  | bsLoad
  | bsUnload
  | getSuper
  | setSuper (id : BlobId)
  | setXattr (blob : BlobId) (name : Xattr) (value : UInt64)
  | getXattr (blob : BlobId) (name : Xattr)
  | createBlob
  | deleteBlob (id : BlobId)
  | openBlob (id : BlobId)
  | closeBlob (blob : BlobId)
  | syncMd (blob : BlobId)
  | resize (blob : BlobId) (clusters : UInt64)
  | ioWrite (blob : BlobId) (payload : Address) (offset length : UInt64)
  | ioRead (blob : BlobId) (payload : Address) (offset length : UInt64)
  | allocIoChannel
  | freeIoChannel
  | numClusters (blob : BlobId)
  | numIoUnits (blob : BlobId)
  | freeClusterCount
  | clusterSize
  | ioUnitSize
  | mallocWriteArgs
  | mallocReadArgs
  | mallocFile
  | mallocCreateArgs
  /-- The `malloc` of `spb_mdata`. -/
  | mallocMdata
  | mallocBlobidString
  /-- The allocations of `create_table`. -/
  | mallocTable
  /-- The allocations of `ht_insert`. -/
  | mallocItem
  | spdkMalloc (size : UInt64)
  /-- `memcpy` of a `struct _nbfs2_super_block_meta_data` out of a buffer. -/
  | getMdata (buffer : Address) (index : Nat)
  /-- And into one. -/
  | putMdata (buffer : Address) (index : Nat) (name : CString) (id : BlobId)
  /-- `cb_fn(cb_arg, bserrno)`. -/
  | callback (bserrno : Int)
  | appStop (rc : Int)

/-- `ENOMEM` and `ENOSPC`. -/
def enomem : Int := 12

def enospc : Int := 28

/-- What a request is answered with; a number alone is `bserrno`, and a fresh block
comes with what `malloc` left in it.  With a result of 0, `spdk_blob_get_xattr_value`
stores the address of the value. -/
def Response : Request → Type
  | .bsInit | .bsLoad | .bsUnload | .setSuper _ | .setXattr .. => Int
  | .getSuper => BlobId × Int
  | .getXattr .. => Int × UInt64
  | .createBlob => BlobId × Int
  | .openBlob _ => BlobId × Int
  | .deleteBlob _ | .closeBlob _ | .syncMd _ | .resize .. | .ioWrite .. | .ioRead .. => Int
  | .allocIoChannel => Bool
  | .numClusters _ | .numIoUnits _ | .freeClusterCount | .clusterSize | .ioUnitSize => UInt64
  | .mallocWriteArgs => Option WriteArgs
  | .mallocReadArgs => Option ReadArgs
  | .mallocFile | .mallocCreateArgs | .mallocMdata | .mallocBlobidString | .mallocTable => Bool
  | .mallocItem => Bool
  | .spdkMalloc _ => Option Address
  | .getMdata .. => CString × BlobId
  | .putMdata .. | .freeIoChannel | .callback _ | .appStop _ => Unit

/-- A function of NBFS2 that goes on in callbacks. -/
abbrev Async := Conv Request Response

section calls

variable (blob id : BlobId) (payload : Address) (offset length n : UInt64) (bserrno : Int)

abbrev spdkBsInit : Async Int := Conv.request Request.bsInit
abbrev spdkBsLoad : Async Int := Conv.request Request.bsLoad
abbrev spdkBsUnload : Async Int := Conv.request Request.bsUnload
abbrev spdkBsGetSuper : Async (BlobId × Int) := Conv.request Request.getSuper
abbrev spdkBsSetSuper : Async Int := Conv.request (Request.setSuper id)
abbrev spdkBlobSetXattr (name : Xattr) (value : UInt64) : Async Int :=
  Conv.request (Request.setXattr blob name value)
abbrev spdkBlobGetXattrValue (name : Xattr) : Async (Int × UInt64) :=
  Conv.request (Request.getXattr blob name)
abbrev spdkBsCreateBlob : Async (BlobId × Int) := Conv.request Request.createBlob
abbrev spdkBsDeleteBlob : Async Int := Conv.request (Request.deleteBlob id)
abbrev spdkBsOpenBlob : Async (BlobId × Int) := Conv.request (Request.openBlob id)
abbrev spdkBlobClose : Async Int := Conv.request (Request.closeBlob blob)
abbrev spdkBlobSyncMd : Async Int := Conv.request (Request.syncMd blob)
abbrev spdkBlobResize : Async Int := Conv.request (Request.resize blob n)
abbrev spdkBlobIoWrite : Async Int := Conv.request (Request.ioWrite blob payload offset length)
abbrev spdkBlobIoRead : Async Int := Conv.request (Request.ioRead blob payload offset length)
abbrev spdkBsAllocIoChannel : Async Bool := Conv.request Request.allocIoChannel
abbrev spdkBsFreeIoChannel : Async Unit := Conv.request Request.freeIoChannel
abbrev spdkBlobGetNumClusters : Async UInt64 := Conv.request (Request.numClusters blob)
abbrev spdkBlobGetNumIoUnits : Async UInt64 := Conv.request (Request.numIoUnits blob)
abbrev spdkBsFreeClusterCount : Async UInt64 := Conv.request Request.freeClusterCount
abbrev spdkBsGetClusterSize : Async UInt64 := Conv.request Request.clusterSize
abbrev spdkBsGetIoUnitSize : Async UInt64 := Conv.request Request.ioUnitSize
abbrev mallocWriteArgs : Async (Option WriteArgs) := Conv.request Request.mallocWriteArgs
abbrev mallocReadArgs : Async (Option ReadArgs) := Conv.request Request.mallocReadArgs
abbrev mallocFile : Async Bool := Conv.request Request.mallocFile
abbrev mallocCreateArgs : Async Bool := Conv.request Request.mallocCreateArgs
abbrev mallocMdata : Async Bool := Conv.request Request.mallocMdata
abbrev mallocBlobidString : Async Bool := Conv.request Request.mallocBlobidString
abbrev mallocTable : Async Bool := Conv.request Request.mallocTable
abbrev mallocItem : Async Bool := Conv.request Request.mallocItem
abbrev spdkMalloc (size : UInt64) : Async (Option Address) :=
  Conv.request (Request.spdkMalloc size)
abbrev getMdata (buffer : Address) (index : Nat) : Async (CString × BlobId) :=
  Conv.request (Request.getMdata buffer index)
abbrev putMdata (buffer : Address) (index : Nat) (name : CString) : Async Unit :=
  Conv.request (Request.putMdata buffer index name id)
abbrev cbFn : Async Unit := Conv.request (Request.callback bserrno)
abbrev spdkAppStop : Async Unit := Conv.request (Request.appStop bserrno)

end calls

/-- The requests that leave the blobs and memory as they are, whatever the answer. -/
def Request.quiet : Request → Bool
  | bsInit | bsLoad | bsUnload | spdkMalloc _ | putMdata .. => false
  | createBlob | deleteBlob _ | resize .. | ioWrite .. | ioRead .. => false
  | _ => true

/-- The blobstore and the memory of its clients.  `units` are the io units of each blob
that exists, `mem` the io units at an address. -/
structure Blobstore (α : Type) where
  State : Type
  units : State → BlobId → Option (List α)
  clusters : State → BlobId → UInt64
  mem : State → Address → Option (List α)
  respond : State → (r : Request) → Response r → State → Prop
  /-- Requests that are not about contents change none. -/
  quiet : ∀ {s r x s'}, respond s r x s' → r.quiet = true →
    units s' = units s ∧ clusters s' = clusters s ∧ mem s' = mem s
  /-- An open that succeeds gives the blob of the id. -/
  opened : ∀ {s id blob s'}, respond s (.openBlob id) (blob, 0) s' →
    blob = id ∧ ∃ us, units s id = some us
  numClusters : ∀ {s b n s'}, respond s (.numClusters b) n s' → n = clusters s b
  /-- The free clusters and those of a blob are counted among all clusters. -/
  freeClusterCount : ∀ {s n s'}, respond s .freeClusterCount n s' →
    ∀ b, (clusters s b).toNat + n.toNat < 2 ^ 64
  /-- A blob that grows keeps its units, and no other changes. -/
  resized : ∀ {s b n s'}, respond s (.resize b n) (0 : Int) s' →
    (∀ c, c ≠ b → units s' c = units s c) ∧ mem s' = mem s ∧
      (clusters s b ≤ n → ∀ us, units s b = some us → ∃ more, units s' b = some (us ++ more))
  /-- A write that succeeds puts the first `length` units at the payload's address to
  the offset, within the blob. -/
  written : ∀ {s b p offset length s'}, respond s (.ioWrite b p offset length) (0 : Int) s' →
    ∃ us data, units s b = some us ∧ mem s p = some data ∧
      offset.toNat + length.toNat ≤ us.length ∧ length.toNat ≤ data.length ∧
      units s' = Function.update (units s) b (some (us.take offset.toNat ++
        data.take length.toNat ++ us.drop (offset.toNat + length.toNat))) ∧ mem s' = mem s
  /-- A read that succeeds copies the units at the offset to the payload's address. -/
  read : ∀ {s b p offset length s'}, respond s (.ioRead b p offset length) (0 : Int) s' →
    ∃ us old, units s b = some us ∧ mem s p = some old ∧
      offset.toNat + length.toNat ≤ us.length ∧ length.toNat ≤ old.length ∧ units s' = units s ∧
      mem s' = Function.update (mem s) p (some ((us.drop offset.toNat).take length.toNat ++
        old.drop length.toNat))
  /-- A new blob has an id that no other has. -/
  created : ∀ {s id s'}, respond s .createBlob (id, 0) s' →
    units s id = none ∧ units s' = Function.update (units s) id (some [])
  createFailed : ∀ {s id e s'}, respond s .createBlob (id, e) s' → e ≠ 0 → units s' = units s
  deleted : ∀ {s id s'}, respond s (.deleteBlob id) (0 : Int) s' →
    units s' = Function.update (units s) id none
  /-- A deletion that fails may have got as far as taking the blob away. -/
  deleteFailed : ∀ {s id s'} {e : Int}, respond s (.deleteBlob id) e s' → e ≠ 0 →
    units s' = units s ∨ units s' = Function.update (units s) id none

/-! ## A blobstore in memory -/

/-- Blobs and memory as tables, with one io unit to a cluster. -/
structure MemStore (α : Type) where
  blobs : BlobId → Option (List α)
  clusters : BlobId → UInt64
  mem : Address → Option (List α)

namespace MemStore

variable {α : Type}

/-- Each request may succeed where it can, and a failing one changes nothing. -/
def respond (blank : α) (s : MemStore α) :
    (r : Request) → Response r → MemStore α → Prop
  | .createBlob, (id, e), s' =>
      (e = 0 ∧ s.blobs id = none ∧
        s' = { s with blobs := Function.update s.blobs id (some []) }) ∨ (e ≠ 0 ∧ s' = s)
  | .deleteBlob id, e, s' =>
      (e = (0 : Int) ∧ s' = { s with blobs := Function.update s.blobs id none }) ∨
        (e ≠ (0 : Int) ∧ s' = s)
  | .openBlob id, (blob, e), s' => s' = s ∧ (e = 0 → blob = id ∧ ∃ us, s.blobs id = some us)
  | .resize b n, e, s' =>
      (e = (0 : Int) ∧ ∃ us, s.blobs b = some us ∧ s' =
        { s with
          blobs := Function.update s.blobs b
            (some (us ++ List.replicate (n.toNat - us.length) blank))
          clusters := Function.update s.clusters b n }) ∨ (e ≠ (0 : Int) ∧ s' = s)
  | .ioWrite b p offset length, e, s' =>
      (e = (0 : Int) ∧ ∃ us data, s.blobs b = some us ∧ s.mem p = some data ∧
        offset.toNat + length.toNat ≤ us.length ∧ length.toNat ≤ data.length ∧ s' =
          { s with blobs := Function.update s.blobs b (some (us.take offset.toNat ++
              data.take length.toNat ++ us.drop (offset.toNat + length.toNat))) }) ∨
        (e ≠ (0 : Int) ∧ s' = s)
  | .ioRead b p offset length, e, s' =>
      (e = (0 : Int) ∧ ∃ us old, s.blobs b = some us ∧ s.mem p = some old ∧
        offset.toNat + length.toNat ≤ us.length ∧ length.toNat ≤ old.length ∧ s' =
          { s with mem := Function.update s.mem p (some ((us.drop offset.toNat).take length.toNat ++
              old.drop length.toNat)) }) ∨ (e ≠ (0 : Int) ∧ s' = s)
  | .numClusters b, n, s' | .numIoUnits b, n, s' => s' = s ∧ n = s.clusters b
  | .freeClusterCount, n, s' =>
      s' = s ∧ ∀ b, (s.clusters b).toNat + (show UInt64 from n).toNat < 2 ^ 64
  | _, _, s' => s' = s

theorem quiet {blank : α} {s s' : MemStore α} {r : Request} {x : Response r}
    (h : s.respond blank r x s') (hr : r.quiet = true) : s' = s := by
  cases r with
  | openBlob id => exact h.1
  | numClusters b => exact h.1
  | numIoUnits b => exact h.1
  | freeClusterCount => exact h.1
  | bsInit => cases hr
  | bsLoad => cases hr
  | bsUnload => cases hr
  | spdkMalloc size => cases hr
  | putMdata buffer index name id => cases hr
  | createBlob => cases hr
  | deleteBlob id => cases hr
  | resize b n => cases hr
  | ioWrite b p offset length => cases hr
  | ioRead b p offset length => cases hr
  | _ => exact h

/-- It keeps every promise of a blobstore. -/
def blobstore (blank : α) : Blobstore α where
  State := MemStore α
  units := blobs
  clusters := clusters
  mem := mem
  respond := respond blank
  quiet := by
    intro s r x s' h hr
    rw [MemStore.quiet h hr]
    exact ⟨rfl, rfl, rfl⟩
  opened := fun h => h.2 rfl
  numClusters := fun h => h.2
  freeClusterCount := fun h => h.2
  resized := by
    rintro s b n s' (⟨-, us, hus, rfl⟩ | ⟨hne, -⟩)
    · refine ⟨fun c hc => Function.update_of_ne hc _ _, rfl, fun _ us' hus' => ?_⟩
      obtain rfl := Option.some.inj (hus.symm.trans hus')
      exact ⟨_, Function.update_self ..⟩
    · exact absurd rfl hne
  written := by
    rintro s b p offset length s' (⟨-, us, data, hus, hdata, hbound, hlen, rfl⟩ | ⟨hne, -⟩)
    · exact ⟨us, data, hus, hdata, hbound, hlen, rfl, rfl⟩
    · exact absurd rfl hne
  read := by
    rintro s b p offset length s' (⟨-, us, old, hus, hold, hbound, hlen, rfl⟩ | ⟨hne, -⟩)
    · exact ⟨us, old, hus, hold, hbound, hlen, rfl, rfl⟩
    · exact absurd rfl hne
  created := by
    rintro s id s' (⟨-, hnone, rfl⟩ | ⟨hne, -⟩)
    · exact ⟨hnone, rfl⟩
    · exact absurd rfl hne
  createFailed := by
    rintro s id e s' (⟨rfl, -⟩ | ⟨-, rfl⟩) hne
    · exact absurd rfl hne
    · rfl
  deleted := by
    rintro s id s' (⟨-, rfl⟩ | ⟨hne, -⟩)
    · rfl
    · exact absurd rfl hne
  deleteFailed := by
    rintro s id s' e (⟨rfl, -⟩ | ⟨-, rfl⟩) hne
    · exact absurd rfl hne
    · exact Or.inl rfl

end MemStore

end Nbfs.Nbfs2
