import Nbfs.Nbfs2.Growth
import Nbfs.Nbfs2.Accounting

set_option autoImplicit false

/-!
# How much of the superblob is transferred

The blobstore counts in io units; `nbfs2_unload_fs` and the load path pass it the bytes of
the data.  What the transfer then asks for is compared with the data and with the buffer.
-/

namespace Nbfs.Nbfs2

open Nbfs.Lib Conv

/-- A blobstore with its superblob, what `spdk_malloc` returns, and what the superblob has for
the size of its data. -/
structure SuperStore extends Geometry where
  super : BlobId
  buffer : Option Address
  recorded : Int × UInt64

/-- What such a blobstore answers. -/
def SuperStore.respond (e : SuperStore) (s : BlobId → Nat) :
    (r : Request) → Response r → (BlobId → Nat) → Prop
  | .getSuper, x, s' => Prod.fst x = e.super ∧ s' = s
  | .openBlob id, x, s' => Prod.fst x = id ∧ s' = s
  | .spdkMalloc _, x, s' => x = e.buffer ∧ s' = s
  | .getXattr _ .spbds, x, s' => x = e.recorded ∧ s' = s
  | r, x, s' => e.toGeometry.respond s r x s'

/-- The requests that move data or make room for it. -/
def Request.moves : Request → Bool
  | resize .. | ioWrite .. | ioRead .. => true
  | _ => false

/-- A transfer of so many io units covers the bytes of the data and stays within the buffer,
which has `size` bytes unless `spdk_malloc` failed. -/
def SuperStore.Covers (e : SuperStore) (bytes size : Nat) (payload : Address) (length : UInt64) :
    Prop :=
  bytes ≤ length.toNat * e.ioUnitSize.toNat ∧
    length.toNat * e.ioUnitSize.toNat ≤ if e.buffer = some payload then size else 0

/-- Each transfer is of the right size, and the superblob grows to at most the clusters that
the data needs. -/
def SuperStore.Sized (e : SuperStore) (bytes size : Nat) (_s : BlobId → Nat) : Request → Prop
  | .ioWrite _ payload _ length | .ioRead _ payload _ length => e.Covers bytes size payload length
  | .resize _ n => ∀ k, bytes ≤ k * e.clusterSize.toNat → n.toNat ≤ k
  | _ => True

variable {e : SuperStore} {bytes size : Nat} {s s' : BlobId → Nat}

/-- Whatever is answered, the program asks for nothing else. -/
abbrev SuperStore.Fits {β : Type} (e : SuperStore) (bytes size : Nat) (p : Async β)
    (s : BlobId → Nat) : Prop :=
  Conv.Asks e.respond (e.Sized bytes size) (fun _ _ => True) p s

section programs

variable {β : Type}

end programs

/-- What is left of the filesystem then. -/
def SuperStore.loaded (e : SuperStore) (m : MountedFs) : MountedFs :=
  if e.recorded.1 = 0 then { m with fs := { m.fs with spbDataSize := e.recorded.2 } } else m

/-- The records from number `i` on are copied within their array and their buffer. -/
def SuperStore.Copies (e : SuperStore) (size : UInt64) : Nat → List HtItem → Prop
  | _, [] => True
  | i, item :: items => e.buffer.isSome = true ∧ item.key.strlen < maxfilename ∧
      (i + 1) * metaDataSize.toNat ≤ size.toNat ∧ e.Copies size (i + 1) items

theorem SuperStore.Copies.fits {size : UInt64} {items : List HtItem} : ∀ {i : Nat},
    e.Copies size i items → items ≠ [] →
      e.buffer.isSome = true ∧ (i + items.length) * metaDataSize.toNat ≤ size.toNat := by
  induction items with
  | nil => exact fun _ hne => absurd rfl hne
  | cons item items ih =>
      rintro i ⟨hbuffer, -, hsize, hrest⟩ _
      refine ⟨hbuffer, ?_⟩
      cases items with
      | nil => exact hsize
      | cons next items =>
          have hnext := (ih hrest nofun).2
          rwa [Nat.add_assoc, Nat.add_comm 1] at hnext

/-- The count that the superblob is resized to for `length` io units. -/
def SuperStore.grown (e : SuperStore) (args : WriteArgs) (c : Nat) : UInt64 :=
  UInt64.ofNat c + clustersFor args (args.offset + args.length -
    UInt64.ofNat (c * e.unitsPerCluster))

section writes

variable {β : Type} {cb : Int → Async β} {args : WriteArgs} {bserrno : Int}

/-- The block of a write of the superblob. -/
def SuperStore.block (e : SuperStore) (payload : Address) (length : UInt64) : WriteArgs :=
  ⟨0, e.super, false, payload, 0, length, e.clusterSize, e.ioUnitSize⟩

end writes

end Nbfs.Nbfs2
