import Nbfs.Fs.Names

set_option autoImplicit false

/-!
# The xattrs of blobs (`lib/blob/blobstore.c`)

A blob that is open has its metadata in memory, where `spdk_blob_set_xattr` changes it; a
sync and every close write it to the device, and a blobstore is unloaded only when no blob
is open.
-/

namespace Nbfs.Fs

open Nbfs.Lib

/-- The xattrs of a blob that loading looks at. -/
structure Xattrs where
  name : Option CString
  /-- `*length`, with its `value_len`. -/
  length : Option (UInt64 × Nat)
  isDeleted : Bool

/-- Those of a new blob. -/
def Xattrs.none : Xattrs := ⟨Option.none, Option.none, false⟩

/-- The metadata of a blobstore.  A handle is not used again for another blob. -/
structure Metadata where
  /-- What the device has of each blob that exists. -/
  disk : BlobId → Option Xattrs
  /-- `open_ref`. -/
  refs : BlobId → Nat
  /-- What is in memory of each blob that is open. -/
  cached : BlobId → Xattrs
  handle : BlobRef → Option BlobId

namespace Metadata

variable (md : Metadata)

/-- The xattrs of a blob that exists, as an open of it finds them. -/
def xattrs (id : BlobId) : Option Xattrs :=
  if md.refs id = 0 then md.disk id else some (md.cached id)

/-- `spdk_bs_create_blob`, when it succeeds. -/
def createBlob (id : BlobId) : Metadata :=
  { md with disk := Function.update md.disk id (some .none) }

/-- `spdk_bs_open_blob`, when it succeeds. -/
def openBlob (id : BlobId) (blob : BlobRef) : Metadata :=
  { md with
    refs := Function.update md.refs id (md.refs id + 1)
    cached := Function.update md.cached id ((md.xattrs id).getD .none)
    handle := Function.update md.handle blob (some id) }

/-- The blob of a handle, where it is open. -/
def openOf (blob : BlobRef) : Option BlobId := (md.handle blob).filter fun id => md.refs id ≠ 0

/-- `spdk_blob_sync_md`, when it succeeds. -/
def syncMd (blob : BlobRef) : Metadata :=
  match md.openOf blob with
  | none => md
  | some id => { md with disk := Function.update md.disk id (some (md.cached id)) }

/-- `spdk_blob_close`, when it succeeds. -/
def closeBlob (blob : BlobRef) : Metadata :=
  match md.openOf blob with
  | none => md
  | some id => { md.syncMd blob with refs := Function.update md.refs id (md.refs id - 1) }

/-- `spdk_bs_delete_blob`, when it succeeds. -/
def deleteBlob (id : BlobId) : Metadata :=
  { md with disk := Function.update md.disk id none }

/-- `spdk_blob_set_xattr`, when it succeeds. -/
def setXattr (blob : BlobRef) (f : Xattrs → Xattrs) : Except Fault Metadata :=
  match md.openOf blob with
  | none => .error .nullHandle
  | some id => .ok { md with cached := Function.update md.cached id (f (md.cached id)) }

variable {md} {md' : Metadata} {id id' : BlobId} {blob : BlobRef} {f : Xattrs → Xattrs}

theorem xattrs_closed (h : md.refs id = 0) : md.xattrs id = md.disk id := if_pos h

theorem xattrs_open (h : md.refs id ≠ 0) : md.xattrs id = some (md.cached id) := if_neg h

theorem openOf_eq : md.openOf blob = some id ↔ md.handle blob = some id ∧ md.refs id ≠ 0 := by
  rw [openOf, Option.filter_eq_some_iff, decide_eq_true_iff]

/-- Where nothing of a blob changes, its xattrs do not. -/
theorem xattrs_congr (hdisk : md'.disk id = md.disk id) (hrefs : md'.refs id = md.refs id)
    (hcached : md'.cached id = md.cached id) : md'.xattrs id = md.xattrs id := by
  rw [xattrs, xattrs, hdisk, hrefs, hcached]

/-- A new blob. -/
theorem xattrs_createBlob_self (h : md.xattrs id = none) :
    (md.createBlob id).xattrs id = some .none := by
  have hrefs : md.refs id = 0 := by
    by_contra hne
    cases (xattrs_open hne).symm.trans h
  rw [xattrs_closed (by exact hrefs)]
  exact Function.update_self ..

theorem xattrs_createBlob_ne (h : id' ≠ id) : (md.createBlob id).xattrs id' = md.xattrs id' :=
  xattrs_congr (Function.update_of_ne h ..) rfl rfl

/-- An open finds the xattrs that are there. -/
theorem xattrs_openBlob (h : md.xattrs id ≠ none) :
    (md.openBlob id blob).xattrs id' = md.xattrs id' := by
  by_cases hid : id' = id
  · subst hid
    have hrefs : (md.openBlob id' blob).refs id' ≠ 0 := by
      simp [openBlob]
    obtain ⟨x, hx⟩ := Option.ne_none_iff_exists'.mp h
    rw [xattrs_open hrefs, hx]
    simp [openBlob, hx]
  · exact xattrs_congr rfl (Function.update_of_ne hid ..) (Function.update_of_ne hid ..)

/-- A sync changes what the device has only. -/
theorem xattrs_syncMd : (md.syncMd blob).xattrs id' = md.xattrs id' := by
  unfold syncMd
  cases hopen : md.openOf blob with
  | none => rfl
  | some id =>
      obtain ⟨-, hrefs⟩ := openOf_eq.mp hopen
      by_cases hid : id' = id
      · subst hid
        rw [xattrs_open hrefs, xattrs_open (by exact hrefs)]
      · exact xattrs_congr (Function.update_of_ne hid ..) rfl rfl

/-- A close leaves on the device what was in memory. -/
theorem xattrs_closeBlob : (md.closeBlob blob).xattrs id' = md.xattrs id' := by
  unfold closeBlob
  cases hopen : md.openOf blob with
  | none => rfl
  | some id =>
      obtain ⟨-, hrefs⟩ := openOf_eq.mp hopen
      by_cases hid : id' = id
      · subst hid
        rw [xattrs_open hrefs]
        simp [xattrs, syncMd, hopen]
      · refine xattrs_congr ?_ (Function.update_of_ne hid ..) ?_
        · simp [syncMd, hopen, Function.update_of_ne hid]
        · simp [syncMd, hopen]

theorem handle_syncMd : (md.syncMd blob).handle = md.handle := by
  unfold syncMd
  split
  · rfl
  · rfl

theorem handle_closeBlob : (md.closeBlob blob).handle = md.handle := by
  unfold closeBlob
  split
  · rfl
  · exact handle_syncMd

theorem xattrs_deleteBlob_self (h : md.refs id = 0) : (md.deleteBlob id).xattrs id = none := by
  rw [xattrs_closed (by exact h)]
  exact Function.update_self ..

theorem xattrs_deleteBlob_ne (h : id' ≠ id) : (md.deleteBlob id).xattrs id' = md.xattrs id' :=
  xattrs_congr (Function.update_of_ne h ..) rfl rfl

/-- An xattr is set on the blob of the handle, which is open. -/
theorem setXattr_ok (h : md.setXattr blob f = .ok md') :
    ∃ id x, md.handle blob = some id ∧ md.xattrs id = some x ∧ md'.xattrs id = some (f x) ∧
      (∀ id', id' ≠ id → md'.xattrs id' = md.xattrs id') ∧ md'.handle = md.handle := by
  unfold setXattr at h
  cases hopen : md.openOf blob with
  | none =>
      rw [hopen] at h
      cases h
  | some id =>
      rw [hopen] at h
      obtain rfl := Except.ok.inj h
      obtain ⟨hhandle, hrefs⟩ := openOf_eq.mp hopen
      refine ⟨id, md.cached id, hhandle, xattrs_open hrefs, ?_, fun id' hid => ?_, rfl⟩
      · rw [xattrs_open (by exact hrefs)]
        exact congrArg some (Function.update_self ..)
      · exact xattrs_congr rfl rfl (Function.update_of_ne hid ..)

end Metadata

end Nbfs.Fs
