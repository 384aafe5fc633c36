import Nbfs.Fs.Atomic
import Nbfs.Fs.StoredRuns

set_option autoImplicit false

/-!
# The next load

Where every blob on the device is that of a file, with its xattrs, and no two files have one
name, a load comes to its end and finds each file by its name.
-/

namespace Nbfs.Fs

open Nbfs.Lib Conv

/-! ### What a load keeps of a blob -/

/-- A blob that is accepted is kept as a file, or to be deleted. -/
def Load.add (l : Load) (blob : FoundBlob) : Load :=
  match blob.name, blob.length with
  | some name, some (length, _) =>
      if blob.isDeleted then { l with deletedFiles := l.deletedFiles ++ [blob.blobid] }
      else l.setLoaded name blob.blobid length
  | _, _ => l

section load

variable {disk : BlobId → Option Xattrs} {t : LoadTrace} {l : Load} {blob : FoundBlob}
  {found : List FoundBlob}

theorem iterCb_adds (hw : blob.WellFormed) (ht : ∀ x ∈ t, Undisturbed disk x) {o : Option Load}
    (h : Free (iterCb l blob) t o) : o = some (l.add blob) ∧ callbacks t = [] := by
  obtain ⟨hrc, hname, length, hlength⟩ := hw
  obtain ⟨name, hname⟩ := Option.ne_none_iff_exists'.mp hname
  unfold iterCb at h
  rw [if_neg (by omega)] at h
  simp only [hname, hlength, ne_eq, not_true_eq_false, if_false] at h
  by_cases hdeleted : blob.isDeleted = true
  · rw [if_pos hdeleted] at h
    obtain ⟨deletedFile, t₁, rfl, hrest⟩ := Free.request_iff.mp h
    have hmem : deletedFile = true := ht _ List.mem_cons_self
    split at hrest
    · rename_i hfalse
      cases hfalse.symm.trans hmem
    obtain ⟨rfl, rfl⟩ := Free.ret_iff.mp hrest
    simp [Load.add, hname, hlength, hdeleted, callbacks]
  · rw [if_neg hdeleted] at h
    obtain ⟨f, t₁, rfl, hrest⟩ := Free.request_iff.mp h
    have hmem : f = true := ht _ List.mem_cons_self
    split at hrest
    · rename_i hfalse
      cases hfalse.symm.trans hmem
    obtain ⟨rfl, rfl⟩ := Free.ret_iff.mp hrest
    simp [Load.add, hname, hlength, hdeleted, callbacks]

/-- All blobs that are found are kept. -/
theorem iter_adds (hw : ∀ blob ∈ found, blob.WellFormed) (ht : ∀ x ∈ t, Undisturbed disk x)
    {o : Option Load} (h : Free (found.foldlM iterCb l) t o) :
    o = some (found.foldl Load.add l) ∧ callbacks t = [] := by
  induction found generalizing l t with
  | nil =>
      obtain ⟨rfl, rfl⟩ := Free.ret_iff.mp h
      exact ⟨rfl, rfl⟩
  | cons blob found ih =>
      obtain ⟨hblob, hfound⟩ := List.forall_mem_cons.mp hw
      rw [List.foldlM_cons] at h
      rcases Free.bind_iff.mp h with ⟨l₁, t₁, t₂, rfl, hfirst, hrest⟩ | ⟨hfirst, -⟩
      · have ht' := List.forall_mem_append.mp ht
        obtain ⟨hl₁, hc₁⟩ := iterCb_adds hblob ht'.1 hfirst
        obtain rfl := Option.some.inj hl₁
        obtain ⟨hl, hc₂⟩ := ih hfound ht'.2 hrest
        rw [callbacks_append, hc₁, hc₂]
        exact ⟨hl, rfl⟩
      · cases (iterCb_adds hblob (fun x hx => ht x hx) hfirst).1

theorem fsLoadDone_calls {deletedFiles : List BlobId} {o : Option Unit}
    (h : Free (fsLoadDone deletedFiles) t o) : o = some () ∧ callbacks t = [0] := by
  induction deletedFiles generalizing t with
  | nil =>
      obtain ⟨x, t₁, rfl, h₁⟩ := Free.request_iff.mp h
      obtain ⟨y, t₂, rfl, h₂⟩ := Free.request_iff.mp h₁
      obtain ⟨rfl, rfl⟩ := Free.ret_iff.mp h₂
      exact ⟨rfl, rfl⟩
  | cons blobid deletedFiles ih =>
      obtain ⟨x, t₁, rfl, hrest⟩ := Free.request_iff.mp h
      obtain ⟨hsome, hcalls⟩ := ih hrest
      exact ⟨hsome, hcalls⟩

/-- A load that is not disturbed. -/
theorem spdkFsLoad_adds {o : Option (Option Load)}
    (hw : ∀ bs : LoadedBs, bs.Reads disk → ∀ blob ∈ bs.found, blob.WellFormed)
    (h : Free spdkFsLoad t o) (ht : ∀ x ∈ t, Undisturbed disk x) :
    callbacks t = [0] ∧ ∃ bs : LoadedBs, bs.Reads disk ∧
      o = some (some (bs.found.foldl Load.add fsAlloc)) := by
  obtain ⟨fs, t₁, rfl, h₁⟩ := Free.request_iff.mp h
  obtain ⟨hfs, ht₁⟩ := List.forall_mem_cons.mp ht
  split at h₁
  · rename_i hfalse
    cases hfalse.symm.trans hfs
  obtain ⟨req, t₂, rfl, h₂⟩ := Free.request_iff.mp h₁
  obtain ⟨hreq, ht₂⟩ := List.forall_mem_cons.mp ht₁
  split at h₂
  · rename_i hfalse
    cases hfalse.symm.trans hreq
  obtain ⟨bs, t₃, rfl, h₃⟩ := Free.request_iff.mp h₂
  obtain ⟨hbs, ht₃⟩ := List.forall_mem_cons.mp ht₂
  replace hbs : LoadedBs.Reads bs disk := hbs
  rcases Free.bind_iff.mp h₃ with ⟨l, t₄, t₅, rfl, hiter, h₄⟩ | ⟨hiter, -⟩
  · have ht' := List.forall_mem_append.mp ht₃
    obtain ⟨hl, hc₁⟩ := iter_adds (hw bs hbs) ht'.1 hiter
    obtain rfl := Option.some.inj hl
    have hload : ∀ {t : LoadTrace} {o : Option Unit}, Free (loadCb (LoadedBs.found bs |>.foldl
        Load.add fsAlloc) (LoadedBs.bserrno bs) (LoadedBs.bstype bs)) t o →
          o = some () ∧ callbacks t = [0] := by
      intro t o h
      unfold loadCb at h
      rw [if_neg (not_not.mpr hbs.succeeds)] at h
      cases htype : LoadedBs.bstype bs with
      | zeros =>
          rw [htype] at h
          obtain ⟨x, t₁, rfl, hrest⟩ := Free.request_iff.mp h
          obtain ⟨hsome, hcalls⟩ := fsLoadDone_calls hrest
          exact ⟨hsome, hcalls⟩
      | blobfs =>
          rw [htype] at h
          exact fsLoadDone_calls h
      | other => exact absurd htype hbs.bstype
    rcases Free.bind_iff.mp h₄ with ⟨_, t₆, t₇, rfl, hdone, h₅⟩ | ⟨hdone, -⟩
    · obtain ⟨rfl, rfl⟩ := Free.ret_iff.mp h₅
      obtain ⟨-, hc₂⟩ := hload hdone
      refine ⟨?_, bs, hbs, rfl⟩
      change callbacks (t₄ ++ (t₆ ++ [])) = [0]
      rw [List.append_nil, callbacks_append, hc₁, hc₂]
      rfl
    · cases (hload hdone).1
  · cases (iter_adds (hw bs hbs) ht₃ hiter).1

/-! ### Finding a file -/

/-- The name has the file of the blob. -/
def Load.Has (l : Load) (name : CString) (id : BlobId) : Prop :=
  ∃ r f, l.fs.names name = some r ∧ r < l.fs.brk ∧ l.fs.files r = some f ∧ f.blobid = some id

/-- What is found stays. -/
theorem Load.Has.add {name : CString} {id : BlobId} (h : l.Has name id) :
    (l.add blob).Has name id := by
  unfold Load.add
  split
  · rename_i name' length valueLen _ _
    split
    · exact h
    obtain ⟨r, f, hname, hr, hf, hid⟩ := h
    have hne : r ≠ l.fs.brk := Nat.ne_of_lt hr
    refine ⟨r, f, ?_, Nat.lt_succ_of_lt hr, ?_, hid⟩
    · change BplusTree.insertName l.fs.names name' l.fs.brk name = some r
      by_cases hn : name = name'
      · subst hn
        rw [BplusTree.insertName_self, hname, Option.getD_some]
      · rw [BplusTree.insertName_of_ne _ hn, hname]
    · exact (Filesystem.setFile_files_ne _ hne).trans ((Filesystem.fileAlloc_files_ne hne).trans hf)
  · exact h

end load

/-! ### After a run -/

section runs

variable {m₀ m : Mounted} {disk : BlobId → Option Xattrs}

/-- What the device has of a blob, when nothing is left to do. -/
theorem Mounted.Stored.onDisk (h : m.Stored) (hunloads : Unloads m disk) {id : BlobId} {x : Xattrs}
    (hx : disk id = some x) : ∃ r f n length, m.fs.files r = some f ∧ f.blobid = some id ∧
      m.fs.names n = some r ∧ x.name = some n ∧ x.length = some (length, 8) ∧
        (x.isDeleted = true → r ∈ m.deleted) := by
  have hpending := hunloads.pending
  have hxattrs : m.md.xattrs id = some x := by
    rw [Metadata.xattrs_closed (hunloads.refs id), ← hunloads.disk, hx]
  rcases h.owned id (by simp [hxattrs]) with ⟨r, f, hf, hid⟩ | hkilling
  · have hbuilt : m.fs.building r = 0 := by simp [Filesystem.building, hpending]
    obtain ⟨y, hy, ⟨length, hlength⟩, hname⟩ := h.stored r f id hf hid hbuilt
    obtain rfl := Option.some.inj (hxattrs.symm.trans hy)
    obtain ⟨hnamed, hset⟩ := h.named r f hf
    obtain ⟨n, hn⟩ := Option.ne_none_iff_exists'.mp (hset (by simp [hid]))
    have hnone : m.fs.newNames id = [] := by simp [Filesystem.newNames, hpending]
    exact ⟨r, f, n, length, hf, hid, hnamed n hn, (hname hnone).trans hn, hlength,
      h.marks r f id x hf hid hxattrs⟩
  · simp [Filesystem.killing, hpending] at hkilling

end runs

/-! ### Creating a file -/

end Nbfs.Fs
