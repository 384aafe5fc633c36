import Nbfs.Fs.Loadable

set_option autoImplicit false

/-!
# What a load makes of a device

Where each blob has its xattrs and no two that stay have one name, a load makes one file for
each blob that is not marked, under its name and with its length, asks for the deletion of the
marked ones and of no other, and what it makes is ready to be worked on.
-/

namespace Nbfs.Fs

open Nbfs.Lib Conv

/-! ### The deletions of a load -/

/-- The blobs that a load asks to delete. -/
def deletions : LoadTrace → List BlobId :=
  Trace.asked fun | .deleteBlob blobid => some blobid | _ => none

/-- What the device has after an answer: `spdk_bs_delete_blob` may have deleted a blob. -/
def afterAnswer (disk : BlobId → Option Xattrs) :
    (r : LoadRequest) × LoadResponse r → BlobId → Option Xattrs
  | ⟨.deleteBlob blobid, bserrno⟩ =>
      if (show Int from bserrno) = 0 then Function.update disk blobid none else disk
  | _ => disk

/-- What the device has after a load. -/
def afterLoad (disk : BlobId → Option Xattrs) (t : LoadTrace) : BlobId → Option Xattrs :=
  t.foldl afterAnswer disk

/-- A load that is not disturbed, and whose deletions succeed. -/
def Succeeds (disk : BlobId → Option Xattrs) : (r : LoadRequest) × LoadResponse r → Prop
  | ⟨.deleteBlob _, bserrno⟩ => (show Int from bserrno) = 0
  | x => Undisturbed disk x

section deletions

variable {disk : BlobId → Option Xattrs} {t t' : LoadTrace} {l : Load} {blob : FoundBlob}

theorem deletions_append : deletions (t ++ t') = deletions t ++ deletions t' := Trace.asked_append

theorem Succeeds.undisturbed {x : (r : LoadRequest) × LoadResponse r} (h : Succeeds disk x) :
    Undisturbed disk x := by
  obtain ⟨r, answer⟩ := x
  cases r with
  | deleteBlob blobid => trivial
  | _ => exact h

/-- The blobs whose deletion was asked for are gone, and no others. -/
theorem afterLoad_eq {id : BlobId} {disk₀ : BlobId → Option Xattrs}
    (h : ∀ x ∈ t, Succeeds disk₀ x) :
    afterLoad disk t id = if id ∈ deletions t then none else disk id := by
  induction t generalizing disk with
  | nil => rfl
  | cons x t ih =>
      obtain ⟨hx, ht⟩ := List.forall_mem_cons.mp h
      have hrest : ∀ disk', afterLoad disk' t id = if id ∈ deletions t then none else disk' id :=
        fun disk' => ih ht
      change afterLoad (afterAnswer disk x) t id = _
      rw [hrest]
      obtain ⟨r, answer⟩ := x
      cases r with
      | deleteBlob blobid =>
          have hdel : deletions (⟨.deleteBlob blobid, answer⟩ :: t) = blobid :: deletions t := rfl
          have hgone : afterAnswer disk ⟨.deleteBlob blobid, answer⟩ =
            Function.update disk blobid none := if_pos hx
          by_cases hid : id = blobid
          · subst hid
            simp [hdel, hgone]
          · simp [hdel, hgone, hid]
      | _ => rfl

theorem iterFailed_deletes {rc : Int} {o : Option Load} (h : Free (iterFailed l rc) t o) :
    deletions t = [] := by
  obtain ⟨x, t₁, rfl, h₁⟩ := Free.request_iff.mp h
  obtain ⟨y, t₂, rfl, h₂⟩ := Free.request_iff.mp h₁
  obtain ⟨rfl, -⟩ := Free.ret_iff.mp h₂
  rfl

theorem iterCb_deletes {o : Option Load} (h : Free (iterCb l blob) t o) : deletions t = [] := by
  unfold iterCb at h
  split at h
  · exact iterFailed_deletes h
  split at h
  · exact iterFailed_deletes h
  · exact iterFailed_deletes h
  split at h
  · obtain ⟨rfl, -⟩ := Free.undefined_iff.mp h
    rfl
  split at h
  · obtain ⟨deletedFile, t₁, rfl, hrest⟩ := Free.request_iff.mp h
    change deletions t₁ = []
    split at hrest
    · exact iterFailed_deletes hrest
    · obtain ⟨rfl, -⟩ := Free.ret_iff.mp hrest
      rfl
  · obtain ⟨f, t₁, rfl, hrest⟩ := Free.request_iff.mp h
    change deletions t₁ = []
    split at hrest
    · exact iterFailed_deletes hrest
    · obtain ⟨rfl, -⟩ := Free.ret_iff.mp hrest
      rfl

/-- Nothing is deleted while blobs are looked at. -/
theorem iter_deletes {found : List FoundBlob} {o : Option Load}
    (h : Free (found.foldlM iterCb l) t o) : deletions t = [] := by
  induction found generalizing l t with
  | nil =>
      obtain ⟨rfl, -⟩ := Free.ret_iff.mp h
      rfl
  | cons blob found ih =>
      rw [List.foldlM_cons] at h
      rcases Free.bind_iff.mp h with ⟨l₁, t₁, t₂, rfl, hfirst, hrest⟩ | ⟨hfirst, -⟩
      · rw [deletions_append, iterCb_deletes hfirst, ih hrest, List.nil_append]
      · exact iterCb_deletes hfirst

/-- The end of a load asks for each deletion once, in the order of the list. -/
theorem fsLoadDone_deletes {deletedFiles : List BlobId} {o : Option Unit}
    (h : Free (fsLoadDone deletedFiles) t o) : deletions t = deletedFiles := by
  induction deletedFiles generalizing t with
  | nil =>
      obtain ⟨x, t₁, rfl, h₁⟩ := Free.request_iff.mp h
      obtain ⟨y, t₂, rfl, h₂⟩ := Free.request_iff.mp h₁
      obtain ⟨rfl, -⟩ := Free.ret_iff.mp h₂
      rfl
  | cons blobid deletedFiles ih =>
      obtain ⟨x, t₁, rfl, hrest⟩ := Free.request_iff.mp h
      exact congrArg (blobid :: ·) (ih hrest)

/-- A load that is not disturbed deletes what it has put on its list. -/
theorem spdkFsLoad_deletes (h : Free spdkFsLoad t (some (some l)))
    (ht : ∀ x ∈ t, Undisturbed disk x) : deletions t = l.deletedFiles := by
  obtain ⟨fs, t₁, rfl, h₁⟩ := Free.request_iff.mp h
  split at h₁
  · obtain ⟨x, t₂, rfl, h₂⟩ := Free.request_iff.mp h₁
    cases (Free.ret_iff.mp h₂).2
  obtain ⟨req, t₂, rfl, h₂⟩ := Free.request_iff.mp h₁
  split at h₂
  · obtain ⟨x, t₃, rfl, h₃⟩ := Free.request_iff.mp h₂
    obtain ⟨y, t₄, rfl, h₄⟩ := Free.request_iff.mp h₃
    cases (Free.ret_iff.mp h₄).2
  obtain ⟨bs, t₃, rfl, h₃⟩ := Free.request_iff.mp h₂
  have hbs : LoadedBs.Reads bs disk :=
    ht _ (List.mem_cons_of_mem _ (List.mem_cons_of_mem _ List.mem_cons_self))
  change deletions t₃ = _
  rcases Free.bind_iff.mp h₃ with ⟨l', t₄, t₅, rfl, hiter, h₄⟩ | ⟨-, hnone⟩
  · rcases Free.bind_iff.mp h₄ with ⟨_, t₆, t₇, rfl, hdone, h₅⟩ | ⟨-, hnone⟩
    · obtain ⟨rfl, hsame⟩ := Free.ret_iff.mp h₅
      obtain rfl := Option.some.inj (Option.some.inj hsame)
      rw [List.append_nil, deletions_append, iter_deletes hiter, List.nil_append]
      unfold loadCb at hdone
      rw [if_neg (not_not.mpr hbs.succeeds)] at hdone
      cases htype : LoadedBs.bstype bs with
      | zeros =>
          rw [htype] at hdone
          obtain ⟨x, t₇, rfl, hrest⟩ := Free.request_iff.mp hdone
          have hdel := fsLoadDone_deletes hrest
          exact hdel
      | blobfs =>
          rw [htype] at hdone
          exact fsLoadDone_deletes hdone
      | other => exact absurd htype hbs.bstype
    · cases hnone
  · cases hnone

end deletions

/-! ### The files of a load -/

/-- The file is that of the blob: it has its name, under which the tree finds it, and all four
counters are the stored length. -/
structure Load.IsFileOf (l : Load) (r : FileRef) (blob : FoundBlob) : Prop where
  live : blob.isDeleted = false
  file : ∃ f n, l.fs.files r = some f ∧ f.blobid = some blob.blobid ∧ f.name = some n ∧
    blob.name = some n ∧ l.fs.names n = some r
  counters : ∃ length valueLen, blob.length = some (length, valueLen) ∧
    l.counters r = some ⟨length, length, length, length⟩

/-- The load has one file for each blob that is found and not marked, and the others on its
list. -/
structure Load.Loads (l : Load) (found : List FoundBlob) : Prop where
  initial : Initial l.fs
  born : ∀ r, l.fs.files r ≠ none ↔ r < l.fs.brk
  file : ∀ r, l.fs.files r ≠ none → ∃ blob ∈ found, l.IsFileOf r blob
  blob : ∀ blob ∈ found, blob.isDeleted = false → ∃ r, l.IsFileOf r blob
  deleted : l.deletedFiles = (found.filter FoundBlob.isDeleted).map FoundBlob.blobid

/-- Blobs that are whole, of which those that are not marked have names of their own. -/
structure Sound (found : List FoundBlob) : Prop where
  whole : ∀ blob ∈ found, blob.WellFormed
  apart : ∀ b ∈ found, ∀ b' ∈ found, b.isDeleted = false → b'.isDeleted = false →
    b.name = b'.name → b.blobid = b'.blobid
  once : (found.map FoundBlob.blobid).Nodup

section loads

variable {l : Load} {blob blob' : FoundBlob} {found : List FoundBlob} {r : FileRef}

/-- A file stays that of its blob. -/
theorem Load.IsFileOf.setLoaded (h : l.IsFileOf r blob) (hr : r < l.fs.brk) (name : CString)
    (id : BlobId) (length : UInt64) : (l.setLoaded name id length).IsFileOf r blob := by
  have hne : r ≠ l.fs.brk := Nat.ne_of_lt hr
  obtain ⟨f, n, hf, hid, hfname, hname, hentry⟩ := h.file
  obtain ⟨length', valueLen, hlength, hcounters⟩ := h.counters
  refine ⟨h.live, ⟨f, n, ?_, hid, hfname, hname, ?_⟩, length', valueLen, hlength, ?_⟩
  · exact (Filesystem.setFile_files_ne _ hne).trans ((Filesystem.fileAlloc_files_ne hne).trans hf)
  · change BplusTree.insertName l.fs.names name l.fs.brk n = some r
    by_cases hn : n = name
    · subst hn
      rw [BplusTree.insertName_self, hentry, Option.getD_some]
    · rw [BplusTree.insertName_of_ne _ hn, hentry]
  · exact (Function.update_of_ne hne ..).trans hcounters

/-- A blob whose name is free gets its file. -/
theorem Load.isFileOf_setLoaded {name : CString} {length : UInt64} {valueLen : Nat}
    (hlive : blob.isDeleted = false) (hname : blob.name = some name)
    (hlength : blob.length = some (length, valueLen)) (hfree : l.fs.names name = none) :
    (l.setLoaded name blob.blobid length).IsFileOf l.fs.brk blob := by
  refine ⟨hlive, ⟨_, name, Filesystem.setFile_files_self .., rfl, rfl, hname, ?_⟩, length,
    valueLen, hlength, Function.update_self ..⟩
  change BplusTree.insertName l.fs.names name l.fs.brk name = some l.fs.brk
  rw [BplusTree.insertName_self, hfree, Option.getD_none]

/-- The name of a blob that was not found before is free. -/
theorem Load.Loads.free (h : l.Loads found) (hsound : Sound (found ++ [blob])) {name : CString}
    (hlive : blob.isDeleted = false) (hname : blob.name = some name) : l.fs.names name = none := by
  cases hentry : l.fs.names name with
  | none => rfl
  | some r =>
      obtain ⟨f, hf, hfname⟩ := h.initial.tree name r hentry
      obtain ⟨b, hb, hfile⟩ := h.file r (by simp [hf])
      obtain ⟨f', n, hf', -, hfname', hbname, -⟩ := hfile.file
      obtain rfl := Option.some.inj (hf.symm.trans hf')
      have hnames : b.name = blob.name := by
        rw [hbname, hname, ← hfname', hfname]
      have hid : b.blobid = blob.blobid :=
        hsound.apart b (List.mem_append_left _ hb) blob (by simp) hfile.live hlive hnames
      -- The blob would be found twice.
      have honce := hsound.once
      rw [List.map_append, List.nodup_append] at honce
      exact absurd hid (honce.2.2 _ (List.mem_map_of_mem hb) _ (by simp))

/-- One more blob. -/
theorem Load.Loads.add (h : l.Loads found) (hsound : Sound (found ++ [blob])) :
    (l.add blob).Loads (found ++ [blob]) := by
  obtain ⟨-, hset, length, hlength⟩ := hsound.whole blob (by simp)
  obtain ⟨name, hname⟩ := Option.ne_none_iff_exists'.mp hset
  by_cases hdeleted : blob.isDeleted = true
  · have hadd : l.add blob = { l with deletedFiles := l.deletedFiles ++ [blob.blobid] } := by
      simp [Load.add, hname, hlength, hdeleted]
    have hsame : ∀ {r b}, l.IsFileOf r b → (l.add blob).IsFileOf r b := by
      intro r b hfile
      rw [hadd]
      exact ⟨hfile.live, hfile.file, hfile.counters⟩
    refine ⟨?_, fun r => ?_, fun r hr => ?_, fun b hb hlive => ?_, ?_⟩
    · rw [hadd]
      exact h.initial
    · rw [hadd]
      exact h.born r
    · rw [hadd] at hr
      obtain ⟨b, hb, hfile⟩ := h.file r hr
      exact ⟨b, List.mem_append_left _ hb, hsame hfile⟩
    · rcases List.mem_append.mp hb with hb | hb
      · exact (h.blob b hb hlive).imp fun r hfile => hsame hfile
      · obtain rfl := List.mem_singleton.mp hb
        cases hdeleted.symm.trans hlive
    · rw [hadd]
      simp [h.deleted, hdeleted]
  · replace hdeleted : blob.isDeleted = false := by simpa using hdeleted
    have hadd : l.add blob = l.setLoaded name blob.blobid length := by
      simp [Load.add, hname, hlength, hdeleted]
    have hnew : (l.add blob).IsFileOf l.fs.brk blob := by
      rw [hadd]
      exact Load.isFileOf_setLoaded hdeleted hname hlength (h.free hsound hdeleted hname)
    have hsame : ∀ {r b}, l.IsFileOf r b → (l.add blob).IsFileOf r b := by
      intro r b hfile
      obtain ⟨f, n, hf, -⟩ := hfile.file
      rw [hadd]
      exact hfile.setLoaded ((h.born r).mp (by simp [hf])) _ _ _
    have hfiles : ∀ r, r ≠ l.fs.brk → (l.add blob).fs.files r = l.fs.files r := by
      intro r hr
      rw [hadd]
      exact (Filesystem.setFile_files_ne _ hr).trans (Filesystem.fileAlloc_files_ne hr)
    refine ⟨?_, fun r => ?_, fun r hr => ?_, fun b hb hlive => ?_, ?_⟩
    · rw [hadd]
      exact h.initial.setLoaded ..
    · have hbrk : (l.add blob).fs.brk = l.fs.brk + 1 := by
        rw [hadd]
        rfl
      rw [hbrk]
      by_cases hr : r = l.fs.brk
      · subst hr
        obtain ⟨f, n, hf, -⟩ := hnew.file
        simp [hf]
      · rw [hfiles r hr, h.born r]
        exact ⟨Nat.lt_succ_of_lt, fun hlt => (Nat.lt_succ_iff_lt_or_eq.mp hlt).resolve_right hr⟩
    · by_cases hbrk : r = l.fs.brk
      · subst hbrk
        exact ⟨blob, by simp, hnew⟩
      · rw [hfiles r hbrk] at hr
        obtain ⟨b, hb, hfile⟩ := h.file r hr
        exact ⟨b, List.mem_append_left _ hb, hsame hfile⟩
    · rcases List.mem_append.mp hb with hb | hb
      · exact (h.blob b hb hlive).imp fun r hfile => hsame hfile
      · obtain rfl := List.mem_singleton.mp hb
        exact ⟨_, hnew⟩
    · have hlist : (l.add blob).deletedFiles = l.deletedFiles := by
        rw [hadd]
        rfl
      rw [hlist, h.deleted]
      simp [hdeleted]

/-- All blobs that are found. -/
theorem Load.loads_all (hsound : Sound found) : (found.foldl Load.add fsAlloc).Loads found := by
  induction found using List.reverseRecOn with
  | nil =>
      refine ⟨⟨rfl, rfl, nofun, nofun, nofun⟩, fun r => ?_, fun r hr => absurd rfl hr, nofun, rfl⟩
      simp [fsAlloc]
  | append_singleton found blob ih =>
      rw [List.foldl_append]
      refine (ih ⟨fun b hb => ?_, fun b hb b' hb' => ?_, ?_⟩).add hsound
      · exact hsound.whole b (List.mem_append_left _ hb)
      · exact hsound.apart b (List.mem_append_left _ hb) b' (List.mem_append_left _ hb')
      · have honce := hsound.once
        rw [List.map_append, List.nodup_append] at honce
        exact honce.1

end loads

/-! ### A device that can be loaded -/

/-- Each blob has its xattrs, and no two that are not marked have one name. -/
structure Loadable (disk : BlobId → Option Xattrs) : Prop where
  whole : ∀ id x, disk id = some x → ∃ n length, x.name = some n ∧ x.length = some (length, 8)
  apart : ∀ id id' x x', disk id = some x → disk id' = some x' → x.isDeleted = false →
    x'.isDeleted = false → x.name = x'.name → id = id'

/-- A filesystem that was loaded from a device. -/
def Load.mounted (l : Load) (disk : BlobId → Option Xattrs) : Mounted where
  fs := l.fs
  md := ⟨disk, fun _ => 0, fun _ => .none, fun _ => none⟩
  created := List.range l.fs.brk
  deleted := []

/-- The load found the blob: under its name there is its file, with the stored length. -/
def Load.Found (l : Load) (id : BlobId) (x : Xattrs) : Prop :=
  ∃ r f n length, x.name = some n ∧ x.length = some (length, 8) ∧ l.fs.names n = some r ∧
    l.fs.files r = some f ∧ f.blobid = some id ∧ f.name = some n ∧
      l.counters r = some ⟨length, length, length, length⟩

namespace Loadable

variable {disk : BlobId → Option Xattrs} {t : LoadTrace} {l : Load} {id : BlobId} {x : Xattrs}
  {bs : LoadedBs}

theorem sound (h : Loadable disk) (hbs : bs.Reads disk) : Sound bs.found where
  whole blob hblob := by
    obtain ⟨hrc, hdisk⟩ := hbs.found blob hblob
    obtain ⟨n, length, hname, hlength⟩ := h.whole _ _ hdisk
    refine ⟨Int.le_of_eq hrc.symm, ?_, length, hlength⟩
    rw [show blob.name = some n from hname]
    exact Option.some_ne_none n
  apart b hb b' hb' hlive hlive' hnames :=
    h.apart _ _ _ _ (hbs.found b hb).2 (hbs.found b' hb').2 hlive hlive' hnames
  once := hbs.once

/-- A load that is not disturbed calls back once, with 0, and has its files. -/
theorem loads (h : Loadable disk) {o : Option (Option Load)} (hload : Free spdkFsLoad t o)
    (ht : ∀ x ∈ t, Undisturbed disk x) :
    callbacks t = [0] ∧ ∃ (l : Load) (bs : LoadedBs), o = some (some l) ∧ bs.Reads disk ∧
      l.Loads bs.found := by
  obtain ⟨hcalls, bs, hbs, rfl⟩ :=
    spdkFsLoad_adds (fun bs hbs => (h.sound hbs).whole) hload ht
  exact ⟨hcalls, _, bs, rfl, hbs, Load.loads_all (h.sound hbs)⟩

/-- Each blob that is not marked is found. -/
theorem found (h : Loadable disk) (hbs : bs.Reads disk) (hloads : l.Loads bs.found)
    (hx : disk id = some x) (hlive : x.isDeleted = false) : l.Found id x := by
  obtain ⟨blob, hblob, rfl⟩ := hbs.all id (by simp [hx])
  obtain ⟨-, hdisk⟩ := hbs.found blob hblob
  obtain rfl := Option.some.inj (hx.symm.trans hdisk)
  obtain ⟨r, hfile⟩ := hloads.blob blob hblob hlive
  obtain ⟨f, n, hf, hid, hfname, hname, hentry⟩ := hfile.file
  obtain ⟨length, valueLen, hlength, hcounters⟩ := hfile.counters
  obtain ⟨-, length', -, hlength'⟩ := h.whole _ _ hx
  obtain ⟨rfl, rfl⟩ := Prod.mk.inj (Option.some.inj (hlength.symm.trans hlength'))
  exact ⟨r, f, n, length, hname, hlength, hentry, hf, hid, hfname, hcounters⟩

/-- The marked blobs are asked to be deleted, and no other. -/
theorem mem_deletions (hbs : bs.Reads disk) (hloads : l.Loads bs.found)
    (hload : Free spdkFsLoad t (some (some l))) (ht : ∀ x ∈ t, Undisturbed disk x) :
    id ∈ deletions t ↔ ∃ x, disk id = some x ∧ x.isDeleted = true := by
  rw [spdkFsLoad_deletes hload ht, hloads.deleted]
  constructor
  · intro hmem
    obtain ⟨blob, hblob, rfl⟩ := List.mem_map.mp hmem
    obtain ⟨hblob, hdeleted⟩ := List.mem_filter.mp hblob
    exact ⟨_, (hbs.found blob hblob).2, hdeleted⟩
  · rintro ⟨x, hx, hdeleted⟩
    obtain ⟨blob, hblob, rfl⟩ := hbs.all id (by simp [hx])
    obtain rfl := Option.some.inj (hx.symm.trans (hbs.found blob hblob).2)
    exact List.mem_map_of_mem (List.mem_filter.mpr ⟨hblob, hdeleted⟩)

/-- What a load makes is ready. -/
theorem ready (h : Loadable disk) (hload : Free spdkFsLoad t (some (some l)))
    (ht : ∀ x ∈ t, Succeeds disk x) : Ready (l.mounted (afterLoad disk t)) := by
  have ht' : ∀ x ∈ t, Undisturbed disk x := fun x hx => (ht x hx).undisturbed
  obtain ⟨-, l', bs, hl, hbs, hloads⟩ := h.loads hload ht'
  obtain rfl := Option.some.inj (Option.some.inj hl)
  have hdisk : ∀ id, afterLoad disk t id = if id ∈ deletions t then none else disk id :=
    fun id => afterLoad_eq ht
  have hfile : ∀ r f, l.fs.files r = some f → ∃ blob ∈ bs.found, blob.isDeleted = false ∧
      disk blob.blobid = some ⟨blob.name, blob.length, false⟩ ∧ f.blobid = some blob.blobid ∧
        ∃ n, f.name = some n ∧ blob.name = some n ∧ l.fs.names n = some r := by
    intro r f hf
    obtain ⟨blob, hblob, hfile⟩ := hloads.file r (by simp [hf])
    obtain ⟨f', n, hf', hid, hfname, hname, hentry⟩ := hfile.file
    obtain rfl := Option.some.inj (hf.symm.trans hf')
    have hx := (hbs.found blob hblob).2
    rw [hfile.live] at hx
    exact ⟨blob, hblob, hfile.live, hx, hid, n, hfname, hname, hentry⟩
  refine ⟨hloads.initial, fun _ => rfl, fun r f hf => ?_, fun r r' f f' hf hf' hids => ?_,
    fun id hid => ?_, fun r => ?_⟩
  · obtain ⟨blob, hblob, hlive, hx, hid, n, hfname, hname, hentry⟩ := hfile r f hf
    obtain ⟨-, length, -, hlength⟩ := h.whole _ _ hx
    have hkept : blob.blobid ∉ deletions t := by
      intro hmem
      obtain ⟨y, hy, hdeleted⟩ := (mem_deletions hbs hloads hload ht').mp hmem
      obtain rfl := Option.some.inj (hx.symm.trans hy)
      cases hdeleted
    refine ⟨n, _, length, hfname, hid, hentry, ?_⟩
    change afterLoad disk t blob.blobid = _
    rw [hdisk, if_neg hkept, hx, hname, show blob.length = some (length, 8) from hlength]
  · -- One blob, so one name, so one file.
    obtain ⟨b, -, -, hx, hid, n, -, hname, hentry⟩ := hfile r f hf
    obtain ⟨b', -, -, hx', hid', n', -, hname', hentry'⟩ := hfile r' f' hf'
    have hblobs : b.blobid = b'.blobid :=
      Option.some.inj (hid.symm.trans (hids.trans hid'))
    rw [hblobs, hx'] at hx
    have hnames : b'.name = b.name := congrArg Xattrs.name (Option.some.inj hx)
    obtain rfl : n = n' := Option.some.inj (hname.symm.trans (hnames.symm.trans hname'))
    exact Option.some.inj (hentry.symm.trans hentry')
  · have hkept : id ∉ deletions t := by
      intro hmem
      refine hid ?_
      change afterLoad disk t id = none
      rw [hdisk, if_pos hmem]
    have hthere : disk id ≠ none := by
      intro hnone
      refine hid ?_
      change afterLoad disk t id = none
      rw [hdisk, if_neg hkept, hnone]
    obtain ⟨x, hx⟩ := Option.ne_none_iff_exists'.mp hthere
    have hlive : x.isDeleted = false := by
      by_contra hdeleted
      exact hkept ((mem_deletions hbs hloads hload ht').mpr ⟨x, hx, by simpa using hdeleted⟩)
    obtain ⟨r, f, n, length, -, -, -, hf, hfid, -⟩ := h.found hbs hloads hx hlive
    exact ⟨r, f, hf, hfid⟩
  · change r ∈ List.range l.fs.brk ↔ _
    rw [List.mem_range]
    exact (hloads.born r).symm

end Loadable

/-- After an unload, each blob is that of a file. -/
theorem Mounted.Stored.loadable {m : Mounted} {disk : BlobId → Option Xattrs} (h : m.Stored)
    (hunloads : Unloads m disk) : Loadable disk where
  whole id x hx := by
    obtain ⟨r, f, n, length, -, -, -, hname, hlength, -⟩ := h.onDisk hunloads hx
    exact ⟨n, length, hname, hlength⟩
  apart id id' x x' hx hx' _ _ hnames := by
    obtain ⟨r, f, n, -, hf, hid, hentry, hname, -⟩ := h.onDisk hunloads hx
    obtain ⟨r', f', n', -, hf', hid', hentry', hname', -⟩ := h.onDisk hunloads hx'
    obtain rfl : n = n' := Option.some.inj (hname.symm.trans (hnames.trans hname'))
    obtain rfl := Option.some.inj (hentry.symm.trans hentry')
    obtain rfl := Option.some.inj (hf.symm.trans hf')
    exact Option.some.inj (hid.symm.trans hid')

end Nbfs.Fs
