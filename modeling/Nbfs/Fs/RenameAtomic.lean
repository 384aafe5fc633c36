import Nbfs.Fs.Atomic

set_option autoImplicit false

/-!
# Renames that fail

A rename to a name that has a file first deletes that file, and whether the deletion
succeeded, or whether there is anything to rename, is looked at only afterwards or not
at all.
-/

namespace Nbfs.Fs

open Nbfs.Lib Store

/-- Every name has the file it had, no blob is gone and no file is newly marked. -/
structure Undone (s s' : Store) : Prop where
  names : s'.fs.names = s.fs.names
  blobs : ∀ blobid, s.blobs blobid = true → s'.blobs blobid = true
  marked : ∀ r f', s'.fs.files r = some f' → f'.isDeleted = true →
    ∃ f, s.fs.files r = some f ∧ f.isDeleted = true

/-- A rename that fails is undone, and one to the same name leaves the file in place. -/
structure RenameAtomic (s s' : Store) (oldName newName : CString) (cb : CallRef) : Prop where
  undone : ∀ fserrno, Completes s s' cb fserrno → fserrno ≠ 0 → Undone s s'
  same : oldName = newName → ∀ r f, s.fs.names oldName = some r → s.fs.files r = some f →
    s'.fs.names oldName = some r ∧ (∃ f', s'.fs.files r = some f' ∧ f'.isDeleted = f.isDeleted) ∧
      ∀ blobid, f.blobid = some blobid → s'.blobs blobid = s.blobs blobid

/-- The rename destroys what has the new name: its deletion gets a request, and the file
is closed or not marked yet. -/
def Destroys (s : Filesystem) (newName : CString) (deleteMem : Memory) : Prop :=
  ∃ r f, s.names newName = some r ∧ s.files r = some f ∧ deleteMem.request = true ∧
    (f.refCount = 0 ∨ f.isDeleted = false)

/-- The last operation of the blobstore succeeds: the close of the renamed file's blob. -/
def LastSucceeds (answers : List (Answer × Memory)) : Prop :=
  ∀ a ∈ answers.getLast?, a.1.bserrno = 0

/-- A rename that is refused or finds nothing to rename or to destroy, or one that ends
well and does not destroy what it renames. -/
def RenameKeeps (s : Filesystem) (oldName newName : CString) (mem deleteMem : Memory)
    (answers : List (Answer × Memory)) : Prop :=
  spdkFileNameMax < newName.strlen ∨ mem.request = false ∨
    ¬ Destroys s newName deleteMem ∧
        (s.names oldName = none ∨ oldName = newName ∨ LastSucceeds answers) ∨
      Destroys s newName deleteMem ∧ oldName ≠ newName ∧ s.names oldName ≠ none ∧
        LastSucceeds answers

section rename

variable {n : Nat} {fs fs' : Filesystem} {blobs : BlobId → Bool} {s s' : Store} {r : FileRef}
  {answers : List (Answer × Memory)} {cb : CallRef} {oldName newName : CString}
  {mem deleteMem : Memory}

/-- What a rename does to the names, from the file's entry on. -/
def moved (names : CString → Option FileRef) (oldName newName : CString) (r : FileRef) :
    CString → Option FileRef :=
  BplusTree.insertName (BplusTree.removeName names oldName) newName r

theorem moved_self {names : CString → Option FileRef} (h : names oldName = some r) :
    moved names oldName oldName r = names := by
  funext n
  unfold moved
  by_cases hn : n = oldName
  · subst hn
    rw [BplusTree.insertName_self, BplusTree.removeName, Function.update_self, h]
    rfl
  · rw [BplusTree.insertName_of_ne _ hn, BplusTree.removeName, Function.update_of_ne hn]

theorem moved_old {names : CString → Option FileRef} (h : oldName ≠ newName) :
    moved names oldName newName r oldName = none := by
  unfold moved
  rw [BplusTree.insertName_of_ne _ h, BplusTree.removeName, Function.update_self]

/-- From `_fs_md_rename_file` on: nothing is found, or the entry is moved and the result is
that of the blob's close. -/
theorem mdRename_ends (hkeyed : Keyed fs) (hn : fs.pending.length = n)
    (hrename : fs.fsMdRenameFile oldName newName cb = .ok fs')
    (h : finish n answers ⟨fs', blobs⟩ = .ok s') :
    fs.names oldName = none ∧ s' = ⟨fs.reply cb (-enoent), blobs⟩ ∨
      ∃ r f a, fs.names oldName = some r ∧ fs.files r = some f ∧
        s'.fs.names = moved fs.names oldName newName r ∧
        s'.fs.files = (fs.setFile r { f with name := some newName }).files ∧
        s'.blobs = blobs ∧ answers.getLast? = some a ∧
        s'.fs.replies = fs.replies ++ [⟨cb, a.1.bserrno, none⟩] := by
  rcases Filesystem.fsMdRenameFile_ok hrename with
    ⟨hnone, rfl⟩ | ⟨r, f, name, hold, hf, hname, rfl⟩
  · obtain ⟨-, rfl⟩ := (finish_reply hn).mp h
    exact Or.inl ⟨hnone, rfl⟩
  obtain ⟨rfl, -⟩ := hkeyed.inj hf hname hold hold
  have hn' : ({ fs with
      names := BplusTree.insertName (BplusTree.removeName fs.names oldName) newName r
    }.setFile r { f with name := some newName }).pending.length = n := hn
  obtain ⟨opened, mem, rest, fs₁, rfl, -, hresume, hrest⟩ := (finish_send hn').mp h
  simp only [BsOp.resume, Filesystem.fsRenameBlobOpenCb] at hresume
  split at hresume
  · cases hresume
  obtain rfl := Except.ok.inj hresume
  obtain ⟨closed, mem', rest', fs₂, rfl, -, hclosed, hrest'⟩ := (finish_send hn').mp hrest
  obtain rfl := Except.ok.inj hclosed
  obtain ⟨rfl, rfl⟩ := (finish_reply hn').mp hrest'
  exact Or.inr ⟨r, f, (closed, mem'), hold, hf, rfl, rfl, rfl, rfl, rfl⟩

/-- The error that a completed request was called back with. -/
theorem completes_unique {fserrno fserrno' : Int} (h : Completes s s' cb fserrno)
    (h' : Completes s s' cb fserrno') : fserrno = fserrno' := by
  have hreplies := List.append_cancel_left (h.symm.trans h')
  exact (Reply.mk.inj (List.cons.inj hreplies).1).2.1

/-- A rename that destroys nothing: `fs` differs from the state before the call in nothing
that is to be kept. -/
theorem renameAtomic_kept (before : List (Answer × Memory)) (hkeyed : Keyed fs)
    (hn : fs.pending.length = n)
    (hfiles : fs.files = s.fs.files) (hnames : fs.names = s.fs.names)
    (hreplies : fs.replies = s.fs.replies) (hblobs : blobs = s.blobs)
    (hrename : fs.fsMdRenameFile oldName newName cb = .ok fs')
    (h : finish n answers ⟨fs', blobs⟩ = .ok s') :
    RenameAtomic s s' oldName newName cb ↔
      s.fs.names oldName = none ∨ oldName = newName ∨ LastSucceeds (before ++ answers) := by
  rcases mdRename_ends hkeyed hn hrename h with
    ⟨hnone, rfl⟩ | ⟨r, f, a, hold, hf, hmoved, hset, hsame, hlast, hreply⟩
  · rw [hnames] at hnone
    refine iff_of_true ⟨fun _ _ _ => ⟨hnames, fun _ => ?_, fun r f' hf' hmark => ?_⟩, ?_⟩
      (Or.inl hnone)
    · rw [hblobs]
      exact id
    · exact ⟨f', hfiles ▸ hf', hmark⟩
    · rintro - r f hr
      cases hnone.symm.trans hr
  rw [hnames] at hold hmoved
  rw [hfiles] at hf
  rw [or_iff_right (by simp [hold])]
  have hdone : Completes s s' cb a.1.bserrno := by
    rw [Completes, hreply, hreplies]
  have hkeeps : ∀ r' f', s'.fs.files r' = some f' →
      ∃ f, s.fs.files r' = some f ∧ f'.isDeleted = f.isDeleted := by
    intro r' f' hf'
    rw [hset] at hf'
    by_cases hr : r' = r
    · subst hr
      rw [Filesystem.setFile_files_self, Option.some.injEq] at hf'
      exact ⟨f, hf, hf' ▸ rfl⟩
    · rw [Filesystem.setFile_files_ne _ hr, hfiles] at hf'
      exact ⟨f', hf', rfl⟩
  have hblobs' : s'.blobs = s.blobs := hsame.trans hblobs
  have hundone : s'.fs.names = s.fs.names → Undone s s' := fun hsame' =>
    ⟨hsame', fun blobid => by rw [hblobs']; exact id, fun r' f' hf' hmark => by
      obtain ⟨f, hf, heq⟩ := hkeeps r' f' hf'
      exact ⟨f, hf, heq ▸ hmark⟩⟩
  by_cases heq : oldName = newName
  · subst heq
    rw [moved_self hold] at hmoved
    refine iff_of_true ⟨fun _ _ _ => hundone hmoved, fun _ r' f' hr' hf' => ?_⟩ (Or.inl rfl)
    obtain rfl := Option.some.inj (hold.symm.trans hr')
    obtain rfl := Option.some.inj (hf.symm.trans hf')
    refine ⟨hmoved ▸ hold, ⟨{ f with name := some oldName }, ?_, rfl⟩,
      fun blobid _ => by rw [hblobs']⟩
    rw [hset, Filesystem.setFile_files_self]
  · rw [or_iff_right heq, LastSucceeds, List.getLast?_append, hlast, Option.some_or]
    constructor
    · intro hatomic a' ha'
      obtain rfl := Option.some.inj ha'
      by_contra hne
      have hlost := congrFun ((hatomic.undone _ hdone hne).names.symm.trans hmoved) oldName
      rw [moved_old heq, hold] at hlost
      cases hlost
    · intro hzero
      refine ⟨fun fserrno hdone' hne => ?_, fun heq' => absurd heq' heq⟩
      exact absurd ((completes_unique hdone' hdone).trans (hzero a rfl)) hne

/-- A rename that destroys the file `t`: after the deletion `fs` does not have its name, or
has it marked. -/
theorem renameAtomic_destroyed (before : List (Answer × Memory)) (hkeyed : Keyed fs)
    (hn : fs.pending.length = n) {t : FileRef} {f : SpdkFile}
    (htarget : s.fs.names newName = some t) (hf : s.fs.files t = some f)
    (hnames : ∀ name, name ≠ newName → fs.names name = s.fs.names name)
    (hreplies : fs.replies = s.fs.replies)
    (hgone : fs.names newName = none ∨ f.isDeleted = false ∧ fs.names newName = some t ∧
      ∃ f', fs.files t = some f' ∧ f'.isDeleted = true)
    (hrename : fs.fsMdRenameFile oldName newName cb = .ok fs')
    (h : finish n answers ⟨fs', blobs⟩ = .ok s') :
    RenameAtomic s s' oldName newName cb ↔
      oldName ≠ newName ∧ s.fs.names oldName ≠ none ∧ LastSucceeds (before ++ answers) := by
  have hends := mdRename_ends hkeyed hn hrename h
  by_cases heq : oldName = newName
  · -- The file was to be renamed to its own name.
    subst heq
    refine iff_of_false (fun hatomic => ?_) fun hkeeps => hkeeps.1 rfl
    obtain ⟨hsame, ⟨f', hf', hmark⟩, -⟩ := hatomic.same rfl t f htarget hf
    rcases hends with ⟨hnone, rfl⟩ | ⟨r, g, a, hold, hg, -, hset, -⟩
    · cases hnone.symm.trans hsame
    rcases hgone with hnone | ⟨hunmarked, hsome, f'', hf'', hmark'⟩
    · cases hnone.symm.trans hold
    obtain rfl := Option.some.inj (hsome.symm.trans hold)
    obtain rfl := Option.some.inj (hg.symm.trans hf'')
    rw [hset, Filesystem.setFile_files_self, Option.some.injEq] at hf'
    subst hf'
    cases hmark'.symm.trans (hmark.trans hunmarked)
  rw [and_iff_right heq]
  rcases hends with ⟨hnone, rfl⟩ | ⟨r, g, a, hold, -, hmoved, -, -, hlast, hreply⟩
  · -- There is nothing to rename.
    rw [hnames oldName heq] at hnone
    refine iff_of_false (fun hatomic => ?_) fun hkeeps => hkeeps.1 hnone
    have hundone := hatomic.undone (-enoent) (by rw [Completes, ← hreplies]; rfl) (by decide)
    rcases hgone with hlost | ⟨hunmarked, -, f', hf', hmark⟩
    · cases (hlost.symm.trans (congrFun hundone.names newName)).trans htarget
    · obtain ⟨g, hg, hmark'⟩ := hundone.marked t f' hf' hmark
      obtain rfl := Option.some.inj (hf.symm.trans hg)
      cases hunmarked.symm.trans hmark'
  · rw [hnames oldName heq] at hold
    have hdone : Completes s s' cb a.1.bserrno := by
      rw [Completes, hreply, hreplies]
    rw [and_iff_right (by simp [hold]), LastSucceeds, List.getLast?_append, hlast, Option.some_or]
    constructor
    · intro hatomic a' ha'
      obtain rfl := Option.some.inj ha'
      by_contra hne
      have hlost := congrFun ((hatomic.undone _ hdone hne).names.symm.trans hmoved) oldName
      rw [moved_old heq, hold] at hlost
      cases hlost
    · intro hzero
      refine ⟨fun fserrno hdone' hne => ?_, fun heq' => absurd heq' heq⟩
      exact absurd ((completes_unique hdone' hdone).trans (hzero a rfl)) hne

/-- A rename is atomic on error, and leaves a file in place that is renamed to its own name,
if and only if `RenameKeeps`. -/
theorem renameAtomic_iff (hreachable : Reachable s)
    (h : s.alone (.rename oldName newName cb mem deleteMem) answers = .ok s') :
    RenameAtomic s s' oldName newName cb ↔
      RenameKeeps s.fs oldName newName mem deleteMem answers := by
  have hkeyed := hreachable.keyed
  obtain ⟨s₁, hstep, hfinish⟩ := bind_ok.mp h
  obtain ⟨fs, hrename, hs₁⟩ := bind_ok.mp hstep
  obtain rfl := Except.ok.inj hs₁
  have hrefused : ∀ {fserrno : Int}, fs = s.fs.reply cb fserrno →
      RenameAtomic s s' oldName newName cb := by
    rintro fserrno rfl
    obtain ⟨-, rfl⟩ := (finish_reply rfl).mp hfinish
    exact ⟨fun _ _ _ => ⟨rfl, fun _ => id, fun r f hf hmark => ⟨f, hf, hmark⟩⟩,
      fun _ r f hr hf => ⟨hr, ⟨f, hf, rfl⟩, fun _ _ => rfl⟩⟩
  unfold Filesystem.spdkFsRenameFileAsync at hrename
  unfold RenameKeeps
  split at hrename
  · rename_i hlong
    exact iff_of_true (hrefused (Except.ok.inj hrename).symm) (Or.inl hlong)
  rename_i hshort
  rw [or_iff_right hshort]
  split at hrename
  · rename_i hrequest
    exact iff_of_true (hrefused (Except.ok.inj hrename).symm) (Or.inl hrequest)
  rename_i hrequest
  rw [or_iff_right hrequest]
  have hkept : ¬ Destroys s.fs newName deleteMem →
      ((¬ Destroys s.fs newName deleteMem ∧
          (s.fs.names oldName = none ∨ oldName = newName ∨ LastSucceeds answers) ∨
        Destroys s.fs newName deleteMem ∧ oldName ≠ newName ∧ s.fs.names oldName ≠ none ∧
          LastSucceeds answers) ↔
        (s.fs.names oldName = none ∨ oldName = newName ∨ LastSucceeds answers)) := by
    intro hno
    simp only [hno, not_false_eq_true, true_and, false_and, or_false]
  split at hrename
  · -- No file has the new name.
    rename_i hnone
    rw [hkept fun ⟨r, f, hr, _⟩ => nomatch hnone.symm.trans hr]
    exact renameAtomic_kept [] hkeyed rfl rfl rfl rfl rfl hrename hfinish
  rename_i t htarget
  rcases delete_found hshort htarget hrename with ⟨hnoRequest, hcall⟩ | ⟨hyes, f, hf, hcases⟩
  · -- The deletion gets no request, and nobody looks at its error.
    rw [hkept fun ⟨_, _, _, _, hyes, _⟩ => nomatch hnoRequest.symm.trans hyes]
    exact renameAtomic_kept [] hkeyed rfl rfl rfl rfl rfl hcall hfinish
  rcases hcases with ⟨blob, href, rfl⟩ | ⟨filename, href, hfilename, rfl⟩
  · -- The file is open: it is marked.
    have hset : Keyed (s.fs.setFile t { f with isDeleted := true }) := hkeyed.setFile hf rfl
    have hn : (s.fs.setFile t { f with isDeleted := true }).pending.length =
      s.fs.pending.length := rfl
    obtain ⟨answer, _, rest, fs', rfl, -, hresume, hrest⟩ := (finish_send hn).mp hfinish
    by_cases hmarked : f.isDeleted = true
    · -- It was marked before.
      have hsame : (s.fs.setFile t { f with isDeleted := true }).files = s.fs.files := by
        rw [← hmarked]
        exact Function.update_eq_self_iff.mpr hf.symm
      rw [hkept ?_]
      · exact renameAtomic_kept [(answer, _)] hset hn hsame rfl rfl rfl hresume hrest
      · rintro ⟨r, g, hr, hg, -, hcases⟩
        obtain rfl := Option.some.inj (htarget.symm.trans hr)
        obtain rfl := Option.some.inj (hf.symm.trans hg)
        rcases hcases with hzero | hfalse
        · omega
        · cases hmarked.symm.trans hfalse
    · have hunmarked : f.isDeleted = false := by simpa using hmarked
      have hdestroys : Destroys s.fs newName deleteMem :=
        ⟨t, f, htarget, hf, hyes, Or.inr hunmarked⟩
      simp only [hdestroys, not_true_eq_false, false_and, true_and, false_or]
      exact renameAtomic_destroyed [(answer, _)] hset hn htarget hf (fun _ _ => rfl) rfl
        (Or.inr ⟨hunmarked, htarget, _, Filesystem.setFile_files_self .., rfl⟩) hresume hrest
  · -- The file is closed: it is freed and leaves the tree.
    obtain ⟨rfl, -⟩ := hkeyed.inj hf hfilename htarget htarget
    have hfree := hkeyed.fileFree htarget hf hfilename
    have hn : ({ s.fs.fileFree t with names := BplusTree.removeName s.fs.names newName } :
      Filesystem).pending.length = s.fs.pending.length := rfl
    obtain ⟨answer, _, rest, fs', rfl, -, hresume, hrest⟩ := (finish_send hn).mp hfinish
    have hdestroys : Destroys s.fs newName deleteMem := ⟨t, f, htarget, hf, hyes, Or.inl href⟩
    simp only [hdestroys, not_true_eq_false, false_and, true_and, false_or]
    exact renameAtomic_destroyed [(answer, _)] hfree hn htarget hf
      (fun name hne => Function.update_of_ne hne ..) rfl (Or.inl (Function.update_self ..))
      hresume hrest

end rename

/-- `"a"` is renamed to its own name: it is deleted, and there is nothing to rename. -/
theorem renameAtomic_self : ¬ ∀ s s' oldName newName cb mem deleteMem answers, Reachable s →
    s.alone (.rename oldName newName cb mem deleteMem) answers = .ok s' →
      RenameAtomic s s' oldName newName cb := by
  intro hall
  have hrename : storeA.alone (.rename nameA nameA 1 plenty plenty) [done 0 0] = .ok _ := rfl
  have hatomic := hall _ _ _ _ _ _ _ _ storeA_reachable hrename
  cases (hatomic.same rfl 0 fileA rfl rfl).1

/-- `"a"` becomes `"b"`. -/
theorem renameAtomic_iff_done : ∃ s',
    storeA.alone (.rename nameA nameB 1 plenty plenty) [done 0 3, done 0 3] = .ok s' ∧
      RenameAtomic storeA s' nameA nameB 1 := by
  have hrename : storeA.alone (.rename nameA nameB 1 plenty plenty) [done 0 3, done 0 3] =
    .ok _ := rfl
  refine ⟨_, hrename, (renameAtomic_iff storeA_reachable hrename).mpr ?_⟩
  have hfree : ¬ Destroys storeA.fs nameB plenty := fun ⟨r, f, hr, _⟩ => nomatch hr
  refine Or.inr (Or.inr (Or.inl ⟨hfree, Or.inr (Or.inr fun a ha => ?_)⟩))
  obtain rfl := Option.some.inj ha
  rfl

end Nbfs.Fs
