import Nbfs.Fs.AtRest
import Nbfs.Fs.RenameAtomic

set_option autoImplicit false

/-!
# Renames that succeed

A rename should move one entry and leave the file where the new name finds it.  When the
file that has the new name is open it is only marked, its entry stays, and the insertion
of the renamed file is ignored.
-/

namespace Nbfs.Fs

open Nbfs.Lib Store

/-- An open of the name, run to completion, ends with the file that has it. -/
def Store.Opens (s : Store) (name : CString) : Prop :=
  ∀ create cb mem, mem.request = true → ∃ r answers s', s.fs.names name = some r ∧
    Calls s (.event (.open name create cb mem), answers) s' ∧
      s'.fs.replies = s.fs.replies ++ [⟨cb, 0, some r⟩]

/-- The entry of the old name is moved to the new name, where the file can be opened. -/
structure MovesEntry (s s' : Store) (oldName newName : CString) : Prop where
  found : s'.fs.names newName = s.fs.names oldName
  gone : s'.fs.names oldName = none
  opens : s'.Opens newName
  others : ∀ n, n ≠ oldName → n ≠ newName → s'.fs.names n = s.fs.names n

/-- A file that can be opened: it is not marked, and the references to it have not been
counted around to 0. -/
def SpdkFile.Openable (f : SpdkFile) : Prop :=
  f.isDeleted = false ∧ (f.refCount = 0 → f.blob = none)

/-- No file has the new name, or one that is closed and whose deletion gets a request. -/
def Filesystem.Vacated (s : Filesystem) (newName : CString) (deleteMem : Memory) : Prop :=
  s.names newName = none ∨ deleteMem.request = true ∧ ¬ s.IsOpen newName

/-- The file can be opened, and the new name is free or becomes so. -/
def Movable (s : Filesystem) (oldName newName : CString) (deleteMem : Memory) : Prop :=
  (∃ r f, s.names oldName = some r ∧ s.files r = some f ∧ f.Openable) ∧
    s.Vacated newName deleteMem

section opens

variable {s : Store} {name : CString} {r : FileRef} {f : SpdkFile}

/-- The open of a file that is in the tree. -/
theorem open_found {create : Bool} {cb : CallRef} {mem : Memory} {answers : List (Answer × Memory)}
    {s' : Store} (hshort : ¬ spdkFileNameMax < name.strlen) (hname : s.fs.names name = some r)
    (hf : s.fs.files r = some f) (hrequest : mem.request = true) :
    s.alone (.event (.open name create cb mem)) answers = .ok s' ↔
      ∃ fs, (if f.isDeleted then .ok (s.fs.reply cb (-enoent))
          else s.fs.fsOpenBlobCreateCb (some r) name cb) = .ok fs ∧
        finish s.fs.pending.length answers ⟨fs, s.blobs⟩ = .ok s' := by
  have hopen : s.fs.spdkFsOpenFileAsync name create cb mem =
      if f.isDeleted then .ok (s.fs.reply cb (-enoent))
        else s.fs.fsOpenBlobCreateCb (some r) name cb := by
    have hfile : s.fs.file r = .ok f := Filesystem.file_ok.mpr hf
    unfold Filesystem.spdkFsOpenFileAsync
    rw [if_neg hshort, hname]
    simp only [hfile, hrequest]
    rfl
  constructor
  · intro h
    obtain ⟨s₁, hstep, hfinish⟩ := bind_ok.mp h
    obtain ⟨fs, hfs, hs₁⟩ := bind_ok.mp hstep
    obtain rfl := Except.ok.inj hs₁
    exact ⟨fs, hopen ▸ hfs, hfinish⟩
  · rintro ⟨fs, hfs, hfinish⟩
    exact bind_ok.mpr ⟨⟨fs, s.blobs⟩, bind_ok.mpr ⟨fs, hopen.trans hfs, rfl⟩, hfinish⟩

/-- What an open leaves of the filesystem, once the file has its blob. -/
def Filesystem.delivered (s : Filesystem) (r : FileRef) (f : SpdkFile) (cb : CallRef)
    (blob : Option BlobRef) : Filesystem :=
  { (s.setFile r (f.opened cb)).setFile r { f.opened cb with blob, openRequests := [] } with
    replies := s.replies ++ [⟨cb, 0, some r⟩]
    handles := s.handles ++ [r] }

/-- The blob of the file is opened, or there. -/
theorem fsOpenBlobDone_opened {fs : Filesystem} {cb : CallRef} (hqueue : f.openRequests = [])
    (blob : Option BlobRef) :
    (fs.setFile r (f.opened cb)).fsOpenBlobDone r blob 0 = .ok (fs.delivered r f cb blob) := by
  have hself : (fs.setFile r (f.opened cb)).file r = .ok (f.opened cb) :=
    Filesystem.file_ok.mpr (Filesystem.setFile_files_self ..)
  have hopened : (f.opened cb).openRequests = [cb] := by
    simp [SpdkFile.opened, hqueue]
  refine bind_ok.mpr ⟨f.opened cb, hself, ?_⟩
  rw [if_pos rfl, hopened]
  rfl

/-- The first open of a file asks for its blob. -/
theorem fsOpenBlobCreateCb_first {fs : Filesystem} {cb : CallRef} (hf : fs.files r = some f)
    (hzero : f.refCount = 0) (hblob : f.blob = none) :
    fs.fsOpenBlobCreateCb (some r) name cb =
      .ok ((fs.setFile r (f.opened cb)).send (.openBlob r f.blobid)) := by
  have hone : (f.opened cb).refCount = 1 := by
    simp [SpdkFile.opened, hzero]
  have hnone : (f.opened cb).blob = none := hblob
  refine bind_ok.mpr ⟨r, rfl, bind_ok.mpr ⟨f, Filesystem.file_ok.mpr hf, ?_⟩⟩
  simp only [hone, if_true, hnone]
  rfl

/-- A later one has it. -/
theorem fsOpenBlobCreateCb_again {fs : Filesystem} {cb : CallRef} (hf : fs.files r = some f)
    (hrests : f.Rests) (hpos : f.refCount ≠ 0) :
    fs.fsOpenBlobCreateCb (some r) name cb = .ok (fs.delivered r f cb f.blob) := by
  have hne : (f.opened cb).refCount ≠ 1 := by
    have hlt := hrests.count
    simp only [SpdkFile.opened]
    omega
  have hsome : (f.opened cb).blob.isSome = true :=
    Option.isSome_iff_ne_none.mpr (hrests.blob hpos)
  refine bind_ok.mpr ⟨r, rfl, bind_ok.mpr ⟨f, Filesystem.file_ok.mpr hf, ?_⟩⟩
  simp only [if_neg hne, if_pos hsome]
  exact fsOpenBlobDone_opened hrests.queue f.blob

/-- Which files can be opened. -/
theorem opens_iff (hrests : s.fs.Rests) (hshort : ¬ spdkFileNameMax < name.strlen)
    (hname : s.fs.names name = some r) (hf : s.fs.files r = some f) :
    s.Opens name ↔ f.Openable := by
  have hfrests := hrests.files r f hf
  constructor
  · intro hopens
    obtain ⟨r', answers, s', hname', ⟨-, halone⟩, hreplies⟩ := hopens false 0 plenty rfl
    obtain ⟨fs, hfs, hfinish⟩ := (open_found hshort hname hf rfl).mp halone
    by_cases hdeleted : f.isDeleted = true
    · rw [if_pos hdeleted] at hfs
      obtain rfl := Except.ok.inj hfs
      obtain ⟨-, rfl⟩ := (finish_reply rfl).mp hfinish
      have hreply := (List.cons.inj (List.append_cancel_left hreplies)).1
      cases (Reply.mk.inj hreply).2.2
    · rw [if_neg hdeleted] at hfs
      refine ⟨by simpa using hdeleted, fun hzero => ?_⟩
      obtain ⟨_, old, hr, hold, hcases⟩ := Filesystem.fsOpenBlobCreateCb_ok hfs
      obtain rfl := Except.ok.inj hr
      obtain rfl := Option.some.inj (hf.symm.trans hold)
      have hone : (f.opened 0).refCount = 1 := by
        simp [SpdkFile.opened, hzero]
      rcases hcases with ⟨-, hblob, -⟩ | ⟨hne, -⟩ | ⟨hne, -⟩
      · exact hblob
      · exact absurd hone hne
      · exact absurd hone hne
  · rintro ⟨hunmarked, hblob⟩ create cb mem hrequest
    by_cases hzero : f.refCount = 0
    · have hopen : s.fs.fsOpenBlobCreateCb (some r) name cb = _ :=
        fsOpenBlobCreateCb_first hf hzero (hblob hzero)
      have hdone : (s.fs.setFile r (f.opened cb)).fsOpenBlobDone r (some 0) 0 = _ :=
        fsOpenBlobDone_opened hfrests.queue (some 0)
      have hn : (s.fs.setFile r (f.opened cb)).pending.length = s.fs.pending.length := rfl
      have hfinish : finish s.fs.pending.length [done 0 0]
          ⟨(s.fs.setFile r (f.opened cb)).send (.openBlob r f.blobid), s.blobs⟩ =
            .ok ⟨s.fs.delivered r f cb (some 0), s.blobs⟩ :=
        (finish_send hn).mpr ⟨_, _, [], _, rfl, rfl, hdone, (finish_done rfl).mpr ⟨rfl, rfl⟩⟩
      refine ⟨r, _, _, hname, ⟨?_, (open_found hshort hname hf hrequest).mpr
        ⟨_, ?_, hfinish⟩⟩, rfl⟩
      · simp [done]
      · rw [hunmarked]
        exact hopen
    · have hopen : s.fs.fsOpenBlobCreateCb (some r) name cb = _ :=
        fsOpenBlobCreateCb_again hf hfrests hzero
      have hfinish : finish s.fs.pending.length [] ⟨s.fs.delivered r f cb f.blob, s.blobs⟩ =
          .ok ⟨s.fs.delivered r f cb f.blob, s.blobs⟩ :=
        (finish_done rfl).mpr ⟨rfl, rfl⟩
      refine ⟨r, _, _, hname, ⟨allSucceed_nil, (open_found hshort hname hf hrequest).mpr
        ⟨_, ?_, hfinish⟩⟩, rfl⟩
      rw [hunmarked]
      exact hopen

end opens

section rename

variable {n : Nat} {fs fs' : Filesystem} {blobs : BlobId → Bool} {s s' : Store} {r : FileRef}
  {answers : List (Answer × Memory)} {cb : CallRef} {oldName newName : CString}
  {mem deleteMem : Memory}

theorem moved_new {names : CString → Option FileRef} (h : oldName ≠ newName) :
    moved names oldName newName r newName = some ((names newName).getD r) := by
  unfold moved
  rw [BplusTree.insertName_self, BplusTree.removeName, Function.update_of_ne h.symm]

theorem moved_other {names : CString → Option FileRef} {n : CString} (hold : n ≠ oldName)
    (hnew : n ≠ newName) : moved names oldName newName r n = names n := by
  unfold moved
  rw [BplusTree.insertName_of_ne _ hnew, BplusTree.removeName, Function.update_of_ne hold]

/-- What a rename leaves that ended with 0, `fs` being what `_fs_md_rename_file` found. -/
structure Renamed (fs : Filesystem) (s' : Store) (oldName newName : CString) (r : FileRef)
    (f : SpdkFile) : Prop where
  entry : fs.names oldName = some r
  file : fs.files r = some f
  name : f.name = some oldName
  names : s'.fs.names = moved fs.names oldName newName r
  renamed : s'.fs.files r = some { f with name := some newName }

/-- From `_fs_md_rename_file` on, the rename ends with 0. -/
theorem mdRename_renamed (hkeyed : Keyed fs) (hn : fs.pending.length = n)
    (hreplies : fs.replies = s.fs.replies)
    (hrename : fs.fsMdRenameFile oldName newName cb = .ok fs')
    (h : finish n answers ⟨fs', blobs⟩ = .ok s') (hdone : Completes s s' cb 0) :
    ∃ r f, Renamed fs s' oldName newName r f := by
  rcases mdRename_ends hkeyed hn hrename h with
    ⟨-, rfl⟩ | ⟨r, f, a, hold, hf, hmoved, hset, -⟩
  · have hrefused : Completes s ⟨fs.reply cb (-enoent), blobs⟩ cb (-enoent) :=
      (completes_reply hreplies).mpr rfl
    cases completes_unique hdone hrefused
  · refine ⟨r, f, hold, hf, ?_, hmoved, ?_⟩
    · rcases Filesystem.fsMdRenameFile_ok hrename with
        ⟨hnone, -⟩ | ⟨r', f', name, hold', hf', hname, -⟩
      · cases hnone.symm.trans hold
      · obtain rfl := Option.some.inj (hold.symm.trans hold')
        obtain rfl := Option.some.inj (hf.symm.trans hf')
        rw [(hkeyed.inj hf hname hold hold).1]
        exact hname
    · rw [hset, Filesystem.setFile_files_self]

/-- A rename that ended with 0 had a file to rename.  Its entry was moved if the new name
was vacated; else the entry of the new name stayed. -/
theorem rename_renamed (hkeyed : Keyed s.fs) (hne : oldName ≠ newName)
    (h : s.alone (.rename oldName newName cb mem deleteMem) answers = .ok s')
    (hdone : Completes s s' cb 0) :
    ¬ spdkFileNameMax < newName.strlen ∧ ∃ r f names, s.fs.names oldName = some r ∧
      s.fs.files r = some f ∧ s'.fs.files r = some { f with name := some newName } ∧
        s'.fs.names = moved names oldName newName r ∧ (∀ n, n ≠ newName → names n = s.fs.names n) ∧
          (s.fs.Vacated newName deleteMem ∧ names newName = none ∨
            ¬ s.fs.Vacated newName deleteMem ∧ ∃ t, t ≠ r ∧ names newName = some t) := by
  obtain ⟨s₁, hstep, hfinish⟩ := bind_ok.mp h
  obtain ⟨fs, hrename, hs₁⟩ := bind_ok.mp hstep
  obtain rfl := Except.ok.inj hs₁
  have hrefused : ∀ {fserrno : Int}, fserrno ≠ 0 → fs ≠ s.fs.reply cb fserrno := by
    rintro fserrno hzero rfl
    obtain ⟨-, rfl⟩ := (finish_reply rfl).mp hfinish
    have hreply : Completes s ⟨s.fs.reply cb fserrno, s.blobs⟩ cb fserrno := rfl
    exact hzero (completes_unique hreply hdone)
  unfold Filesystem.spdkFsRenameFileAsync at hrename
  split at hrename
  · exact absurd (Except.ok.inj hrename).symm (hrefused (by decide))
  rename_i hshort
  refine ⟨hshort, ?_⟩
  split at hrename
  · exact absurd (Except.ok.inj hrename).symm (hrefused (by decide))
  split at hrename
  · -- No file has the new name.
    rename_i hnone
    obtain ⟨r, f, hr⟩ := mdRename_renamed hkeyed rfl rfl hrename hfinish hdone
    exact ⟨r, f, s.fs.names, hr.entry, hr.file, hr.renamed, hr.names, fun _ _ => rfl,
      Or.inl ⟨Or.inl hnone, hnone⟩⟩
  rename_i t htarget
  have hstays : ∀ {fs : Filesystem} {r f}, Keyed fs → fs.names newName = some t →
      Renamed fs s' oldName newName r f → t ≠ r := by
    rintro fs r f hkeyed' htarget' hr rfl
    exact hne (hkeyed'.inj hr.file hr.name hr.entry htarget').2.symm
  rcases delete_found hshort htarget hrename with ⟨hnoRequest, hcall⟩ | ⟨hyes, f, hf, hcases⟩
  · -- The deletion gets no request, and nobody looks at its error.
    obtain ⟨r, f, hr⟩ := mdRename_renamed hkeyed rfl rfl hcall hfinish hdone
    refine ⟨r, f, s.fs.names, hr.entry, hr.file, hr.renamed, hr.names, fun _ _ => rfl,
      Or.inr ⟨?_, t, hstays hkeyed htarget hr, htarget⟩⟩
    rintro (hnone | ⟨hrequest, -⟩)
    · cases hnone.symm.trans htarget
    · cases hnoRequest.symm.trans hrequest
  rcases hcases with ⟨blob, hpos, rfl⟩ | ⟨filename, hzero, hfilename, rfl⟩
  · -- The file is open: it is marked, and keeps its entry.
    have hset : Keyed (s.fs.setFile t { f with isDeleted := true }) := hkeyed.setFile hf rfl
    have hn : (s.fs.setFile t { f with isDeleted := true }).pending.length =
      s.fs.pending.length := rfl
    obtain ⟨answer, _, rest, fs', rfl, -, hresume, hrest⟩ := (finish_send hn).mp hfinish
    obtain ⟨r, g, hr⟩ := mdRename_renamed hset hn rfl hresume hrest hdone
    have htr := hstays hset htarget hr
    have hg : s.fs.files r = some g := (Filesystem.setFile_files_ne _ htr.symm).symm.trans hr.file
    refine ⟨r, g, s.fs.names, hr.entry, hg, hr.renamed, hr.names, fun _ _ => rfl,
      Or.inr ⟨?_, t, htr, htarget⟩⟩
    rintro (hnone | ⟨-, hclosed⟩)
    · cases hnone.symm.trans htarget
    · exact hclosed ⟨t, f, htarget, hf, hpos⟩
  · -- The file is closed: it is freed and leaves the tree.
    obtain ⟨rfl, -⟩ := hkeyed.inj hf hfilename htarget htarget
    have hfree := hkeyed.fileFree htarget hf hfilename
    have hn : ({ s.fs.fileFree t with names := BplusTree.removeName s.fs.names newName } :
      Filesystem).pending.length = s.fs.pending.length := rfl
    obtain ⟨answer, _, rest, fs', rfl, -, hresume, hrest⟩ := (finish_send hn).mp hfinish
    obtain ⟨r, g, hr⟩ := mdRename_renamed hfree hn rfl hresume hrest hdone
    have hothers : ∀ n, n ≠ newName → BplusTree.removeName s.fs.names newName n = s.fs.names n :=
      fun n hn => Function.update_of_ne hn ..
    have hentry : s.fs.names oldName = some r := (hothers oldName hne).symm.trans hr.entry
    have hrt : r ≠ t := by
      rintro rfl
      exact hne (hkeyed.inj hf hfilename hentry htarget).1
    have hg : s.fs.files r = some g := (Filesystem.fileFree_files_ne hrt).symm.trans hr.file
    refine ⟨r, g, _, hentry, hg, hr.renamed, hr.names, hothers,
      Or.inl ⟨Or.inr ⟨hyes, ?_⟩, Function.update_self ..⟩⟩
    rintro ⟨t', f', htarget', hf', hpos⟩
    obtain rfl := Option.some.inj (htarget.symm.trans htarget')
    obtain rfl := Option.some.inj (hf.symm.trans hf')
    omega

/-- Between calls that run to completion, a rename that ends with 0 moves exactly one entry
if and only if the file can be opened and the new name is free, or its file is closed and
the deletion gets its request. -/
theorem movesEntry_iff (hrest : AtRest s) (hne : oldName ≠ newName)
    (h : Calls s (.rename oldName newName cb mem deleteMem, answers) s')
    (hdone : Completes s s' cb 0) :
    MovesEntry s s' oldName newName ↔ Movable s.fs oldName newName deleteMem := by
  obtain ⟨hshort, r, f, names, hold, hf, hf', hnames, hothers, hcases⟩ :=
    rename_renamed hrest.reachable.keyed hne h.2 hdone
  have hopens : s'.fs.names newName = some r → (s'.Opens newName ↔ f.Openable) := fun hnew =>
    (opens_iff (h.rests hrest.rests) hshort hnew hf').trans Iff.rfl
  have hmovable : Movable s.fs oldName newName deleteMem ↔
      f.Openable ∧ s.fs.Vacated newName deleteMem := by
    refine and_congr_left' ⟨?_, fun hopenable => ⟨r, f, hold, hf, hopenable⟩⟩
    rintro ⟨r', g, hold', hg, hopenable⟩
    obtain rfl := Option.some.inj (hold.symm.trans hold')
    obtain rfl := Option.some.inj (hf.symm.trans hg)
    exact hopenable
  rw [hmovable]
  rcases hcases with ⟨hvacated, hfree⟩ | ⟨hnot, t, htr, hstays⟩
  · have hnew : s'.fs.names newName = some r := by
      rw [hnames, moved_new hne, hfree, Option.getD_none]
    rw [and_iff_left hvacated, ← hopens hnew]
    refine ⟨fun h => h.opens, fun h => ⟨hnew.trans hold.symm, ?_, h, fun n hn hn' => ?_⟩⟩
    · rw [hnames, moved_old hne]
    · rw [hnames, moved_other hn hn', hothers n hn']
  · refine iff_of_false (fun h => ?_) fun h => hnot h.2
    have hnew : s'.fs.names newName = some t := by
      rw [hnames, moved_new hne, hstays, Option.getD_some]
    exact htr (Option.some.inj (hnew.symm.trans (h.found.trans hold)))

end rename

theorem storeA_atRest : AtRest storeA := ⟨storeA, storeA_initial, .refl⟩

/-- `"b"` is open when `"a"` is to become `"b"`: the rename ends with 0, and `"b"` still
stands for the file that was deleted. -/
theorem movesEntry_open : ¬ ∀ s s' oldName newName cb mem deleteMem answers, AtRest s →
    oldName ≠ newName → Calls s (.rename oldName newName cb mem deleteMem, answers) s' →
      Completes s s' cb 0 → MovesEntry s s' oldName newName := by
  intro hall
  have hopen : Calls storeA (.event (.open nameB true 1 plenty),
      [done 6 3, done 6 3, done 6 3, done 6 3, done 0 3]) _ := ⟨by simp [done], rfl⟩
  have hrest : AtRest _ := ⟨storeA, storeA_initial, .one trivial hopen⟩
  have hmoves := hall _ _ nameA nameB 2 plenty plenty [done 0 0, done 0 4, done 0 4] hrest
    (by decide) ⟨by simp [done], rfl⟩ rfl
  cases hmoves.found

/-- `"a"` becomes `"b"`, a name that no file has. -/
theorem movesEntry_iff_done : ∃ s', Calls storeA (.rename nameA nameB 1 plenty plenty,
    [done 0 3, done 0 3]) s' ∧ MovesEntry storeA s' nameA nameB := by
  have hrename : Calls storeA (.rename nameA nameB 1 plenty plenty,
      [done 0 3, done 0 3]) _ := ⟨by simp [done], rfl⟩
  refine ⟨_, hrename, (movesEntry_iff storeA_atRest (by decide) hrename rfl).mpr ?_⟩
  exact ⟨⟨0, fileA, rfl, rfl, rfl, fun _ => rfl⟩, Or.inl rfl⟩

end Nbfs.Fs
