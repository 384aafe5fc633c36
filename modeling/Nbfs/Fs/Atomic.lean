import Nbfs.Fs.Store
import Nbfs.Fs.RefCount

set_option autoImplicit false

/-!
# Creations and deletions that fail

A creation or a deletion that completes with an error should leave the names and the
blobs as they were.  Each is run alone, from any state that is reached.
-/

namespace Nbfs.Fs

open Nbfs.Lib Store

/-- Every operation of the blobstore that the request waited for succeeded. -/
def AllSucceed (answers : List (Answer × Memory)) : Prop := ∀ a ∈ answers, a.1.bserrno = 0

@[simp] theorem allSucceed_nil : AllSucceed [] := nofun

@[simp] theorem allSucceed_cons {answer : Answer} {mem : Memory} {rest : List (Answer × Memory)} :
    AllSucceed ((answer, mem) :: rest) ↔ answer.bserrno = 0 ∧ AllSucceed rest :=
  List.forall_mem_cons

/-! ### Creation -/

/-- A creation that fails leaves no entry of the name, no other change and no new blob. -/
def CreateAtomic (s s' : Store) (name : CString) (cb : CallRef) : Prop :=
  ∀ fserrno, Completes s s' cb fserrno → fserrno ≠ 0 →
    s'.fs.names name = none ∧ (∀ n, n ≠ name → s'.fs.names n = s.fs.names n) ∧
      ∀ blobid, s'.blobs blobid = true → s.blobs blobid = true

section create

variable {n : Nat} {fs : Filesystem} {blobs : BlobId → Bool} {s s' : Store} {r : FileRef}
  {answers : List (Answer × Memory)} {cb : CallRef} {name : CString} {mem : Memory}

/-- The rest of a creation calls back once; it succeeds if `before` did and all the rest. -/
def CreateEnds (fs : Filesystem) (s' : Store) (cb : CallRef) (before : Prop)
    (answers : List (Answer × Memory)) : Prop :=
  s'.fs.names = fs.names ∧ ∃ fserrno, s'.fs.replies = fs.replies ++ [⟨cb, fserrno, none⟩] ∧
    (fserrno = 0 ↔ before ∧ AllSucceed answers)

theorem createEnds_reply {bserrno : Int} {before : Prop} (hbefore : bserrno = 0 ↔ before) :
    CreateEnds fs ⟨fs.reply cb bserrno, blobs⟩ cb before [] :=
  ⟨rfl, bserrno, rfl, by simp [hbefore]⟩

/-- From `spdk_blob_close` on. -/
theorem createClose_ends (hn : fs.pending.length = n) {blob : Option BlobRef} {rc : Int}
    (h : finish n answers ⟨fs.send (.createClose blob rc (.client cb)), blobs⟩ = .ok s') :
    CreateEnds fs s' cb (rc = 0) answers := by
  obtain ⟨answer, mem, rest, fs', rfl, -, hresume, hrest⟩ := (finish_send hn).mp h
  obtain rfl := Except.ok.inj hresume
  obtain ⟨rfl, rfl⟩ := (finish_reply hn).mp hrest
  refine ⟨rfl, _, rfl, ?_⟩
  by_cases hrc : rc = 0
  · simp [hrc]
  · simp [hrc]

/-- From `spdk_blob_resize` on. -/
theorem createResize_ends (hn : fs.pending.length = n) {blob : Option BlobRef}
    (h : finish n answers ⟨fs.send (.createResize r blob (.client cb)), blobs⟩ = .ok s') :
    CreateEnds fs s' cb True answers := by
  obtain ⟨answer, mem, rest, fs', rfl, -, hresume, hrest⟩ := (finish_send hn).mp h
  simp only [BsOp.resume, Filesystem.fsCreateBlobResizeCb] at hresume
  split at hresume
  · rename_i hfailed
    obtain rfl := Except.ok.inj hresume
    obtain ⟨hnames, fserrno, hreply, hzero⟩ := createClose_ends hn hrest
    exact ⟨hnames, fserrno, hreply, by simp [hzero, hfailed]⟩
  · rename_i hok
    obtain ⟨f, -, hresume⟩ := bind_ok.mp hresume
    split at hresume
    · cases hresume
    · obtain rfl := Except.ok.inj hresume
      obtain ⟨hnames, fserrno, hreply, hzero⟩ := createClose_ends hn hrest
      exact ⟨hnames, fserrno, hreply, by simp [hzero, not_not.mp hok]⟩

/-- From `spdk_bs_open_blob` on. -/
theorem createOpen_ends (hn : fs.pending.length = n) {blobid : BlobId}
    (h : finish n answers ⟨fs.send (.createOpen r blobid (.client cb)), blobs⟩ = .ok s') :
    CreateEnds fs s' cb True answers := by
  obtain ⟨answer, mem, rest, fs', rfl, -, hresume, hrest⟩ := (finish_send hn).mp h
  simp only [BsOp.resume, Filesystem.fsCreateBlobOpenCb] at hresume
  split at hresume
  · rename_i hfailed
    obtain rfl := Except.ok.inj hresume
    obtain ⟨rfl, rfl⟩ := (finish_reply hn).mp hrest
    exact ⟨rfl, _, rfl, by simp⟩
  · rename_i hok
    obtain rfl := Except.ok.inj hresume
    obtain ⟨hnames, fserrno, hreply, hzero⟩ := createResize_ends hn hrest
    exact ⟨hnames, fserrno, hreply, by simp [hzero, not_not.mp hok]⟩

/-- From `spdk_bs_create_blob` on. -/
theorem createBlob_ends (hn : fs.pending.length = n)
    (h : finish n answers ⟨fs.send (.createBlob r (.client cb)), blobs⟩ = .ok s') :
    CreateEnds fs s' cb True answers := by
  obtain ⟨answer, mem, rest, fs', rfl, -, hresume, hrest⟩ := (finish_send hn).mp h
  simp only [BsOp.resume, Filesystem.fsCreateBlobCreateCb] at hresume
  split at hresume
  · rename_i hfailed
    obtain rfl := Except.ok.inj hresume
    obtain ⟨rfl, rfl⟩ := (finish_reply hn).mp hrest
    exact ⟨rfl, _, rfl, by simp⟩
  · rename_i hok
    obtain ⟨f, -, hresume⟩ := bind_ok.mp hresume
    obtain rfl := Except.ok.inj hresume
    have hn' : (fs.setFile r { f with blobid := some answer.blobid }).pending.length = n := hn
    obtain ⟨hnames, fserrno, hreply, hzero⟩ := createOpen_ends hn' hrest
    exact ⟨hnames, fserrno, hreply, by simp [hzero, not_not.mp hok]⟩

/-- A creation of a new name is refused and changes nothing, or it has the name in the
tree, whatever becomes of it. -/
theorem create_alone (habsent : s.fs.names name = none)
    (h : s.alone (.event (.create name cb mem)) answers = .ok s') :
    (spdkFileNameMax < name.strlen ∨ mem.file = false) ∧ s'.fs.names = s.fs.names ∧
        s'.blobs = s.blobs ∨
      ¬ (spdkFileNameMax < name.strlen ∨ mem.file = false) ∧
        s'.fs.names name = some s.fs.brk ∧ ∃ fserrno, Completes s s' cb fserrno ∧
          (fserrno = 0 ↔ mem.createRequest = true ∧ AllSucceed answers) := by
  obtain ⟨s₁, hstep, hfinish⟩ := bind_ok.mp h
  obtain ⟨fs, hcreate, hs₁⟩ := bind_ok.mp hstep
  obtain rfl := Except.ok.inj hs₁
  change s.fs.spdkFsCreateFileAsync name (.client cb) mem = .ok fs at hcreate
  unfold Filesystem.spdkFsCreateFileAsync at hcreate
  split at hcreate
  · rename_i hlong
    obtain rfl := Except.ok.inj hcreate
    obtain ⟨-, rfl⟩ := (finish_reply rfl).mp hfinish
    exact Or.inl ⟨Or.inl hlong, rfl, rfl⟩
  rename_i hshort
  rw [habsent] at hcreate
  dsimp only at hcreate
  split at hcreate
  · rename_i hfile
    obtain rfl := Except.ok.inj hcreate
    obtain ⟨-, rfl⟩ := (finish_reply rfl).mp hfinish
    exact Or.inl ⟨Or.inr hfile, rfl, rfl⟩
  rename_i hfile
  have hself : (s.fs.fileAlloc name).names name = some s.fs.brk := by
    change BplusTree.insertName s.fs.names name s.fs.brk name = _
    rw [BplusTree.insertName_self, habsent, Option.getD_none]
  refine Or.inr ⟨fun hor => hor.elim hshort hfile, ?_⟩
  split at hcreate
  · rename_i hrequest
    obtain rfl := Except.ok.inj hcreate
    have hn : (s.fs.fileAlloc name).pending.length = s.fs.pending.length := rfl
    obtain ⟨rfl, rfl⟩ := (finish_reply hn).mp hfinish
    exact ⟨hself, _, rfl, iff_of_false (by decide) (by simp [hrequest])⟩
  · rename_i hrequest
    obtain ⟨f, -, hcreate⟩ := bind_ok.mp hcreate
    obtain rfl := Except.ok.inj hcreate
    have hn : ((s.fs.fileAlloc name).setFile s.fs.brk
        { f with name := some name }).pending.length = s.fs.pending.length := rfl
    obtain ⟨hnames, fserrno, hreply, hzero⟩ := createBlob_ends hn hfinish
    refine ⟨(congrFun hnames name).trans hself, fserrno, hreply, ?_⟩
    rw [hzero, true_and, and_iff_right (by simpa using hrequest)]

/-- A creation of a new name is atomic on error if and only if it is refused before it puts
the name in the tree, or nothing fails after that. -/
theorem createAtomic_iff (habsent : s.fs.names name = none)
    (h : s.alone (.event (.create name cb mem)) answers = .ok s') :
    CreateAtomic s s' name cb ↔ spdkFileNameMax < name.strlen ∨ mem.file = false ∨
      mem.createRequest = true ∧ AllSucceed answers := by
  rw [← or_assoc]
  rcases create_alone habsent h with
    ⟨hrefused, hnames, hblobs⟩ | ⟨hgoes, hself, fserrno, hdone, hzero⟩
  · refine iff_of_true (fun fserrno _ _ => ⟨hnames ▸ habsent, fun n _ => ?_, fun blobid => ?_⟩)
      (Or.inl hrefused)
    · rw [hnames]
    · rw [hblobs]
      exact id
  · rw [or_iff_right hgoes, ← hzero]
    constructor
    · intro hatomic
      by_contra hne
      cases (hatomic fserrno hdone hne).1.symm.trans hself
    · rintro rfl fserrno' hdone' hne
      have hreplies := List.append_cancel_left (hdone'.symm.trans hdone)
      exact absurd (Reply.mk.inj (List.cons.inj hreplies).1).2.1 hne

end create

/-- A filesystem whose only file is `"a"`, of blob 5. -/
def storeA : Store := ⟨oneFile, fun blobid => blobid = 5⟩

def nameB : CString := ⟨[98], by decide⟩

theorem storeA_initial : StoreInitial storeA := by
  refine ⟨oneFile_initial, fun r f blobid hf hblobid => ?_⟩
  obtain ⟨-, rfl⟩ := oneFile_files hf
  obtain rfl : 5 = blobid := Option.some.inj hblobid
  rfl

theorem storeA_reachable : Reachable storeA := ⟨storeA, storeA_initial, .refl⟩

/-- What a blobstore answers when it does as it is asked. -/
def done (blobid : BlobId) (blob : BlobRef) : Answer × Memory := (⟨0, blobid, some blob⟩, plenty)

/-- What it answers when it does not. -/
def failed (bserrno : Int) : Answer × Memory := (⟨bserrno, 0, none⟩, plenty)

/-- The request's allocation fails: `"b"` stays in the tree, and is refused from then on. -/
theorem createAtomic_noRequest :
    ¬ ∀ s s' name cb mem answers, Reachable s → s.fs.names name = none →
      s.alone (.event (.create name cb mem)) answers = .ok s' → CreateAtomic s s' name cb := by
  intro hall
  have hcreate : storeA.alone (.event (.create nameB 1 ⟨true, true, false⟩)) [] = .ok _ := rfl
  have hatomic := hall _ _ _ _ _ _ storeA_reachable rfl hcreate (-enomem) rfl (by decide)
  cases hatomic.1.symm

/-- A creation in which nothing fails. -/
theorem createAtomic_iff_done : ∃ s',
    storeA.alone (.event (.create nameB 1 plenty)) [done 6 3, done 6 3, done 6 3, done 6 3] =
      .ok s' ∧ CreateAtomic storeA s' nameB 1 := by
  have hcreate : storeA.alone (.event (.create nameB 1 plenty))
    [done 6 3, done 6 3, done 6 3, done 6 3] = .ok _ := rfl
  have hsucceed : AllSucceed [done 6 3, done 6 3, done 6 3, done 6 3] := by simp [done]
  exact ⟨_, hcreate, (createAtomic_iff rfl hcreate).mpr (Or.inr (Or.inr ⟨rfl, hsucceed⟩))⟩

/-! ### Deletion -/

/-- A deletion that fails leaves the name with its file; and if the name has lost its file,
the file's blob is gone. -/
structure DeleteAtomic (s s' : Store) (name : CString) (cb : CallRef) : Prop where
  keeps : ∀ fserrno, Completes s s' cb fserrno → fserrno ≠ 0 → s'.fs.names name = s.fs.names name
  gone : ∀ r f blobid, s.fs.names name = some r → s.fs.files r = some f →
    f.blobid = some blobid → s'.fs.names name ≠ some r → s'.blobs blobid = false

/-- The name has a file that is open. -/
def Filesystem.IsOpen (s : Filesystem) (name : CString) : Prop :=
  ∃ r f, s.names name = some r ∧ s.files r = some f ∧ 0 < f.refCount

section delete

variable {fs fs' : Filesystem} {s s' : Store} {r : FileRef} {fn : FileOp}
  {answers : List (Answer × Memory)} {cb : CallRef} {name : CString} {mem : Memory}

/-- A deletion of a name that has a file. -/
theorem delete_found (hshort : ¬ spdkFileNameMax < name.strlen) (hname : fs.names name = some r)
    (h : fs.spdkFsDeleteFileAsync name fn mem = .ok fs') :
    mem.request = false ∧ fs.callFileOp fn (-enomem) = .ok fs' ∨
      mem.request = true ∧ ∃ f, fs.files r = some f ∧
        ((∃ blob, 0 < f.refCount ∧
            fs' = (fs.setFile r { f with isDeleted := true }).send (.syncDeleted blob fn)) ∨
          ∃ filename, f.refCount = 0 ∧ f.name = some filename ∧ fs' =
            { fs.fileFree r with names := BplusTree.removeName fs.names filename }.send
              (.deleteBlob f.blobid fn)) := by
  unfold Filesystem.spdkFsDeleteFileAsync at h
  rw [if_neg hshort, hname] at h
  dsimp only at h
  split at h
  · exact Or.inl ⟨‹_›, h⟩
  rename_i hrequest
  obtain ⟨f, hf, h⟩ := bind_ok.mp h
  refine Or.inr ⟨by simpa using hrequest, f, Filesystem.file_ok.mp hf, ?_⟩
  by_cases href : 0 < f.refCount
  · rw [if_pos href] at h
    split at h
    · cases h
    · exact Or.inl ⟨_, href, (Except.ok.inj h).symm⟩
  · rw [if_neg href] at h
    split at h
    · cases h
    rename_i filename hfilename
    split at h
    · cases h
    · exact Or.inr ⟨filename, Nat.eq_zero_of_not_pos href, hfilename, (Except.ok.inj h).symm⟩

/-- A deletion is atomic on error if and only if it is refused before it changes anything,
or the file is open, or the blob's deletion succeeds. -/
theorem deleteAtomic_iff (hreachable : Reachable s)
    (h : s.alone (.event (.delete name cb mem)) answers = .ok s') :
    DeleteAtomic s s' name cb ↔ spdkFileNameMax < name.strlen ∨ s.fs.names name = none ∨
      mem.request = false ∨ s.fs.IsOpen name ∨ AllSucceed answers := by
  have hkept : s'.fs.names name = s.fs.names name → DeleteAtomic s s' name cb := fun hsame =>
    ⟨fun _ _ _ => hsame, fun r _ _ hr _ _ hlost => absurd (hsame.trans hr) hlost⟩
  obtain ⟨s₁, hstep, hfinish⟩ := bind_ok.mp h
  obtain ⟨fs, hdelete, hs₁⟩ := bind_ok.mp hstep
  obtain rfl := Except.ok.inj hs₁
  change s.fs.spdkFsDeleteFileAsync name (.client cb) mem = .ok fs at hdelete
  have hrefused : ∀ {fserrno : Int}, s.fs.callFileOp (.client cb) fserrno = .ok fs →
      DeleteAtomic s s' name cb := by
    intro fserrno hcall
    obtain rfl := Except.ok.inj hcall
    obtain ⟨-, rfl⟩ := (finish_reply rfl).mp hfinish
    exact hkept rfl
  by_cases hlong : spdkFileNameMax < name.strlen
  · unfold Filesystem.spdkFsDeleteFileAsync at hdelete
    rw [if_pos hlong] at hdelete
    exact iff_of_true (hrefused hdelete) (Or.inl hlong)
  rw [or_iff_right hlong]
  cases hname : s.fs.names name with
  | none =>
      unfold Filesystem.spdkFsDeleteFileAsync at hdelete
      rw [if_neg hlong, hname] at hdelete
      exact iff_of_true (hrefused hdelete) (Or.inl rfl)
  | some r =>
      rw [or_iff_right nofun]
      rcases delete_found hlong hname hdelete with ⟨hrequest, hcall⟩ | ⟨hrequest, f, hf, hcases⟩
      · exact iff_of_true (hrefused hcall) (Or.inl hrequest)
      rw [or_iff_right (by simp [hrequest])]
      rcases hcases with ⟨blob, href, rfl⟩ | ⟨filename, href, hfilename, rfl⟩
      · -- The file is open: it is only marked.
        have hn : (s.fs.setFile r { f with isDeleted := true }).pending.length =
          s.fs.pending.length := rfl
        obtain ⟨answer, mem, rest, fs', rfl, -, hresume, hrest⟩ := (finish_send hn).mp hfinish
        obtain rfl := Except.ok.inj hresume
        obtain ⟨-, rfl⟩ := (finish_reply hn).mp hrest
        exact iff_of_true (hkept rfl) (Or.inl ⟨r, f, hname, hf, href⟩)
      · -- The entry is removed before the blob is deleted.
        obtain ⟨rfl, -⟩ := hreachable.keyed.inj hf hfilename hname hname
        have hclosed : ¬ s.fs.IsOpen name := by
          rintro ⟨r', f', hname', hf', hpos⟩
          obtain rfl := Option.some.inj (hname.symm.trans hname')
          obtain rfl := Option.some.inj (hf.symm.trans hf')
          omega
        rw [or_iff_right hclosed]
        have hn : ({ s.fs.fileFree r with names := BplusTree.removeName s.fs.names name } :
          Filesystem).pending.length = s.fs.pending.length := rfl
        obtain ⟨answer, mem, rest, fs', rfl, -, hresume, hrest⟩ := (finish_send hn).mp hfinish
        obtain rfl := Except.ok.inj hresume
        obtain ⟨rfl, rfl⟩ := (finish_reply hn).mp hrest
        rw [allSucceed_cons, and_iff_left allSucceed_nil]
        have hlost : BplusTree.removeName s.fs.names name name = none := Function.update_self ..
        constructor
        · intro hatomic
          by_contra hne
          have hsame : BplusTree.removeName s.fs.names name name = s.fs.names name :=
            hatomic.keeps _ rfl hne
          cases (hlost.symm.trans hsame).trans hname
        · intro hzero
          refine ⟨fun fserrno hdone hne => ?_, fun r' f' blobid hr' hf' hblobid _ => ?_⟩
          · have hreplies := List.append_cancel_left hdone
            exact absurd ((Reply.mk.inj (List.cons.inj hreplies).1).2.1.symm.trans hzero) hne
          · obtain rfl := Option.some.inj (hname.symm.trans hr')
            obtain rfl := Option.some.inj (hf.symm.trans hf')
            simp [BsOp.effect, hblobid, hzero]

end delete

/-- The blob of `"a"` cannot be deleted: `"a"` is gone and its blob is not. -/
theorem deleteAtomic_busy : ¬ ∀ s s' name cb mem answers, Reachable s →
    s.alone (.event (.delete name cb mem)) answers = .ok s' → DeleteAtomic s s' name cb := by
  intro hall
  have hdelete : storeA.alone (.event (.delete nameA 1 plenty)) [failed (-16)] = .ok _ := rfl
  have hatomic := hall _ _ _ _ _ _ storeA_reachable hdelete
  cases hatomic.keeps (-16) rfl (by decide)

/-- A deletion that succeeds. -/
theorem deleteAtomic_iff_done : ∃ s', storeA.alone (.event (.delete nameA 1 plenty)) [done 0 0] =
    .ok s' ∧ DeleteAtomic storeA s' nameA 1 := by
  have hdelete : storeA.alone (.event (.delete nameA 1 plenty)) [done 0 0] = .ok _ := rfl
  have hsucceed : AllSucceed [done 0 0] := by simp [done]
  exact ⟨_, hdelete, (deleteAtomic_iff storeA_reachable hdelete).mpr
    (Or.inr (Or.inr (Or.inr (Or.inr hsucceed))))⟩

end Nbfs.Fs
