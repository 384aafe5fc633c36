import Nbfs.Fs.HalfBuilt
import Nbfs.Fs.RenameMoves

set_option autoImplicit false

/-!
# What a call comes to

A creation, open, deletion or close that runs to completion, with every operation and
every allocation successful, is refused or changes one file with its entry, its handles
and its blob.
-/

namespace Nbfs.Fs

open Nbfs.Lib Store

/-- A call other than a rename, with the answers to what it asks of the blobstore. -/
abbrev EventCall := Event × List (Answer × Memory)

/-- The call is made alone, and everything succeeds. -/
def EventCalls (s : Store) (c : EventCall) (s' : Store) : Prop :=
  Calls s (.event c.1, c.2) s' ∧ c.1.mem = plenty ∧ ∀ a ∈ c.2, a.2 = plenty

/-- A file that was created, in its blob. -/
def newFile (name : CString) (blobid : BlobId) : SpdkFile :=
  ⟨some name, some blobid, none, 0, false, []⟩

namespace Filesystem

variable (s : Filesystem)

/-- With a new file, which has its blob. -/
def created (name : CString) (blobid : BlobId) : Filesystem :=
  { s with
    files := Function.update s.files s.brk (some (newFile name blobid))
    names := BplusTree.insertName s.names name s.brk
    brk := s.brk + 1 }

/-- Without a file and its name. -/
def removed (r : FileRef) (name : CString) : Filesystem :=
  { s.fileFree r with names := BplusTree.removeName s.names name }

/-- Without a handle. -/
def released (r : FileRef) : Filesystem := { s with handles := s.handles.erase r }

end Filesystem

/-- What a call alone comes to, when everything succeeds. -/
inductive CallEnds (s : Store) : Event → Store → Prop where
  | refused {e : Event} {cb : CallRef} {fserrno : Int} :
      (∀ r cb mem, e ≠ .close r cb mem) → CallEnds s e ⟨s.fs.reply cb fserrno, s.blobs⟩
  | created {name : CString} {cb : CallRef} {mem : Memory} {id : BlobId} :
      s.fs.names name = none → s.blobs id = false →
        CallEnds s (.create name cb mem)
          ⟨(s.fs.created name id).reply cb 0, Function.update s.blobs id true⟩
  | opened {name : CString} {create : Bool} {cb : CallRef} {mem : Memory} {r : FileRef}
      {f : SpdkFile} {blob : Option BlobRef} :
      ¬ spdkFileNameMax < name.strlen → s.fs.names name = some r → s.fs.files r = some f →
        f.isDeleted = false →
          CallEnds s (.open name create cb mem) ⟨s.fs.delivered r f cb blob, s.blobs⟩
  | createdOpened {name : CString} {create : Bool} {cb : CallRef} {mem : Memory} {id : BlobId}
      {blob : Option BlobRef} :
      ¬ spdkFileNameMax < name.strlen → s.fs.names name = none → s.blobs id = false →
        CallEnds s (.open name create cb mem)
          ⟨(s.fs.created name id).delivered s.fs.brk (newFile name id) cb blob,
            Function.update s.blobs id true⟩
  | marked {name : CString} {cb : CallRef} {mem : Memory} {r : FileRef} {f : SpdkFile} :
      s.fs.names name = some r → s.fs.files r = some f → 0 < f.refCount →
        CallEnds s (.delete name cb mem)
          ⟨(s.fs.setFile r { f with isDeleted := true }).reply cb 0, s.blobs⟩
  | removed {name : CString} {cb : CallRef} {mem : Memory} {r : FileRef} {f : SpdkFile}
      {id : BlobId} :
      s.fs.names name = some r → s.fs.files r = some f → f.refCount = 0 → f.blobid = some id →
        CallEnds s (.delete name cb mem)
          ⟨(s.fs.removed r name).reply cb 0, Function.update s.blobs id false⟩
  | closed {r : FileRef} {cb : CallRef} {mem : Memory} {f : SpdkFile} :
      s.fs.files r = some f → 1 < f.refCount →
        CallEnds s (.close r cb mem)
          ⟨((s.fs.released r).setFile r { f with refCount := f.refCount - 1 }).reply cb 0, s.blobs⟩
  | closedLast {r : FileRef} {cb : CallRef} {mem : Memory} {f : SpdkFile} :
      s.fs.files r = some f → f.refCount = 1 → f.isDeleted = false →
        CallEnds s (.close r cb mem)
          ⟨((s.fs.released r).setFile r { f with refCount := 0, blob := none }).reply cb 0,
            s.blobs⟩
  | closedRemoved {r : FileRef} {cb : CallRef} {mem : Memory} {f : SpdkFile} {name : CString}
      {id : BlobId} :
      s.fs.files r = some f → f.refCount = 1 → f.isDeleted = true → f.name = some name →
        s.fs.names name = some r → f.blobid = some id → name.strlen < spdkFileNameMax →
          CallEnds s (.close r cb mem)
            ⟨((s.fs.released r).removed r name).reply cb 0, Function.update s.blobs id false⟩

/-- Each name has a file of that name, each file a blob of its own, and the handles of a
file are counted. -/
structure Recorded (s : Filesystem) (blobs : BlobId → Bool) : Prop where
  count : ∀ r f, s.files r = some f → f.refCount = s.handles.count r
  tree : ∀ n r, s.names n = some r → ∃ f, s.files r = some f ∧ f.name = some n
  held : ∀ r ∈ s.handles, ∃ n, s.names n = some r ∧ ¬ spdkFileNameMax < n.strlen
  blobid : ∀ r f, s.files r = some f → ∃ id, f.blobid = some id ∧ blobs id = true
  apart : ∀ r r' f f', s.files r = some f → s.files r' = some f' → f.blobid = f'.blobid → r = r'

/-- The invariant between two calls. -/
structure Orderly (s : Store) : Prop extends Recorded s.fs s.blobs where
  rests : s.fs.Rests
  keyed : Keyed s.fs

section ends

variable {n : Nat} {fs fs' : Filesystem} {blobs : BlobId → Bool} {s s' : Store} {r : FileRef}
  {f : SpdkFile} {answers : List (Answer × Memory)} {cb : CallRef} {name : CString}
  {mem : Memory} {fn : FileOp}

/-- What waits is completed with success, and then the rest. -/
theorem finish_succeeds {op : BsOp} (hn : fs.pending.length = n)
    (hall : AllSucceed answers) (hmem : ∀ a ∈ answers, a.2 = plenty)
    (h : finish n answers ⟨fs.send op, blobs⟩ = .ok s') :
    ∃ answer rest fs', answer.bserrno = 0 ∧ op.answers blobs answer = true ∧
      op.resume fs answer plenty = .ok fs' ∧ AllSucceed rest ∧ (∀ a ∈ rest, a.2 = plenty) ∧
        finish n rest ⟨fs', op.effect blobs answer⟩ = .ok s' := by
  obtain ⟨answer, mem, rest, fs', rfl, hanswers, hresume, hrest⟩ := (finish_send hn).mp h
  obtain ⟨hzero, hall'⟩ := allSucceed_cons.mp hall
  obtain ⟨rfl, hmem'⟩ := List.forall_mem_cons.mp hmem
  exact ⟨answer, rest, fs', hzero, hanswers, hresume, hall', hmem', hrest⟩

/-- A creation goes through its four operations and calls back with 0. -/
theorem create_succeeds (hn : fs.pending.length = n) (hall : AllSucceed answers)
    (hmem : ∀ a ∈ answers, a.2 = plenty)
    (h : finish n answers ⟨fs.send (.createBlob r fn), blobs⟩ = .ok s') :
    ∃ f id rest fs', fs.files r = some f ∧ blobs id = false ∧
      (fs.setFile r { f with blobid := some id }).callFileOp fn 0 = .ok fs' ∧ AllSucceed rest ∧
        (∀ a ∈ rest, a.2 = plenty) ∧
          finish n rest ⟨fs', Function.update blobs id true⟩ = .ok s' := by
  obtain ⟨answer, rest₁, fs₁, hzero, hanswers, hresume, hall, hmem, h⟩ :=
    finish_succeeds hn hall hmem h
  simp only [BsOp.answers, hzero, ne_eq, not_true_eq_false, decide_false, Bool.false_or,
    Bool.not_eq_true'] at hanswers
  simp only [BsOp.resume, Filesystem.fsCreateBlobCreateCb, hzero, ne_eq, not_true_eq_false,
    if_false] at hresume
  obtain ⟨f, hf, hresume⟩ := bind_ok.mp hresume
  rw [Filesystem.file_ok] at hf
  obtain rfl := Except.ok.inj hresume
  have hn' : (fs.setFile r { f with blobid := some answer.blobid }).pending.length = n := hn
  simp only [BsOp.effect, hzero, if_true] at h
  obtain ⟨opened, rest₂, fs₂, hzero₂, -, hresume, hall, hmem, h⟩ := finish_succeeds hn' hall hmem h
  simp only [BsOp.resume, Filesystem.fsCreateBlobOpenCb, hzero₂, ne_eq, not_true_eq_false,
    if_false] at hresume
  obtain rfl := Except.ok.inj hresume
  obtain ⟨resized, rest₃, fs₃, hzero₃, -, hresume, hall, hmem, h⟩ :=
    finish_succeeds hn' hall hmem h
  simp only [BsOp.resume, Filesystem.fsCreateBlobResizeCb, hzero₃, ne_eq, not_true_eq_false,
    if_false] at hresume
  obtain ⟨g, -, hresume⟩ := bind_ok.mp hresume
  split at hresume
  · cases hresume
  obtain rfl := Except.ok.inj hresume
  obtain ⟨closed, rest₄, fs₄, hzero₄, -, hresume, hall, hmem, h⟩ :=
    finish_succeeds hn' hall hmem h
  simp only [BsOp.resume, Filesystem.fsCreateBlobCloseCb, hzero₄, ne_eq, not_true_eq_false,
    if_false] at hresume
  exact ⟨f, answer.blobid, rest₄, fs₄, hf, hanswers, hresume, hall, hmem, h⟩

/-- A creation is refused, or goes on with the new file. -/
theorem create_starts (h : s.fs.spdkFsCreateFileAsync name fn plenty = .ok fs) :
    (∃ fserrno, fserrno ≠ 0 ∧ s.fs.callFileOp fn fserrno = .ok fs ∧
        (s.fs.names name = none → spdkFileNameMax < name.strlen)) ∨
      s.fs.names name = none ∧ fs =
        ((s.fs.fileAlloc name).setFile s.fs.brk ⟨some name, none, none, 0, false, []⟩).send
          (.createBlob s.fs.brk fn) := by
  unfold Filesystem.spdkFsCreateFileAsync at h
  split at h
  · exact Or.inl ⟨_, by decide, h, fun _ => ‹_›⟩
  split at h
  · rename_i hsome
    refine Or.inl ⟨_, by decide, h, fun hnone => ?_⟩
    cases hnone.symm.trans hsome
  · rename_i hnone
    simp only [plenty, Bool.true_eq_false, if_false] at h
    obtain ⟨f, hf, h⟩ := bind_ok.mp h
    rw [Filesystem.file_ok, Filesystem.fileAlloc_files_self, Option.some.injEq] at hf
    subst hf
    exact Or.inr ⟨hnone, (Except.ok.inj h).symm⟩

/-- The new file and its blob. -/
theorem created_eq (name : CString) (id : BlobId) :
    ((s.fs.fileAlloc name).setFile s.fs.brk ⟨some name, none, none, 0, false, []⟩).setFile s.fs.brk
      (newFile name id) = s.fs.created name id := by
  simp [Filesystem.setFile, Filesystem.fileAlloc, Filesystem.created]

/-- The first open of a file at rest: its blob is opened. -/
theorem open_ends (hn : fs.pending.length = n) (hf : fs.files r = some f) (hrests : f.Rests)
    (hopen : fs.fsOpenBlobCreateCb (some r) name cb = .ok fs') (hall : AllSucceed answers)
    (hmem : ∀ a ∈ answers, a.2 = plenty) (h : finish n answers ⟨fs', blobs⟩ = .ok s') :
    ∃ blob, s' = ⟨fs.delivered r f cb blob, blobs⟩ := by
  by_cases hzero : f.refCount = 0
  · obtain ⟨_, old, hr, hold, hcases⟩ := Filesystem.fsOpenBlobCreateCb_ok hopen
    obtain rfl := Except.ok.inj hr
    obtain rfl := Option.some.inj (hf.symm.trans hold)
    have hone : (f.opened cb).refCount = 1 := by
      simp [SpdkFile.opened, hzero]
    rcases hcases with ⟨-, -, rfl⟩ | ⟨hne, -⟩ | ⟨hne, -⟩
    · have hn' : (fs.setFile r (f.opened cb)).pending.length = n := hn
      obtain ⟨answer, rest, fs₁, hzero₁, -, hresume, -, -, h⟩ := finish_succeeds hn' hall hmem h
      change (fs.setFile r (f.opened cb)).fsOpenBlobDone r answer.blob answer.bserrno = _ at hresume
      rw [hzero₁, fsOpenBlobDone_opened hrests.queue] at hresume
      obtain rfl := Except.ok.inj hresume
      have hdone : (fs.delivered r f cb answer.blob).pending.length = n := hn
      exact ⟨answer.blob, ((finish_done hdone).mp h).2⟩
    · exact absurd hone hne
    · exact absurd hone hne
  · rw [fsOpenBlobCreateCb_again hf hrests hzero] at hopen
    obtain rfl := Except.ok.inj hopen
    have hdone : (fs.delivered r f cb f.blob).pending.length = n := hn
    exact ⟨f.blob, ((finish_done hdone).mp h).2⟩

/-- A file that is freed has a name that fits `filename`. -/
theorem delete_short {filename : CString} (hshort : ¬ spdkFileNameMax < name.strlen)
    (hname : fs.names name = some r) (hf : fs.files r = some f) (hzero : f.refCount = 0)
    (hkey : f.name = some filename) (h : fs.spdkFsDeleteFileAsync name fn plenty = .ok fs') :
    filename.strlen < spdkFileNameMax := by
  unfold Filesystem.spdkFsDeleteFileAsync at h
  rw [if_neg hshort, hname] at h
  simp only [plenty, Bool.true_eq_false, if_false] at h
  obtain ⟨g, hg, h⟩ := bind_ok.mp h
  obtain rfl := Option.some.inj (hf.symm.trans (Filesystem.file_ok.mp hg))
  simp only [hzero, Nat.lt_irrefl, if_false, hkey] at h
  split at h
  · cases h
  · exact Nat.not_le.mp ‹_›

/-- The deletion of a file that is closed. -/
theorem delete_ends (hn : fs.pending.length = n) (horderly : ∃ id, f.blobid = some id)
    (hall : AllSucceed answers) (hmem : ∀ a ∈ answers, a.2 = plenty) (hfn : fn.opens = false)
    (h : finish n answers ⟨(fs.removed r name).send (.deleteBlob f.blobid fn), blobs⟩ = .ok s') :
    ∃ id, f.blobid = some id ∧ ∃ fs', (fs.removed r name).callFileOp fn 0 = .ok fs' ∧
      s' = ⟨fs', Function.update blobs id false⟩ := by
  obtain ⟨id, hid⟩ := horderly
  have hn' : (fs.removed r name).pending.length = n := hn
  obtain ⟨answer, rest, fs₁, hzero, -, hresume, hall, hmem, h⟩ := finish_succeeds hn' hall hmem h
  change (fs.removed r name).callFileOp fn answer.bserrno = _ at hresume
  rw [hzero] at hresume
  simp only [hid, BsOp.effect, hzero, if_true] at h
  refine ⟨id, hid, fs₁, hresume, ?_⟩
  rcases Filesystem.callFileOp_ok hresume with
    ⟨cb, rfl⟩ | ⟨name, cb, rfl, -⟩ | ⟨oldName, newName, cb, rfl, -⟩
  · exact ((finish_reply hn').mp h).2
  · cases hfn
  · cases hfn

end ends

section calls

variable {s s' : Store} {answers : List (Answer × Memory)} {cb : CallRef} {name : CString}
  {mem : Memory} {r : FileRef}

theorem create_ends (h : EventCalls s (.create name cb mem, answers) s') :
    CallEnds s (.create name cb mem) s' := by
  obtain ⟨⟨hall, halone⟩, rfl, hmem⟩ := h
  obtain ⟨s₁, hstep, hfinish⟩ := bind_ok.mp halone
  obtain ⟨fs, hcreate, hs₁⟩ := bind_ok.mp hstep
  obtain rfl := Except.ok.inj hs₁
  rcases create_starts hcreate with ⟨fserrno, -, hcall, -⟩ | ⟨hnone, rfl⟩
  · obtain rfl := Except.ok.inj hcall
    obtain ⟨-, rfl⟩ := (finish_reply rfl).mp hfinish
    exact .refused nofun
  · have hn : ((s.fs.fileAlloc name).setFile s.fs.brk
        ⟨some name, none, none, 0, false, []⟩).pending.length = s.fs.pending.length := rfl
    obtain ⟨f, id, rest, fs', hf, hid, hcall, -, -, h⟩ := create_succeeds hn hall hmem hfinish
    rw [Filesystem.setFile_files_self, Option.some.injEq] at hf
    subst hf
    change (((s.fs.fileAlloc name).setFile s.fs.brk _).setFile s.fs.brk
      (newFile name id)).callFileOp (.client cb) 0 = .ok fs' at hcall
    rw [created_eq] at hcall
    obtain rfl := Except.ok.inj hcall
    have hdone : (s.fs.created name id).pending.length = s.fs.pending.length := rfl
    obtain ⟨-, rfl⟩ := (finish_reply hdone).mp h
    exact .created hnone hid

theorem open_call_ends (hrests : s.fs.Rests) {create : Bool}
    (h : EventCalls s (.open name create cb mem, answers) s') :
    CallEnds s (.open name create cb mem) s' := by
  obtain ⟨⟨hall, halone⟩, rfl, hmem⟩ := h
  obtain ⟨s₁, hstep, hfinish⟩ := bind_ok.mp halone
  obtain ⟨fs, hopen, hs₁⟩ := bind_ok.mp hstep
  obtain rfl := Except.ok.inj hs₁
  have hrefused : ∀ {fserrno : Int}, fs = s.fs.reply cb fserrno →
      CallEnds s (.open name create cb plenty) s' := by
    rintro fserrno rfl
    obtain ⟨-, rfl⟩ := (finish_reply rfl).mp hfinish
    exact .refused nofun
  change s.fs.spdkFsOpenFileAsync name create cb plenty = .ok fs at hopen
  unfold Filesystem.spdkFsOpenFileAsync at hopen
  split at hopen
  · exact hrefused (Except.ok.inj hopen).symm
  rename_i hshort
  split at hopen
  · rename_i hnone
    split at hopen
    · exact hrefused (Except.ok.inj hopen).symm
    simp only [plenty, Bool.true_eq_false, if_false] at hopen
    rcases create_starts hopen with ⟨fserrno, -, -, hlong⟩ | ⟨-, rfl⟩
    · exact absurd (hlong hnone) hshort
    have hn : ((s.fs.fileAlloc name).setFile s.fs.brk
        ⟨some name, none, none, 0, false, []⟩).pending.length = s.fs.pending.length := rfl
    obtain ⟨f, id, rest, fs', hf, hid, hcall, hall, hmem, h⟩ :=
      create_succeeds hn hall hmem hfinish
    rw [Filesystem.setFile_files_self, Option.some.injEq] at hf
    subst hf
    change (((s.fs.fileAlloc name).setFile s.fs.brk _).setFile s.fs.brk
      (newFile name id)).fsOpenBlobCreateCb none name cb = .ok fs' at hcall
    rw [created_eq] at hcall
    have hfound : (s.fs.created name id).names name = some s.fs.brk := by
      change BplusTree.insertName s.fs.names name s.fs.brk name = _
      rw [BplusTree.insertName_self, hnone, Option.getD_none]
    have hsame : (s.fs.created name id).fsOpenBlobCreateCb none name cb =
        (s.fs.created name id).fsOpenBlobCreateCb (some s.fs.brk) name cb := by
      simp only [Filesystem.fsOpenBlobCreateCb, Filesystem.openedFile, hfound]
    have hf : (s.fs.created name id).files s.fs.brk = some (newFile name id) :=
      Function.update_self ..
    have hdone : (s.fs.created name id).pending.length = s.fs.pending.length := rfl
    obtain ⟨blob, rfl⟩ := open_ends hdone hf ⟨rfl, Nat.two_pow_pos 32, fun hne => absurd rfl hne⟩
      (hsame.symm.trans hcall) hall hmem h
    exact .createdOpened hshort hnone hid
  · rename_i r hname
    obtain ⟨f, hf, hopen⟩ := bind_ok.mp hopen
    rw [Filesystem.file_ok] at hf
    split at hopen
    · exact hrefused (Except.ok.inj hopen).symm
    rename_i hunmarked
    simp only [plenty, Bool.true_eq_false, if_false] at hopen
    obtain ⟨blob, rfl⟩ := open_ends rfl hf (hrests.files r f hf) hopen hall hmem hfinish
    exact .opened hshort hname hf (by simpa using hunmarked)

theorem delete_call_ends (horderly : Orderly s)
    (h : EventCalls s (.delete name cb mem, answers) s') :
    CallEnds s (.delete name cb mem) s' := by
  obtain ⟨⟨hall, halone⟩, rfl, hmem⟩ := h
  obtain ⟨s₁, hstep, hfinish⟩ := bind_ok.mp halone
  obtain ⟨fs, hdelete, hs₁⟩ := bind_ok.mp hstep
  obtain rfl := Except.ok.inj hs₁
  change s.fs.spdkFsDeleteFileAsync name (.client cb) plenty = .ok fs at hdelete
  have hrefused : ∀ {fserrno : Int}, s.fs.callFileOp (.client cb) fserrno = .ok fs →
      CallEnds s (.delete name cb plenty) s' := by
    intro fserrno hcall
    obtain rfl := Except.ok.inj hcall
    obtain ⟨-, rfl⟩ := (finish_reply rfl).mp hfinish
    exact .refused nofun
  by_cases hlong : spdkFileNameMax < name.strlen
  · unfold Filesystem.spdkFsDeleteFileAsync at hdelete
    rw [if_pos hlong] at hdelete
    exact hrefused hdelete
  cases hname : s.fs.names name with
  | none =>
      unfold Filesystem.spdkFsDeleteFileAsync at hdelete
      rw [if_neg hlong, hname] at hdelete
      exact hrefused hdelete
  | some r =>
      rcases delete_found hlong hname hdelete with ⟨hrequest, -⟩ | ⟨-, f, hf, hcases⟩
      · cases hrequest
      rcases hcases with ⟨blob, hpos, rfl⟩ | ⟨filename, hzero, hfilename, rfl⟩
      · have hn : (s.fs.setFile r { f with isDeleted := true }).pending.length =
          s.fs.pending.length := rfl
        obtain ⟨answer, rest, fs', hzero, -, hresume, -, -, h⟩ :=
          finish_succeeds hn hall hmem hfinish
        simp only [BsOp.resume, hzero] at hresume
        obtain rfl := Except.ok.inj hresume
        obtain ⟨-, rfl⟩ := (finish_reply hn).mp h
        exact .marked hname hf hpos
      · obtain ⟨rfl, -⟩ := horderly.keyed.inj hf hfilename hname hname
        obtain ⟨id, hid, -⟩ := horderly.blobid r f hf
        obtain ⟨id', hid', fs', hcall, rfl⟩ := delete_ends rfl ⟨id, hid⟩ hall hmem rfl hfinish
        obtain rfl := Except.ok.inj hcall
        exact .removed hname hf hzero hid'

theorem close_call_ends (horderly : Orderly s)
    (h : EventCalls s (.close r cb mem, answers) s') : CallEnds s (.close r cb mem) s' := by
  obtain ⟨⟨hall, halone⟩, rfl, hmem⟩ := h
  obtain ⟨s₁, hstep, hfinish⟩ := bind_ok.mp halone
  obtain ⟨fs, hclose, hs₁⟩ := bind_ok.mp hstep
  obtain rfl := Except.ok.inj hs₁
  simp only [Fs.step] at hclose
  split at hclose
  swap
  · cases hclose
  rename_i hheld
  obtain ⟨f, hf, hclose⟩ := bind_ok.mp hclose
  rw [Filesystem.file_ok] at hf
  simp only [plenty, Bool.true_eq_false, if_false] at hclose
  obtain rfl := Except.ok.inj hclose
  have hpos : 0 < f.refCount := by
    rw [horderly.count r f hf]
    exact List.count_pos_iff.mpr hheld
  obtain ⟨n, hn, hshort⟩ := horderly.held r hheld
  obtain ⟨g, hg, hname⟩ := horderly.tree n r hn
  obtain rfl := Option.some.inj (hf.symm.trans hg)
  -- The sync of the close.
  have hsame : (s.fs.released r).pending.length = s.fs.pending.length := rfl
  obtain ⟨answer, rest, fs₁, -, -, hresume, hall, hmem, h⟩ :=
    finish_succeeds hsame hall hmem hfinish
  obtain ⟨f', hf', ⟨hzero, -⟩ | ⟨hmore, rfl⟩ | ⟨blob, hone, -, rfl⟩⟩ :=
    Filesystem.fileCloseAsync_ok hresume
  · obtain rfl := Option.some.inj (hf.symm.trans hf')
    omega
  · obtain rfl := Option.some.inj (hf.symm.trans hf')
    have hsame' : ((s.fs.released r).setFile r
      { f with refCount := f.refCount - 1 }).pending.length = s.fs.pending.length := rfl
    obtain ⟨-, rfl⟩ := (finish_reply hsame').mp h
    exact .closed hf hmore
  · -- The last reference: the blob is closed.
    obtain rfl := Option.some.inj (hf.symm.trans hf')
    rw [hone] at h
    have hsame' : ((s.fs.released r).setFile r
      { f with refCount := 1 - 1, blob := none }).pending.length = s.fs.pending.length := rfl
    obtain ⟨answer, rest, fs₂, hzero, -, hresume, hall, hmem, h⟩ :=
      finish_succeeds hsame' hall hmem h
    change ((s.fs.released r).setFile r
      { f with refCount := 1 - 1, blob := none }).fileCloseAsyncDone r cb answer.bserrno
        plenty = _ at hresume
    rw [hzero] at hresume
    obtain ⟨f', hf', ⟨hunmarked, rfl⟩ | ⟨name, hdeleted, hname', hdelete⟩⟩ :=
      Filesystem.fileCloseAsyncDone_ok hresume
    · rw [Filesystem.setFile_files_self, Option.some.injEq] at hf'
      subst hf'
      obtain ⟨-, rfl⟩ := (finish_reply hsame').mp h
      exact .closedLast hf hone hunmarked
    · rw [Filesystem.setFile_files_self, Option.some.injEq] at hf'
      subst hf'
      obtain rfl := Option.some.inj (hname.symm.trans hname')
      have hentry : ((s.fs.released r).setFile r
        { f with refCount := 1 - 1, blob := none }).names n = some r := hn
      rcases delete_found hshort hentry hdelete with ⟨hrequest, -⟩ | ⟨-, g, hg, hcases⟩
      · cases hrequest
      rw [Filesystem.setFile_files_self, Option.some.injEq] at hg
      subst hg
      rcases hcases with ⟨blob', hpos', -⟩ | ⟨filename, -, hfilename, rfl⟩
      · cases hpos'
      obtain rfl := Option.some.inj (hname.symm.trans hfilename)
      obtain ⟨id, hid, -⟩ := horderly.blobid r f hf
      have hfree : ((s.fs.released r).setFile r
          { f with refCount := 1 - 1, blob := none }).removed r n =
            (s.fs.released r).removed r n := by
        simp [Filesystem.removed, Filesystem.fileFree, Filesystem.setFile]
      obtain ⟨id', hid', fs₃, hcall, rfl⟩ := delete_ends hsame' ⟨id, hid⟩ hall hmem rfl h
      rw [hfree] at hcall
      obtain rfl := Except.ok.inj hcall
      have hself := Filesystem.setFile_files_self (s.fs.released r) r
        { f with refCount := 1 - 1, blob := none }
      exact .closedRemoved hf hone hdeleted hname hn hid' (delete_short hshort hentry hself rfl
        hname hdelete)

/-- Every call that runs to completion ends as `CallEnds` says. -/
theorem callEnds {c : EventCall} (horderly : Orderly s) (h : EventCalls s c s') :
    CallEnds s c.1 s' := by
  obtain ⟨e, answers⟩ := c
  cases e with
  | create name cb mem => exact create_ends h
  | «open» name create cb mem => exact open_call_ends horderly.rests h
  | delete name cb mem => exact delete_call_ends horderly h
  | close r cb mem => exact close_call_ends horderly h
  | complete i answer mem =>
      obtain ⟨s₁, hstep, -⟩ := bind_ok.mp h.1.2
      change s.complete i answer mem = .ok s₁ at hstep
      rw [Store.complete, horderly.rests.pending] at hstep
      cases hstep

end calls

/-! ### What calls keep -/

namespace Recorded

variable {s s' : Filesystem} {blobs : BlobId → Bool} {r : FileRef} {f g : SpdkFile}
  {name : CString} {id : BlobId}

/-- Replies do not matter. -/
theorem congr (h : Recorded s blobs) (hfiles : s'.files = s.files) (hnames : s'.names = s.names)
    (hhandles : s'.handles = s.handles) : Recorded s' blobs := by
  refine ⟨?_, ?_, ?_, ?_, ?_⟩
  · rw [hfiles, hhandles]
    exact h.count
  · rw [hfiles, hnames]
    exact h.tree
  · rw [hnames, hhandles]
    exact h.held
  · rw [hfiles]
    exact h.blobid
  · rw [hfiles]
    exact h.apart

theorem entry_unique (h : Recorded s blobs) {n n' : CString} (hn : s.names n = some r)
    (hn' : s.names n' = some r) : n = n' := by
  obtain ⟨f, hf, hname⟩ := h.tree n r hn
  obtain ⟨f', hf', hname'⟩ := h.tree n' r hn'
  obtain rfl := Option.some.inj (hf.symm.trans hf')
  exact Option.some.inj (hname.symm.trans hname')

/-- A file gets other references. -/
theorem setFile (h : Recorded s blobs) (hf : s.files r = some f) (hname : g.name = f.name)
    (hblobid : g.blobid = f.blobid) (hfiles : s'.files = Function.update s.files r (some g))
    (hnames : s'.names = s.names) (hcount : g.refCount = s'.handles.count r)
    (hothers : ∀ r', r' ≠ r → s'.handles.count r' = s.handles.count r')
    (hheld : r ∈ s'.handles → ∃ n, s.names n = some r ∧ ¬ spdkFileNameMax < n.strlen) :
    Recorded s' blobs := by
  have hback : ∀ r' g', s'.files r' = some g' → ∃ f', s.files r' = some f' ∧
      g'.name = f'.name ∧ g'.blobid = f'.blobid ∧ (r' = r ∧ g' = g ∨ r' ≠ r ∧ g' = f') := by
    intro r' g' hg'
    rw [hfiles] at hg'
    by_cases hr : r' = r
    · subst hr
      rw [Function.update_self, Option.some.injEq] at hg'
      subst hg'
      exact ⟨f, hf, hname, hblobid, Or.inl ⟨rfl, rfl⟩⟩
    · rw [Function.update_of_ne hr] at hg'
      exact ⟨g', hg', rfl, rfl, Or.inr ⟨hr, rfl⟩⟩
  refine ⟨fun r' g' hg' => ?_, fun n r' hn => ?_, fun r' hr' => ?_, fun r' g' hg' => ?_,
    fun r₁ r₂ g₁ g₂ hg₁ hg₂ heq => ?_⟩
  · obtain ⟨f', hf', -, -, ⟨rfl, rfl⟩ | ⟨hr, rfl⟩⟩ := hback r' g' hg'
    · exact hcount
    · rw [hothers r' hr]
      exact h.count r' _ hf'
  · rw [hnames] at hn
    obtain ⟨f', hf', hn'⟩ := h.tree n r' hn
    by_cases hr : r' = r
    · subst hr
      obtain rfl := Option.some.inj (hf.symm.trans hf')
      exact ⟨g, by rw [hfiles, Function.update_self], hname.trans hn'⟩
    · exact ⟨f', by rw [hfiles, Function.update_of_ne hr]; exact hf', hn'⟩
  · rw [hnames]
    by_cases hr : r' = r
    · subst hr
      exact hheld hr'
    · have hpos := List.count_pos_iff.mpr hr'
      rw [hothers r' hr] at hpos
      exact h.held r' (List.count_pos_iff.mp hpos)
  · obtain ⟨f', hf', -, hid, -⟩ := hback r' g' hg'
    rw [hid]
    exact h.blobid r' f' hf'
  · obtain ⟨f₁, hf₁, -, hid₁, -⟩ := hback r₁ g₁ hg₁
    obtain ⟨f₂, hf₂, -, hid₂, -⟩ := hback r₂ g₂ hg₂
    exact h.apart r₁ r₂ f₁ f₂ hf₁ hf₂ (hid₁.symm.trans (heq.trans hid₂))

/-- A new file in a new blob. -/
theorem created (h : Recorded s blobs) (hkeyed : Keyed s) (habsent : s.names name = none)
    (hid : blobs id = false) : Recorded (s.created name id) (Function.update blobs id true) := by
  have hunborn : s.files s.brk = none := hkeyed.unborn s.brk (Nat.le_refl _)
  have hfresh : s.brk ∉ s.handles := by
    intro hheld
    obtain ⟨n, hn, -⟩ := h.held s.brk hheld
    obtain ⟨f, hf, -⟩ := h.tree n s.brk hn
    cases hunborn.symm.trans hf
  have hback : ∀ r g, (s.created name id).files r = some g →
      r = s.brk ∧ g = newFile name id ∨ r ≠ s.brk ∧ s.files r = some g := by
    intro r g hg
    change Function.update s.files s.brk _ r = some g at hg
    by_cases hr : r = s.brk
    · subst hr
      rw [Function.update_self, Option.some.injEq] at hg
      exact Or.inl ⟨rfl, hg.symm⟩
    · rw [Function.update_of_ne hr] at hg
      exact Or.inr ⟨hr, hg⟩
  have hkept : ∀ r g, s.files r = some g → (s.created name id).files r = some g := by
    intro r g hg
    have hr : r ≠ s.brk := by
      rintro rfl
      cases hunborn.symm.trans hg
    exact (Function.update_of_ne hr ..).trans hg
  have hnew : ∀ r g, s.files r = some g → g.blobid ≠ (newFile name id).blobid := by
    intro r g hg heq
    obtain ⟨id', hid', hthere⟩ := h.blobid r g hg
    obtain rfl := Option.some.inj (hid'.symm.trans heq)
    cases hid.symm.trans hthere
  have hnames : ∀ n, n ≠ name → (s.created name id).names n = s.names n := fun n hn =>
    BplusTree.insertName_of_ne _ hn
  have hself : (s.created name id).names name = some s.brk := by
    change BplusTree.insertName s.names name s.brk name = _
    rw [BplusTree.insertName_self, habsent, Option.getD_none]
  refine ⟨fun r g hg => ?_, fun n r hn => ?_, fun r hr => ?_, fun r g hg => ?_,
    fun r₁ r₂ g₁ g₂ hg₁ hg₂ heq => ?_⟩
  · rcases hback r g hg with ⟨rfl, rfl⟩ | ⟨-, hg⟩
    · exact (List.count_eq_zero.mpr hfresh).symm
    · exact h.count r g hg
  · by_cases heq : n = name
    · subst heq
      obtain rfl := Option.some.inj (hself.symm.trans hn)
      exact ⟨newFile n id, Function.update_self .., rfl⟩
    · obtain ⟨g, hg, hname⟩ := h.tree n r ((hnames n heq).symm.trans hn)
      exact ⟨g, hkept r g hg, hname⟩
  · obtain ⟨n, hn, hshort⟩ := h.held r hr
    have hne : n ≠ name := by
      rintro rfl
      cases habsent.symm.trans hn
    exact ⟨n, (hnames n hne).trans hn, hshort⟩
  · rcases hback r g hg with ⟨rfl, rfl⟩ | ⟨-, hg⟩
    · exact ⟨id, rfl, Function.update_self ..⟩
    · obtain ⟨id', hid', hthere⟩ := h.blobid r g hg
      have hne : id' ≠ id := by
        rintro rfl
        cases hid.symm.trans hthere
      exact ⟨id', hid', (Function.update_of_ne hne ..).trans hthere⟩
  · rcases hback r₁ g₁ hg₁ with ⟨rfl, rfl⟩ | ⟨-, hg₁⟩
    · rcases hback r₂ g₂ hg₂ with ⟨rfl, -⟩ | ⟨-, hg₂⟩
      · rfl
      · exact absurd heq.symm (hnew r₂ g₂ hg₂)
    · rcases hback r₂ g₂ hg₂ with ⟨rfl, rfl⟩ | ⟨-, hg₂⟩
      · exact absurd heq (hnew r₁ g₁ hg₁)
      · exact h.apart r₁ r₂ g₁ g₂ hg₁ hg₂ heq

/-- A file without handles goes, with its entry and its blob. -/
theorem removed (h : Recorded s blobs) (hf : s.files r = some f) (hname : s.names name = some r)
    (hid : f.blobid = some id) (hclosed : r ∉ s'.handles)
    (hothers : ∀ r', r' ≠ r → s'.handles.count r' = s.handles.count r')
    (hfiles : s'.files = (s.removed r name).files)
    (hnames : s'.names = BplusTree.removeName s.names name) :
    Recorded s' (Function.update blobs id false) := by
  have hback : ∀ r' g, s'.files r' = some g → r' ≠ r ∧ s.files r' = some g := by
    intro r' g hg
    rw [hfiles] at hg
    change (s.fileFree r).files r' = some g at hg
    have hr : r' ≠ r := by
      rintro rfl
      cases (Filesystem.fileFree_files_self s r').symm.trans hg
    exact ⟨hr, (Filesystem.fileFree_files_ne hr).symm.trans hg⟩
  have hkept : ∀ r' g, r' ≠ r → s.files r' = some g → s'.files r' = some g := fun r' g hr hg => by
    rw [hfiles]
    exact (Filesystem.fileFree_files_ne hr).trans hg
  have hentries : ∀ n r', s'.names n = some r' → n ≠ name ∧ s.names n = some r' := by
    intro n r' hn
    rw [hnames, BplusTree.removeName] at hn
    have hne : n ≠ name := by
      rintro rfl
      rw [Function.update_self] at hn
      cases hn
    rw [Function.update_of_ne hne] at hn
    exact ⟨hne, hn⟩
  refine ⟨fun r' g hg => ?_, fun n r' hn => ?_, fun r' hr' => ?_, fun r' g hg => ?_,
    fun r₁ r₂ g₁ g₂ hg₁ hg₂ heq => ?_⟩
  · obtain ⟨hr, hg⟩ := hback r' g hg
    rw [hothers r' hr]
    exact h.count r' g hg
  · obtain ⟨hne, hn⟩ := hentries n r' hn
    obtain ⟨g, hg, hkey⟩ := h.tree n r' hn
    refine ⟨g, hkept r' g ?_ hg, hkey⟩
    rintro rfl
    exact hne (h.entry_unique hn hname)
  · have hr : r' ≠ r := by
      rintro rfl
      exact hclosed hr'
    have hpos := List.count_pos_iff.mpr hr'
    rw [hothers r' hr] at hpos
    obtain ⟨n, hn, hshort⟩ := h.held r' (List.count_pos_iff.mp hpos)
    have hne : n ≠ name := by
      rintro rfl
      exact hr (Option.some.inj (hn.symm.trans hname))
    refine ⟨n, ?_, hshort⟩
    rw [hnames, BplusTree.removeName, Function.update_of_ne hne]
    exact hn
  · obtain ⟨hr, hg⟩ := hback r' g hg
    obtain ⟨id', hid', hthere⟩ := h.blobid r' g hg
    have hne : id' ≠ id := by
      rintro rfl
      exact hr (h.apart r' r g f hg hf (hid'.trans hid.symm))
    exact ⟨id', hid', (Function.update_of_ne hne ..).trans hthere⟩
  · exact h.apart r₁ r₂ g₁ g₂ (hback r₁ g₁ hg₁).2 (hback r₂ g₂ hg₂).2 heq

/-- A handle of another file is not counted. -/
theorem count_concat_ne {l : List FileRef} {r' : FileRef} (h : r' ≠ r) :
    (l ++ [r']).count r = l.count r := by
  have hnone : [r'].count r = 0 :=
    List.count_eq_zero.mpr fun hmem => h (List.mem_singleton.mp hmem).symm
  rw [List.count_append, hnone, Nat.add_zero]

/-- An open adds a handle. -/
theorem delivered (h : Recorded s blobs) {cb : CallRef} {blob : Option BlobRef}
    (hf : s.files r = some f) (hroom : f.refCount + 1 < 2 ^ 32) (hname : s.names name = some r)
    (hshort : ¬ spdkFileNameMax < name.strlen) : Recorded (s.delivered r f cb blob) blobs := by
  have hcount : (f.opened cb).refCount = f.refCount + 1 := Nat.mod_eq_of_lt hroom
  have hhandles : ∀ r', (s.handles ++ [r]).count r' = s.handles.count r' + [r].count r' :=
    fun r' => List.count_append
  refine h.setFile (g := { f.opened cb with blob, openRequests := [] }) hf rfl rfl ?_ rfl ?_
    (fun r' hr => ?_) fun _ => ⟨name, hname, hshort⟩
  · exact Function.update_idem ..
  · change (f.opened cb).refCount = (s.handles ++ [r]).count r
    rw [hcount, hhandles, h.count r f hf, List.count_singleton_self]
  · exact count_concat_ne hr.symm

/-- One call keeps the records. -/
theorem step {s s' : Store} (h : Orderly s) {e : Event} (hends : CallEnds s e s')
    (hroom : ∀ r f, s.fs.files r = some f → f.refCount + 1 < 2 ^ 32) :
    Recorded s'.fs s'.blobs := by
  cases hends with
  | refused => exact h.toRecorded.congr rfl rfl rfl
  | created habsent hid =>
      exact (h.toRecorded.created h.keyed habsent hid).congr rfl rfl rfl
  | opened hshort hname hf =>
      exact h.toRecorded.delivered hf (hroom _ _ hf) hname hshort
  | @createdOpened name create cb mem id blob hshort habsent hid =>
      refine (h.toRecorded.created h.keyed habsent hid).delivered (Function.update_self ..)
        (by decide : 0 + 1 < 2 ^ 32) ?_ hshort
      change BplusTree.insertName s.fs.names name s.fs.brk name = _
      rw [BplusTree.insertName_self, habsent, Option.getD_none]
  | @marked name cb mem r f hname hf hpos =>
      have hset : Recorded (s.fs.setFile r { f with isDeleted := true }) s.blobs :=
        h.toRecorded.setFile (g := { f with isDeleted := true }) hf rfl rfl rfl rfl (h.count r f hf)
          (fun _ _ => rfl) (h.held r)
      exact hset.congr rfl rfl rfl
  | @removed name cb mem r f id hname hf hzero hid =>
      have hclosed : r ∉ s.fs.handles := by
        rw [← List.count_eq_zero, ← h.count r f hf]
        exact hzero
      exact h.toRecorded.removed hf hname hid hclosed (fun _ _ => rfl) rfl rfl
  | @closed r cb mem f hf hmore =>
      refine h.toRecorded.setFile (g := { f with refCount := f.refCount - 1 }) hf rfl rfl rfl rfl
        ?_ (fun r' hr => ?_) fun hheld => h.held r (List.mem_of_mem_erase hheld)
      · change f.refCount - 1 = (s.fs.handles.erase r).count r
        rw [List.count_erase_self, h.count r f hf]
      · exact List.count_erase_of_ne hr
  | @closedLast r cb mem f hf hone hunmarked =>
      refine h.toRecorded.setFile (g := { f with refCount := 0, blob := none }) hf rfl rfl rfl rfl
        ?_ (fun r' hr => ?_) fun hheld => h.held r (List.mem_of_mem_erase hheld)
      · change 0 = (s.fs.handles.erase r).count r
        rw [List.count_erase_self, ← h.count r f hf, hone]
      · exact List.count_erase_of_ne hr
  | @closedRemoved r cb mem f name id hf hone hdeleted hkey hname hid =>
      refine h.toRecorded.removed hf hname hid ?_ (fun r' hr => ?_) rfl rfl
      · change r ∉ s.fs.handles.erase r
        rw [← List.count_eq_zero, List.count_erase_self, ← h.count r f hf, hone]
      · exact List.count_erase_of_ne hr

end Recorded

/-- One call keeps the invariant. -/
theorem Orderly.step {s s' : Store} {c : EventCall} (h : Orderly s)
    (hroom : ∀ r f, s.fs.files r = some f → f.refCount + 1 < 2 ^ 32) (hcall : EventCalls s c s') :
    Orderly s' where
  toRecorded := Recorded.step h (callEnds h hcall) hroom
  rests := hcall.1.rests h.rests
  keyed := hcall.1.runs.keeps (P := fun s => Keyed s.fs) h.keyed fun hkeyed _ hstep =>
    hkeyed.step hstep

/-- A filesystem that was loaded: its files have blobs of their own. -/
structure Loaded (s : Store) : Prop extends StoreInitial s where
  apart : ∀ r r' f f', s.fs.files r = some f → s.fs.files r' = some f' → f.blobid = f'.blobid →
    r = r'

theorem Loaded.orderly {s : Store} (h : Loaded s) : Orderly s where
  count r f hf := by
    rw [(h.fs.closed r f hf).2.1, h.fs.handles, List.count_nil]
  tree := h.fs.tree
  held r hr := by
    rw [h.fs.handles] at hr
    cases hr
  blobid r f hf := by
    obtain ⟨id, hid⟩ := Option.ne_none_iff_exists'.mp (h.fs.named r f hf).1
    exact ⟨id, hid, h.blobs r f id hf hid⟩
  apart := h.apart
  rests := h.fs.rests
  keyed := Keyed.initial h.fs

end Nbfs.Fs
