import Nbfs.Fs.CallEnds
import Nbfs.Fs.NameBuffers

set_option autoImplicit false

/-!
# Deletion on the last close

A file that is deleted while it is open is marked: it cannot be opened again, and keeps its
name and its blob until its last handle is closed, whose close deletes it once more.
-/

namespace Nbfs.Fs

open Nbfs.Lib Store

/-- No file has as many references as `ref_count` can hold. -/
def Roomy (s : Store) : Prop := ∀ r f, s.fs.files r = some f → f.refCount + 1 < 2 ^ 32

/-- Calls one after the other, each run to completion. -/
inductive CallRun : Store → List EventCall → Store → Prop where
  | nil {s : Store} : CallRun s [] s
  | concat {s₁ s₂ s₃ : Store} {l : List EventCall} {c : EventCall} :
      CallRun s₁ l s₂ → Roomy s₂ → EventCalls s₂ c s₃ → CallRun s₁ (l ++ [c]) s₃

theorem CallRun.orderly {s s' : Store} {l : List EventCall} (hrun : CallRun s l s')
    (h : Orderly s) : Orderly s' := by
  induction hrun with
  | nil => exact h
  | concat _ hroom hcall ih => exact ih.step hroom hcall

/-- The close of a handle of the file. -/
def Event.closesFile (r : FileRef) : Event → Bool
  | close r' _ _ => decide (r' = r)
  | _ => false

/-- How many calls close a handle of the file. -/
def closes (r : FileRef) (l : List EventCall) : Nat := l.countP fun c => c.1.closesFile r

theorem closes_concat {r : FileRef} {l : List EventCall} {c : EventCall} :
    closes r (l ++ [c]) = closes r l + if c.1.closesFile r then 1 else 0 := by
  simp [closes, List.countP_append, List.countP_singleton]

/-- The call can be run to completion, and whenever it is, `P` holds. -/
def Completed (s : Store) (e : Event) (P : Store → Prop) : Prop :=
  (∃ answers s', EventCalls s (e, answers) s') ∧
    ∀ answers s', EventCalls s (e, answers) s' → P s'

/-- The file cannot be opened and keeps its name and its blob until its handles are closed
`k` times; the last close removes exactly these. -/
def StaysUntilLast (s : Store) (name : CString) (r : FileRef) (id : BlobId) (k : Nat) : Prop :=
  ∀ l s₁, CallRun s l s₁ → Roomy s₁ → closes r l < k →
    s₁.fs.names name = some r ∧ s₁.blobs id = true ∧
      (∀ create cb, Completed s₁ (.open name create cb plenty) fun s₂ =>
        Completes s₁ s₂ cb (-enoent)) ∧
      (closes r l + 1 = k → ∀ cb, Completed s₁ (.close r cb plenty) fun s₂ =>
        Completes s₁ s₂ cb 0 ∧ s₂.fs.names = BplusTree.removeName s₁.fs.names name ∧
          s₂.blobs = Function.update s₁.blobs id false)

/-- A deletion on the last close, of a file with `k` handles. -/
def DeletesOnLastClose (s : Store) (name : CString) (r : FileRef) (id : BlobId) (k : Nat) : Prop :=
  ∀ cb, Completed s (.delete name cb plenty) fun s₁ =>
    Completes s s₁ cb 0 ∧ StaysUntilLast s₁ name r id k

/-- A file that is marked and still open. -/
structure Dying (s : Store) (name : CString) (r : FileRef) (id : BlobId) : Prop where
  entry : s.fs.names name = some r
  file : ∃ f, s.fs.files r = some f ∧ f.isDeleted = true ∧ f.name = some name ∧ f.blobid = some id
  held : r ∈ s.fs.handles

section dying

variable {s s' : Store} {name : CString} {r : FileRef} {id : BlobId} {f : SpdkFile}
  {cb : CallRef} {mem : Memory}

theorem Dying.blob (h : Dying s name r id) (horderly : Orderly s) : s.blobs id = true := by
  obtain ⟨f, hf, -, -, hid⟩ := h.file
  obtain ⟨id', hid', hthere⟩ := horderly.blobid r f hf
  obtain rfl := Option.some.inj (hid.symm.trans hid')
  exact hthere

/-- What is left of the file by a call that concerns another one. -/
theorem Dying.other (h : Dying s name r id) (hentry : s'.fs.names name = s.fs.names name)
    (hfile : s'.fs.files r = s.fs.files r)
    (hcount : s'.fs.handles.count r = s.fs.handles.count r) : Dying s' name r id := by
  refine ⟨hentry.trans h.entry, hfile ▸ h.file, ?_⟩
  rw [← List.count_pos_iff, hcount]
  exact List.count_pos_iff.mpr h.held

/-- Every call leaves the file as it is, and its handles, but the closes of these. -/
theorem Dying.step (h : Dying s name r id) (horderly : Orderly s) {e : Event}
    (hends : CallEnds s e s') (hlast : e.closesFile r = true → s.fs.handles.count r ≠ 1) :
    Dying s' name r id ∧
      s'.fs.handles.count r + (if e.closesFile r then 1 else 0) = s.fs.handles.count r := by
  obtain ⟨f, hf, hdeleted, hkey, hid⟩ := h.file
  have hborn : r ≠ s.fs.brk := by
    rintro rfl
    cases hf.symm.trans (horderly.keyed.unborn _ (Nat.le_refl _))
  have hopen : 0 < f.refCount := by
    rw [horderly.count r f hf]
    exact List.count_pos_iff.mpr h.held
  have hcreated : ∀ {name' : CString} (id' : BlobId), s.fs.names name' = none →
      (s.fs.created name' id').names name = s.fs.names name ∧
        (s.fs.created name' id').files r = s.fs.files r := by
    intro name' id' habsent
    have hne : name ≠ name' := by
      rintro rfl
      cases h.entry.symm.trans habsent
    exact ⟨BplusTree.insertName_of_ne _ hne, Function.update_of_ne hborn ..⟩
  have hremoved : ∀ {name' : CString} {r' : FileRef}, r' ≠ r → s.fs.names name' = some r' →
      BplusTree.removeName s.fs.names name' name = s.fs.names name := by
    intro name' r' hr hname'
    have hne : name ≠ name' := by
      rintro rfl
      exact hr (Option.some.inj (hname'.symm.trans h.entry))
    exact Function.update_of_ne hne ..
  cases hends with
  | @refused e cb fserrno hclose =>
      have hno : e.closesFile r = false := by
        cases e with
        | close r' cb' mem => exact absurd rfl (hclose r' cb' mem)
        | _ => rfl
      exact ⟨h.other rfl rfl rfl, by rw [hno]; rfl⟩
  | @created name' cb mem id' habsent hfree =>
      exact ⟨h.other (hcreated id' habsent).1 (hcreated id' habsent).2 rfl, rfl⟩
  | @opened name' create cb mem r' f' blob hshort hname' hf' hunmarked =>
      have hr : r' ≠ r := by
        rintro rfl
        obtain rfl := Option.some.inj (hf.symm.trans hf')
        cases hdeleted.symm.trans hunmarked
      have hcount : (s.fs.handles ++ [r']).count r = s.fs.handles.count r :=
        Recorded.count_concat_ne hr
      refine ⟨h.other rfl ?_ hcount, hcount⟩
      exact (Filesystem.setFile_files_ne _ hr.symm).trans (Filesystem.setFile_files_ne _ hr.symm)
  | @createdOpened name' create cb mem id' blob hshort habsent hfree =>
      have hcount : (s.fs.handles ++ [s.fs.brk]).count r = s.fs.handles.count r :=
        Recorded.count_concat_ne hborn.symm
      refine ⟨h.other (hcreated id' habsent).1 ?_ hcount, hcount⟩
      exact (Filesystem.setFile_files_ne _ hborn).trans
        ((Filesystem.setFile_files_ne _ hborn).trans (hcreated id' habsent).2)
  | @marked name' cb mem r' f' hname' hf' hpos =>
      by_cases hr : r' = r
      · -- It is marked once more.
        subst hr
        obtain rfl := Option.some.inj (hf.symm.trans hf')
        exact ⟨⟨h.entry, ⟨_, Filesystem.setFile_files_self .., rfl, hkey, hid⟩, h.held⟩, rfl⟩
      · exact ⟨h.other rfl (Filesystem.setFile_files_ne _ (Ne.symm hr)) rfl, rfl⟩
  | @removed name' cb mem r' f' id' hname' hf' hzero hid' =>
      have hr : r' ≠ r := by
        rintro rfl
        obtain rfl := Option.some.inj (hf.symm.trans hf')
        omega
      exact ⟨h.other (hremoved hr hname') (Filesystem.fileFree_files_ne hr.symm) rfl, rfl⟩
  | @closed r' cb mem f' hf' hmore =>
      by_cases hr : r' = r
      · subst hr
        obtain rfl := Option.some.inj (hf.symm.trans hf')
        rw [horderly.count r' f hf] at hmore
        have hcount : (s.fs.handles.erase r').count r' = s.fs.handles.count r' - 1 :=
          List.count_erase_self
        refine ⟨⟨h.entry, ⟨_, Filesystem.setFile_files_self .., hdeleted, hkey, hid⟩, ?_⟩, ?_⟩
        · change r' ∈ s.fs.handles.erase r'
          rw [← List.count_pos_iff, hcount]
          omega
        · change (s.fs.handles.erase r').count r' + _ = _
          rw [hcount, if_pos (by simp [Event.closesFile])]
          omega
      · have hcount : (s.fs.handles.erase r').count r = s.fs.handles.count r :=
          List.count_erase_of_ne (Ne.symm hr)
        refine ⟨h.other rfl (Filesystem.setFile_files_ne _ (Ne.symm hr)) hcount, ?_⟩
        rw [if_neg (by simpa [Event.closesFile] using hr), Nat.add_zero]
        exact hcount
  | @closedLast r' cb mem f' hf' hone hunmarked =>
      have hr : r' ≠ r := by
        rintro rfl
        obtain rfl := Option.some.inj (hf.symm.trans hf')
        cases hdeleted.symm.trans hunmarked
      have hcount : (s.fs.handles.erase r').count r = s.fs.handles.count r :=
        List.count_erase_of_ne hr.symm
      refine ⟨h.other rfl (Filesystem.setFile_files_ne _ hr.symm) hcount, ?_⟩
      rw [if_neg (by simpa [Event.closesFile] using hr), Nat.add_zero]
      exact hcount
  | @closedRemoved r' cb mem f' name' id' hf' hone hdeleted' hkey' hname' hid' =>
      have hr : r' ≠ r := by
        rintro rfl
        obtain rfl := Option.some.inj (hf.symm.trans hf')
        refine hlast (by simp [Event.closesFile]) ?_
        rw [← horderly.count r' f hf]
        exact hone
      have hcount : (s.fs.handles.erase r').count r = s.fs.handles.count r :=
        List.count_erase_of_ne hr.symm
      refine ⟨h.other (hremoved hr hname') (Filesystem.fileFree_files_ne hr.symm) hcount, ?_⟩
      rw [if_neg (by simpa [Event.closesFile] using hr), Nat.add_zero]
      exact hcount

/-- As long as not all handles are closed, the file is there, and the closes are counted. -/
theorem Dying.run {l : List EventCall} (hrun : CallRun s l s') (horderly : Orderly s)
    (h : Dying s name r id) (hfew : closes r l < s.fs.handles.count r) :
    Dying s' name r id ∧ s'.fs.handles.count r + closes r l = s.fs.handles.count r := by
  induction hrun with
  | nil => exact ⟨h, rfl⟩
  | @concat s₂ s₃ l c hrun hroom hcall ih =>
      rw [closes_concat] at hfew ⊢
      obtain ⟨hdying, hcount⟩ := ih (by omega)
      obtain ⟨hdying', hcount'⟩ := hdying.step (hrun.orderly horderly)
        (callEnds (hrun.orderly horderly) hcall) fun hclose => by
          rw [if_pos hclose] at hfew
          omega
      exact ⟨hdying', by omega⟩

/-! ### Calls that can be run to completion -/

/-- An open of a file that is marked is refused. -/
theorem Dying.refuses (h : Dying s name r id) (hshort : ¬ spdkFileNameMax < name.strlen)
    (create : Bool) (cb : CallRef) :
    Completed s (.open name create cb plenty) fun s' => Completes s s' cb (-enoent) := by
  obtain ⟨f, hf, hdeleted, -, -⟩ := h.file
  refine ⟨⟨[], ⟨s.fs.reply cb (-enoent), s.blobs⟩, ⟨allSucceed_nil, ?_⟩, rfl, nofun⟩, ?_⟩
  · refine (open_found hshort h.entry hf rfl).mpr ⟨_, ?_, (finish_reply rfl).mpr ⟨rfl, rfl⟩⟩
    rw [if_pos hdeleted]
  · rintro answers s' ⟨⟨-, halone⟩, -⟩
    obtain ⟨fs, hfs, hfinish⟩ := (open_found hshort h.entry hf rfl).mp halone
    rw [if_pos hdeleted] at hfs
    obtain rfl := Except.ok.inj hfs
    obtain ⟨-, rfl⟩ := (finish_reply rfl).mp hfinish
    rfl

/-- The completion of what waits can be followed by the rest. -/
theorem finish_goes {n : Nat} {fs fs' : Filesystem} {blobs : BlobId → Bool} {op : BsOp}
    {rest : List (Answer × Memory)} (hn : fs.pending.length = n)
    (hanswers : op.answers blobs (done 0 0).1 = true)
    (hresume : op.resume fs (done 0 0).1 plenty = .ok fs')
    (hrest : finish n rest ⟨fs', op.effect blobs (done 0 0).1⟩ = .ok s') :
    finish n (done 0 0 :: rest) ⟨fs.send op, blobs⟩ = .ok s' :=
  (finish_send hn).mpr ⟨_, _, rest, fs', rfl, hanswers, hresume, hrest⟩

section deletion

variable {fs : Filesystem} {g : SpdkFile} {fn : FileOp}

/-- The deletion of a file that is closed. -/
theorem delete_closed (hshort : name.strlen < spdkFileNameMax) (hname : fs.names name = some r)
    (hg : fs.files r = some g) (hzero : g.refCount = 0) (hkey : g.name = some name) :
    fs.spdkFsDeleteFileAsync name fn plenty =
      .ok ((fs.removed r name).send (.deleteBlob g.blobid fn)) := by
  unfold Filesystem.spdkFsDeleteFileAsync
  rw [if_neg (Nat.not_lt.mpr (Nat.le_of_lt hshort)), hname]
  simp only [plenty, Bool.true_eq_false, if_false]
  refine bind_ok.mpr ⟨g, Filesystem.file_ok.mpr hg, ?_⟩
  simp only [hzero, Nat.lt_irrefl, if_false, hkey, if_neg (Nat.not_le.mpr hshort)]
  rfl

/-- The end of the close of a file that is marked. -/
theorem fileCloseAsyncDone_marked {bserrno : Int} (hg : fs.files r = some g)
    (hmarked : g.isDeleted = true) (hkey : g.name = some name) :
    fs.fileCloseAsyncDone r cb bserrno mem =
      fs.spdkFsDeleteFileAsync name (.blobDeleteCb cb) mem := by
  have hfile : fs.file r = .ok g := Filesystem.file_ok.mpr hg
  simp only [Filesystem.fileCloseAsyncDone, hfile]
  change (if g.isDeleted then _ else _) = _
  rw [if_pos hmarked, hkey]

end deletion

/-- The last close of a file that is marked can be run to completion. -/
theorem Dying.lastClose (h : Dying s name r id) (horderly : Orderly s)
    (hshort : name.strlen < spdkFileNameMax) (hone : s.fs.handles.count r = 1) :
    EventCalls s (.close r cb plenty, [done 0 0, done 0 0, done 0 0])
      ⟨((s.fs.released r).removed r name).reply cb 0, Function.update s.blobs id false⟩ := by
  obtain ⟨f, hf, hdeleted, hkey, hid⟩ := h.file
  have hcount : f.refCount = 1 := (horderly.count r f hf).trans hone
  obtain ⟨blob, hblob⟩ : ∃ blob, f.blob = some blob :=
    Option.ne_none_iff_exists'.mp ((horderly.rests.files r f hf).blob (by rw [hcount]; decide))
  have hfile : (s.fs.released r).file r = .ok f := Filesystem.file_ok.mpr hf
  have hlast : (s.fs.released r).fileCloseAsync r cb plenty =
      .ok (((s.fs.released r).setFile r { f with refCount := 0, blob := none }).send
        (.closeBlob r blob cb)) := by
    refine bind_ok.mpr ⟨f, hfile, ?_⟩
    simp only [hcount, hblob]
    rfl
  have hfree : ((s.fs.released r).setFile r { f with refCount := 0, blob := none }).removed r name =
      (s.fs.released r).removed r name := by
    simp [Filesystem.removed, Filesystem.fileFree, Filesystem.setFile]
  have hdelete : ((s.fs.released r).setFile r
      { f with refCount := 0, blob := none }).fileCloseAsyncDone r cb 0 plenty =
        .ok (((s.fs.released r).removed r name).send
          (.deleteBlob (some id) (.blobDeleteCb cb))) := by
    have hself := Filesystem.setFile_files_self (s.fs.released r) r
      { f with refCount := 0, blob := none }
    have hentry : ((s.fs.released r).setFile r
      { f with refCount := 0, blob := none }).names name = some r := h.entry
    rw [fileCloseAsyncDone_marked hself hdeleted hkey, delete_closed hshort hentry hself rfl hkey,
      hfree, ← hid]
  refine ⟨⟨by simp [done], ?_⟩, rfl, by simp [done]⟩
  have hstep : s.step (.event (.close r cb plenty)) =
      .ok ⟨(s.fs.released r).send (.closeSync r cb), s.blobs⟩ := by
    refine bind_ok.mpr ⟨(s.fs.released r).send (.closeSync r cb), ?_, rfl⟩
    simp only [Fs.step, if_pos h.held]
    exact bind_ok.mpr ⟨f, Filesystem.file_ok.mpr hf, rfl⟩
  refine bind_ok.mpr ⟨_, hstep, ?_⟩
  refine finish_goes rfl rfl hlast (finish_goes rfl rfl hdelete (finish_goes rfl ?_ rfl ?_))
  · simp [BsOp.answers, BsOp.effect, h.blob horderly]
  · exact (finish_reply rfl).mpr ⟨rfl, rfl⟩

/-- Whenever it is, the entry and the blob are gone. -/
theorem Dying.closed (h : Dying s name r id) (horderly : Orderly s)
    (hone : s.fs.handles.count r = 1) {answers : List (Answer × Memory)}
    (hcall : EventCalls s (.close r cb plenty, answers) s') :
    Completes s s' cb 0 ∧ s'.fs.names = BplusTree.removeName s.fs.names name ∧
      s'.blobs = Function.update s.blobs id false := by
  obtain ⟨f, hf, hdeleted, hkey, hid⟩ := h.file
  have hends : CallEnds s (.close r cb plenty) s' := callEnds horderly hcall
  cases hends with
  | refused hclose => exact absurd rfl (hclose r cb plenty)
  | closed hf' hmore =>
      rw [horderly.count r _ hf', hone] at hmore
      exact absurd hmore (Nat.lt_irrefl 1)
  | closedLast hf' _ hunmarked =>
      obtain rfl := Option.some.inj (hf.symm.trans hf')
      cases hdeleted.symm.trans hunmarked
  | closedRemoved hf' _ _ hkey' _ hid' _ =>
      obtain rfl := Option.some.inj (hf.symm.trans hf')
      obtain rfl := Option.some.inj (hkey.symm.trans hkey')
      obtain rfl := Option.some.inj (hid.symm.trans hid')
      exact ⟨rfl, rfl, rfl⟩

/-- A file that is marked stays until its last handle is closed. -/
theorem Dying.stays (h : Dying s name r id) (horderly : Orderly s)
    (hshort : name.strlen < spdkFileNameMax) :
    StaysUntilLast s name r id (s.fs.handles.count r) := by
  intro l s₁ hrun hroom hfew
  obtain ⟨hdying, hcount⟩ := Dying.run hrun horderly h hfew
  have horderly₁ := hrun.orderly horderly
  refine ⟨hdying.entry, hdying.blob horderly₁,
    hdying.refuses (Nat.not_lt.mpr (Nat.le_of_lt hshort)), fun hlast cb => ?_⟩
  have hone : s₁.fs.handles.count r = 1 := by omega
  exact ⟨⟨_, _, hdying.lastClose horderly₁ hshort hone⟩, fun answers s₂ hcall =>
    hdying.closed horderly₁ hone hcall⟩

/-- A close that is not the last can be run to completion. -/
theorem close_goes (horderly : Orderly s) (hheld : r ∈ s.fs.handles)
    (hf : s.fs.files r = some f) (hmore : 1 < s.fs.handles.count r) (cb : CallRef) :
    EventCalls s (.close r cb plenty, [done 0 0])
      ⟨((s.fs.released r).setFile r { f with refCount := f.refCount - 1 }).reply cb 0,
        s.blobs⟩ := by
  have hcount : 1 < f.refCount := by
    rw [horderly.count r f hf]
    exact hmore
  have hclose : (s.fs.released r).fileCloseAsync r cb plenty =
      .ok (((s.fs.released r).setFile r { f with refCount := f.refCount - 1 }).reply cb 0) := by
    refine bind_ok.mpr ⟨f, Filesystem.file_ok.mpr hf, ?_⟩
    rw [if_neg (by omega)]
    exact if_pos (by omega)
  refine ⟨⟨by simp [done], ?_⟩, rfl, by simp [done]⟩
  have hstep : s.step (.event (.close r cb plenty)) =
      .ok ⟨(s.fs.released r).send (.closeSync r cb), s.blobs⟩ := by
    refine bind_ok.mpr ⟨(s.fs.released r).send (.closeSync r cb), ?_, rfl⟩
    simp only [Fs.step, if_pos hheld]
    exact bind_ok.mpr ⟨f, Filesystem.file_ok.mpr hf, rfl⟩
  refine bind_ok.mpr ⟨_, hstep, finish_goes rfl rfl hclose ?_⟩
  exact (finish_reply rfl).mpr ⟨rfl, rfl⟩

theorem Roomy.setFile {fs : Filesystem} {blobs : BlobId → Bool}
    (h : Roomy s) (hf : s.fs.files r = some f) {g : SpdkFile} (hle : g.refCount ≤ f.refCount)
    (hfiles : fs.files = Function.update s.fs.files r (some g)) : Roomy ⟨fs, blobs⟩ := by
  intro r' g' hg'
  change fs.files r' = some g' at hg'
  rw [hfiles] at hg'
  by_cases hr : r' = r
  · subst hr
    rw [Function.update_self, Option.some.injEq] at hg'
    subst hg'
    have := h r' f hf
    omega
  · rw [Function.update_of_ne hr] at hg'
    exact h r' g' hg'

/-- All handles but one can be closed. -/
theorem Dying.closes_rest (h : Dying s name r id) (horderly : Orderly s) (hroom : Roomy s) :
    ∃ l s', CallRun s l s' ∧ Roomy s' ∧ closes r l + 1 = s.fs.handles.count r := by
  obtain ⟨k, hk⟩ : ∃ k, s.fs.handles.count r = k + 1 :=
    Nat.exists_eq_add_one.mpr (List.count_pos_iff.mpr h.held)
  have hcloses : ∀ j ≤ k, ∃ l s', CallRun s l s' ∧ Roomy s' ∧ closes r l = j := by
    intro j
    induction j with
    | zero => exact fun _ => ⟨[], s, .nil, hroom, rfl⟩
    | succ j ih =>
        intro hj
        obtain ⟨l, s', hrun, hroom', hcount⟩ := ih (Nat.le_of_succ_le hj)
        obtain ⟨hdying, hleft⟩ := Dying.run hrun horderly h (by omega)
        obtain ⟨f, hf, -⟩ := hdying.file
        have hcall := close_goes (hrun.orderly horderly) hdying.held hf (by omega) 0
        refine ⟨_, _, hrun.concat hroom' hcall, hroom'.setFile hf (Nat.sub_le ..) rfl, ?_⟩
        rw [closes_concat, hcount, if_pos (by simp [Event.closesFile])]
  obtain ⟨l, s', hrun, hroom', hcount⟩ := hcloses k (Nat.le_refl k)
  exact ⟨l, s', hrun, hroom', by omega⟩

/-- A deletion of an open file marks it. -/
theorem delete_open (horderly : Orderly s) (hshort : ¬ spdkFileNameMax < name.strlen)
    (hname : s.fs.names name = some r) (hf : s.fs.files r = some f) (hopen : r ∈ s.fs.handles)
    (cb : CallRef) :
    Completed s (.delete name cb plenty) fun s' =>
      s' = ⟨(s.fs.setFile r { f with isDeleted := true }).reply cb 0, s.blobs⟩ := by
  have hpos : 0 < f.refCount := by
    rw [horderly.count r f hf]
    exact List.count_pos_iff.mpr hopen
  have hn : (s.fs.setFile r { f with isDeleted := true }).pending.length =
    s.fs.pending.length := rfl
  constructor
  · obtain ⟨blob, hblob⟩ : ∃ blob, f.blob = some blob :=
      Option.ne_none_iff_exists'.mp ((horderly.rests.files r f hf).blob (Nat.ne_of_gt hpos))
    have hdelete : s.fs.spdkFsDeleteFileAsync name (.client cb) plenty =
        .ok ((s.fs.setFile r { f with isDeleted := true }).send
          (.syncDeleted blob (.client cb))) := by
      unfold Filesystem.spdkFsDeleteFileAsync
      rw [if_neg hshort, hname]
      simp only [plenty, Bool.true_eq_false, if_false]
      refine bind_ok.mpr ⟨f, Filesystem.file_ok.mpr hf, ?_⟩
      simp only [hpos, if_true, hblob]
      rfl
    refine ⟨[done 0 0], ⟨(s.fs.setFile r { f with isDeleted := true }).reply cb 0, s.blobs⟩,
      ⟨by simp [done], ?_⟩, rfl, by simp [done]⟩
    exact bind_ok.mpr ⟨_, bind_ok.mpr ⟨_, hdelete, rfl⟩,
      finish_goes hn rfl rfl ((finish_reply hn).mpr ⟨rfl, rfl⟩)⟩
  · rintro answers s' ⟨⟨hall, halone⟩, -, hmem⟩
    obtain ⟨s₁, hstep, hfinish⟩ := bind_ok.mp halone
    obtain ⟨fs, hdelete, hs₁⟩ := bind_ok.mp hstep
    obtain rfl := Except.ok.inj hs₁
    rcases delete_found hshort hname hdelete with ⟨hrequest, -⟩ | ⟨-, g, hg, hcases⟩
    · cases hrequest
    obtain rfl := Option.some.inj (hf.symm.trans hg)
    rcases hcases with ⟨blob, -, rfl⟩ | ⟨filename, hzero, -⟩
    · obtain ⟨answer, rest, fs', hzero, -, hresume, -, -, h⟩ :=
        finish_succeeds hn hall hmem hfinish
      simp only [BsOp.resume, hzero] at hresume
      obtain rfl := Except.ok.inj hresume
      exact ((finish_reply hn).mp h).2
    · omega

section runs

variable {s₀ : Store} {l : List EventCall}

/-- The file after the deletion. -/
theorem dying_marked (horderly : Orderly s) (hname : s.fs.names name = some r)
    (hf : s.fs.files r = some f) (hid : f.blobid = some id) (hopen : r ∈ s.fs.handles)
    (cb : CallRef) :
    Dying ⟨(s.fs.setFile r { f with isDeleted := true }).reply cb 0, s.blobs⟩ name r id := by
  obtain ⟨g, hg, hkey⟩ := horderly.tree name r hname
  obtain rfl := Option.some.inj (hf.symm.trans hg)
  exact ⟨hname, ⟨_, Filesystem.setFile_files_self .., rfl, hkey, hid⟩, hopen⟩

/-- The name of a file that is open passed the check of its length. -/
theorem Orderly.accepted (horderly : Orderly s) (hname : s.fs.names name = some r)
    (hopen : r ∈ s.fs.handles) : ¬ spdkFileNameMax < name.strlen := by
  obtain ⟨n, hn, hshort⟩ := horderly.held r hopen
  exact horderly.entry_unique hn hname ▸ hshort

/-- A file that is deleted on its last close has a name that fits into `filename`. -/
theorem DeletesOnLastClose.short (hdeletes : DeletesOnLastClose s name r id (s.fs.handles.count r))
    (horderly : Orderly s) (hroom : Roomy s) (hname : s.fs.names name = some r)
    (hf : s.fs.files r = some f) (hid : f.blobid = some id) (hopen : r ∈ s.fs.handles) :
    name.strlen < spdkFileNameMax := by
  have hdelete := delete_open horderly (horderly.accepted hname hopen) hname hf hopen 0
  have hdying := dying_marked horderly hname hf hid hopen 0
  obtain ⟨⟨answers, s₁, hcall⟩, hall⟩ := hdeletes 0
  obtain ⟨-, hstays⟩ := hall answers s₁ hcall
  have horderly₁ : Orderly s₁ := horderly.step hroom hcall
  obtain rfl := hdelete.2 answers s₁ hcall
  have hroom₁ : Roomy ⟨(s.fs.setFile r { f with isDeleted := true }).reply 0 0, s.blobs⟩ :=
    hroom.setFile hf (g := { f with isDeleted := true }) (Nat.le_refl f.refCount) rfl
  obtain ⟨l₁, s₂, hrun₁, hroom₂, hcount⟩ := hdying.closes_rest horderly₁ hroom₁
  have hfew : closes r l₁ < s.fs.handles.count r := Nat.lt_of_succ_le (Nat.le_of_eq hcount)
  obtain ⟨hdying₂, hleft⟩ := Dying.run hrun₁ horderly₁ hdying hfew
  obtain ⟨-, -, -, hlast⟩ := hstays l₁ s₂ hrun₁ hroom₂ hfew
  obtain ⟨⟨answers', s₃, hclose⟩, -⟩ := hlast hcount 0
  have horderly₂ := hrun₁.orderly horderly₁
  obtain ⟨g, hg, hmark, hkey, -⟩ := hdying₂.file
  have hone : s₂.fs.handles.count r = 1 := by
    change s₂.fs.handles.count r + closes r l₁ = s.fs.handles.count r at hleft
    change closes r l₁ + 1 = s.fs.handles.count r at hcount
    omega
  have hends : CallEnds s₂ (.close r 0 plenty) s₃ := callEnds horderly₂ hclose
  cases hends with
  | refused hno => exact absurd rfl (hno r 0 plenty)
  | closed hg' hmore =>
      rw [horderly₂.count r _ hg', hone] at hmore
      exact absurd hmore (Nat.lt_irrefl 1)
  | closedLast hg' _ hunmarked =>
      obtain rfl := Option.some.inj (hg.symm.trans hg')
      cases hmark.symm.trans hunmarked
  | closedRemoved hg' _ _ hkey' _ _ hfits =>
      obtain rfl := Option.some.inj (hg.symm.trans hg')
      obtain rfl := Option.some.inj (hkey.symm.trans hkey')
      exact hfits

/-- Where everything succeeds and no reference count reaches its bound, an open file is
deleted on its last close if and only if its name is shorter than `SPDK_FILE_NAME_MAX`. -/
theorem deletesOnLastClose_iff (hloaded : Loaded s₀) (hrun : CallRun s₀ l s) (hroom : Roomy s)
    (hname : s.fs.names name = some r) (hf : s.fs.files r = some f) (hid : f.blobid = some id)
    (hopen : r ∈ s.fs.handles) :
    DeletesOnLastClose s name r id (s.fs.handles.count r) ↔ name.strlen < spdkFileNameMax := by
  have horderly := hrun.orderly hloaded.orderly
  have hdelete := delete_open horderly (horderly.accepted hname hopen) hname hf hopen
  constructor
  · exact fun hdeletes => hdeletes.short horderly hroom hname hf hid hopen
  · intro hfits cb
    refine ⟨(hdelete cb).1, fun answers s₁ hcall => ?_⟩
    have horderly₁ : Orderly s₁ := horderly.step hroom hcall
    obtain rfl := (hdelete cb).2 answers s₁ hcall
    exact ⟨rfl, (dying_marked horderly hname hf hid hopen cb).stays horderly₁ hfits⟩

end runs

end dying

/-! ### A file that is open once -/

section openOnce

variable {name : CString} {r : FileRef} {f : SpdkFile}

/-- The file of the name is loaded, and is the only one. -/
def onlyFile (name : CString) : Store where
  fs :=
    { files := Function.update (fun _ => none) 0 (some (newFile name 5))
      names := Function.update (fun _ => none) name (some 0)
      brk := 1
      pending := []
      handles := []
      replies := [] }
  blobs blobid := decide (blobid = 5)

theorem onlyFile_files (hf : (onlyFile name).fs.files r = some f) : r = 0 ∧ f = newFile name 5 := by
  by_cases hr : r = 0
  · subst hr
    exact ⟨rfl, (Option.some.inj hf).symm⟩
  · have hnone : (onlyFile name).fs.files r = none := by simp [onlyFile, hr]
    cases hnone.symm.trans hf

theorem onlyFile_loaded : Loaded (onlyFile name) where
  fs := by
    refine ⟨rfl, rfl, fun r f hf => ?_, fun r f hf => ?_, fun n r hn => ?_⟩
    · obtain ⟨-, rfl⟩ := onlyFile_files hf
      exact ⟨rfl, rfl, rfl, rfl⟩
    · obtain ⟨rfl, rfl⟩ := onlyFile_files hf
      exact ⟨by simp [newFile], Nat.one_pos⟩
    · by_cases hne : n = name
      · subst hne
        have hzero : (onlyFile n).fs.names n = some 0 := by simp [onlyFile]
        obtain rfl := Option.some.inj (hzero.symm.trans hn)
        exact ⟨newFile n 5, rfl, rfl⟩
      · have hnone : (onlyFile name).fs.names n = none := by simp [onlyFile, hne]
        cases hnone.symm.trans hn
  blobs r f id hf hid := by
    obtain ⟨-, rfl⟩ := onlyFile_files hf
    obtain rfl := Option.some.inj hid
    rfl
  apart r r' f f' hf hf' _ := (onlyFile_files hf).1.trans (onlyFile_files hf').1.symm

/-- And it is open. -/
def openOnce (name : CString) : Store :=
  ⟨(onlyFile name).fs.delivered 0 (newFile name 5) 0 (some 0), (onlyFile name).blobs⟩

theorem openOnce_run (hshort : ¬ spdkFileNameMax < name.strlen) :
    CallRun (onlyFile name) ([] ++ [(.open name false 0 plenty, [done 0 0])]) (openOnce name) := by
  have hroom : Roomy (onlyFile name) := fun r f hf => by
    obtain ⟨-, rfl⟩ := onlyFile_files hf
    simp [newFile]
  have hname : (onlyFile name).fs.names name = some 0 := by simp [onlyFile]
  refine .concat .nil hroom ⟨⟨by simp [done], ?_⟩, rfl, by simp [done]⟩
  exact (open_found hshort hname rfl rfl).mpr
    ⟨_, fsOpenBlobCreateCb_first rfl rfl rfl, finish_goes rfl rfl (fsOpenBlobDone_opened rfl _)
      ((finish_done rfl).mpr ⟨rfl, rfl⟩)⟩

theorem openOnce_file : (openOnce name).fs.files 0 =
    some { newFile name 5 with refCount := 1, blob := some 0 } := by
  simp [openOnce, Filesystem.delivered, Filesystem.setFile, SpdkFile.opened, newFile]

theorem openOnce_roomy : Roomy (openOnce name) := by
  intro r f hf
  by_cases hr : r = 0
  · subst hr
    obtain rfl := Option.some.inj (openOnce_file.symm.trans hf)
    simp
  · have hnone : (openOnce name).fs.files r = none := by
      simp [openOnce, onlyFile, Filesystem.delivered, Filesystem.setFile, hr]
    cases hnone.symm.trans hf

end openOnce

/-- `"a"` is deleted on its last close. -/
theorem deletesOnLastClose_iff_nameA : DeletesOnLastClose (openOnce nameA) nameA 0 5 1 :=
  (deletesOnLastClose_iff onlyFile_loaded (openOnce_run (by decide)) openOnce_roomy rfl
    openOnce_file rfl (by decide)).mpr (by decide)

/-- A file with the longest name that is accepted is not: the second deletion copies the
name with its NUL behind the end of `filename`. -/
theorem deletesOnLastClose_longest : ¬ ∀ (s₀ s : Store) (l : List EventCall) (name : CString)
    (r : FileRef) (f : SpdkFile) (id : BlobId), Loaded s₀ → CallRun s₀ l s → Roomy s →
      s.fs.names name = some r → s.fs.files r = some f → f.blobid = some id →
        r ∈ s.fs.handles → DeletesOnLastClose s name r id (s.fs.handles.count r) := by
  intro hall
  have hlen : longestName.strlen = spdkFileNameMax := List.length_replicate
  have hrun := openOnce_run (Nat.not_lt.mpr (Nat.le_of_eq hlen))
  have hname : (openOnce longestName).fs.names longestName = some 0 := by
    simp [openOnce, Filesystem.delivered, Filesystem.setFile, onlyFile]
  have hopen : 0 ∈ (openOnce longestName).fs.handles := List.mem_singleton_self 0
  have hdeletes := hall _ _ _ _ _ _ _ onlyFile_loaded hrun openOnce_roomy hname openOnce_file rfl
    hopen
  have hfits := hdeletes.short (hrun.orderly onlyFile_loaded.orderly) openOnce_roomy hname
    openOnce_file rfl hopen
  exact absurd hlen (Nat.ne_of_lt hfits)

end Nbfs.Fs
