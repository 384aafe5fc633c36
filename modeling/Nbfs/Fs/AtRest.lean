import Nbfs.Fs.Atomic

set_option autoImplicit false

/-!
# Calls that run to completion

A client makes each call when the one before has been completed, and every operation of
the blobstore succeeds.  Between two calls nothing waits, no open is on a queue, and a
file with a reference has its blob.
-/

namespace Nbfs.Fs

open Nbfs.Lib Store

/-- A request, with the answers to what it asks of the blobstore. -/
abbrev RequestCall := Request × List (Answer × Memory)

/-- The call is made alone, and every operation of the blobstore succeeds. -/
def Calls (s : Store) (c : RequestCall) (s' : Store) : Prop :=
  AllSucceed c.2 ∧ s.alone c.1 c.2 = .ok s'

/-- A state that calls lead to, each run to completion. -/
def AtRest (s : Store) : Prop :=
  ∃ s₀, StoreInitial s₀ ∧ Runs Calls (fun _ _ => True) s₀ s

/-! ### Calls are runs of steps -/

namespace Store

variable {n : Nat} {answers : List (Answer × Memory)} {s s' : Store}

theorem finish_runs (h : finish n answers s = .ok s') :
    Runs StoreSteps (fun _ _ => True) s s' := by
  induction answers generalizing s with
  | nil =>
      rw [finish] at h
      split at h
      · obtain rfl := Except.ok.inj h
        exact .refl
      · cases h
  | cons answer answers ih =>
      obtain ⟨s₁, hcomplete, hrest⟩ := bind_ok.mp h
      exact (Runs.one (e := .event (.complete n answer.1 answer.2)) trivial hcomplete).trans
        (ih hrest)

end Store

theorem Calls.runs {s s' : Store} {c : RequestCall} (h : Calls s c s') :
    Runs StoreSteps (fun _ _ => True) s s' := by
  obtain ⟨s₁, hstep, hfinish⟩ := bind_ok.mp h.2
  exact (Runs.one trivial hstep).trans (Store.finish_runs hfinish)

theorem AtRest.reachable {s : Store} (h : AtRest s) : Reachable s := by
  obtain ⟨s₀, hinitial, hrun⟩ := h
  refine ⟨s₀, hinitial, ?_⟩
  induction hrun with
  | refl => exact .refl
  | tail _ _ hcall ih => exact ih.trans hcall.runs

/-! ### Files at rest -/

/-- No open waits for the file, and a file with a reference has its blob. -/
structure SpdkFile.Rests (f : SpdkFile) : Prop where
  queue : f.openRequests = []
  count : f.refCount < 2 ^ 32
  blob : f.refCount ≠ 0 → f.blob ≠ none

namespace Filesystem

/-- Nothing waits, and every file is at rest. -/
structure Rests (s : Filesystem) : Prop where
  pending : s.pending = []
  files : ∀ r f, s.files r = some f → f.Rests

/-- At most one operation waits; if it opens the blob of a file, that file is not at rest. -/
def Works (s : Filesystem) : Prop :=
  s.Rests ∨ ∃ op, s.pending = [op] ∧ ∀ r f, s.files r = some f →
    f.Rests ∨ f.refCount < 2 ^ 32 ∧ ∃ blobid, op = .openBlob r blobid

namespace Rests

variable {s s' : Filesystem} {r : FileRef} {fn : FileOp} {cb : CallRef} {mem : Memory}
  {name : CString}

/-- Only the files and what waits matter. -/
theorem congr (h : s.Rests) (hfiles : s'.files = s.files) (hpending : s'.pending = s.pending) :
    s'.Rests :=
  ⟨hpending.trans h.pending, fun r f hf => h.files r f (hfiles ▸ hf)⟩

theorem reply (h : s.Rests) {fserrno : Int} : (s.reply cb fserrno).Rests := h.congr rfl rfl

theorem send (h : s.Rests) {op : BsOp} : (s.send op).Works :=
  Or.inr ⟨op, by simp [Filesystem.send, h.pending], fun r f hf => Or.inl (h.files r f hf)⟩

theorem setFile (h : s.Rests) {f : SpdkFile} (hf : f.Rests) : (s.setFile r f).Rests := by
  refine ⟨h.pending, fun r' g hg => ?_⟩
  by_cases hr : r' = r
  · subst hr
    rw [setFile_files_self, Option.some.injEq] at hg
    exact hg ▸ hf
  · rw [setFile_files_ne f hr] at hg
    exact h.files r' g hg

theorem fileFree (h : s.Rests) : (s.fileFree r).Rests := by
  refine ⟨h.pending, fun r' g hg => ?_⟩
  by_cases hr : r' = r
  · subst hr
    cases (fileFree_files_self s r').symm.trans hg
  · rw [fileFree_files_ne hr] at hg
    exact h.files r' g hg

/-- A new file is at rest. -/
theorem rests_new (name : Option CString) : SpdkFile.Rests ⟨name, none, none, 0, false, []⟩ :=
  ⟨rfl, Nat.two_pow_pos 32, fun hne => absurd rfl hne⟩

theorem fileAlloc (h : s.Rests) : (s.fileAlloc name).Rests := by
  refine ⟨h.pending, fun r g hg => ?_⟩
  by_cases hr : r = s.brk
  · subst hr
    rw [fileAlloc_files_self, Option.some.injEq] at hg
    exact hg ▸ rests_new none
  · rw [fileAlloc_files_ne hr] at hg
    exact h.files r g hg

/-- The blob's open succeeds: the file comes to rest. -/
theorem fsOpenBlobDone {blob : Option BlobRef} (hblob : blob ≠ none) (hpending : s.pending = [])
    (hfiles : ∀ r' f, s.files r' = some f → f.Rests ∨ f.refCount < 2 ^ 32 ∧ r' = r)
    (hdone : s.fsOpenBlobDone r blob 0 = .ok s') : s'.Rests := by
  obtain ⟨f, hf, rfl⟩ := fsOpenBlobDone_ok hdone
  refine ⟨hpending, fun r' g hg => ?_⟩
  change (s.setFile r { f with blob, openRequests := [] }).files r' = some g at hg
  by_cases hr : r' = r
  · subst hr
    rw [setFile_files_self, Option.some.injEq] at hg
    have hcount : f.refCount < 2 ^ 32 := (hfiles r' f hf).elim (fun h => h.count) fun h => h.1
    exact hg ▸ ⟨rfl, hcount, fun _ => hblob⟩
  · rw [setFile_files_ne _ hr] at hg
    exact (hfiles r' g hg).resolve_right fun h => hr h.2

theorem fsOpenBlobCreateCb (h : s.Rests) {file : Option FileRef}
    (hopen : s.fsOpenBlobCreateCb file name cb = .ok s') : s'.Works := by
  obtain ⟨r, old, -, hold, hcases⟩ := fsOpenBlobCreateCb_ok hopen
  have hcount : (old.opened cb).refCount < 2 ^ 32 := Nat.mod_lt _ (by decide)
  have hset : ∀ r' f, (s.setFile r (old.opened cb)).files r' = some f →
      f.Rests ∨ f.refCount < 2 ^ 32 ∧ r' = r := by
    intro r' f hf
    by_cases hr : r' = r
    · subst hr
      rw [setFile_files_self, Option.some.injEq] at hf
      exact Or.inr ⟨hf ▸ hcount, rfl⟩
    · rw [setFile_files_ne _ hr] at hf
      exact Or.inl (h.files r' f hf)
  rcases hcases with ⟨-, -, rfl⟩ | ⟨hne, hnone, -⟩ | ⟨-, hblob, hdone⟩
  · refine Or.inr ⟨.openBlob r old.blobid, ?_, fun r' f hf => ?_⟩
    · simp [Filesystem.send, Filesystem.setFile, h.pending]
    refine (hset r' f hf).imp_right fun hr => ?_
    obtain ⟨hlt, rfl⟩ := hr
    exact ⟨hlt, old.blobid, rfl⟩
  · -- A file without a blob has no reference, so that this open is its first.
    have hzero : old.refCount = 0 := by
      by_contra hpos
      exact (h.files r old hold).blob hpos hnone
    exact absurd (by simp [SpdkFile.opened, hzero]) hne
  · exact Or.inl (fsOpenBlobDone (s := s.setFile r (old.opened cb)) hblob h.pending hset hdone)

theorem fsMdRenameFile (h : s.Rests) {oldName newName : CString}
    (hrename : s.fsMdRenameFile oldName newName cb = .ok s') : s'.Works := by
  rcases fsMdRenameFile_ok hrename with ⟨-, rfl⟩ | ⟨r, f, name, -, hf, -, rfl⟩
  · exact Or.inl h.reply
  · have hrests := h.files r f hf
    have hset : (s.setFile r { f with name := some newName }).Rests :=
      h.setFile ⟨hrests.queue, hrests.count, hrests.blob⟩
    have hmoved : ({ s with
        names := BplusTree.insertName (BplusTree.removeName s.names name) newName r
      }.setFile r { f with name := some newName }).Rests := hset.congr rfl rfl
    exact hmoved.send

theorem callFileOp (h : s.Rests) {fserrno : Int} (hcall : s.callFileOp fn fserrno = .ok s') :
    s'.Works := by
  rcases callFileOp_ok hcall with
    ⟨cb, rfl⟩ | ⟨name, cb, -, hopen⟩ | ⟨oldName, newName, cb, -, hrename⟩
  · exact Or.inl h.reply
  · exact h.fsOpenBlobCreateCb hopen
  · exact h.fsMdRenameFile hrename

theorem spdkFsCreateFileAsync (h : s.Rests)
    (hcreate : s.spdkFsCreateFileAsync name fn mem = .ok s') : s'.Works := by
  rcases spdkFsCreateFileAsync_ok hcreate with ⟨_, hcall⟩ | ⟨-, -, hcall⟩ | ⟨-, -, rfl⟩
  · exact h.callFileOp hcall
  · exact h.fileAlloc.callFileOp hcall
  · exact (h.fileAlloc.setFile (rests_new (some name))).send

theorem spdkFsDeleteFileAsync (h : s.Rests)
    (hdelete : s.spdkFsDeleteFileAsync name fn mem = .ok s') : s'.Works := by
  rcases spdkFsDeleteFileAsync_ok hdelete with
    ⟨_, hcall⟩ | ⟨r, f, -, hf, ⟨blob, -, -, rfl⟩ | ⟨filename, -, -, rfl⟩⟩
  · exact h.callFileOp hcall
  · have hrests := h.files r f hf
    have hset : (s.setFile r { f with isDeleted := true }).Rests :=
      h.setFile ⟨hrests.queue, hrests.count, hrests.blob⟩
    exact hset.send
  · have hfree : (s.fileFree r).Rests := h.fileFree
    have hremoved : ({ s.fileFree r with names := BplusTree.removeName s.names filename } :
        Filesystem).Rests := hfree.congr rfl rfl
    exact hremoved.send

theorem fileCloseAsyncDone (h : s.Rests) {bserrno : Int}
    (hdone : s.fileCloseAsyncDone r cb bserrno mem = .ok s') : s'.Works := by
  obtain ⟨f, -, ⟨-, rfl⟩ | ⟨name, -, -, hdelete⟩⟩ := fileCloseAsyncDone_ok hdone
  · exact Or.inl h.reply
  · exact h.spdkFsDeleteFileAsync hdelete

theorem fileCloseAsync (h : s.Rests) (hclose : s.fileCloseAsync r cb mem = .ok s') : s'.Works := by
  obtain ⟨f, hf, ⟨-, hdone⟩ | ⟨hmore, rfl⟩ | ⟨blob, hone, -, rfl⟩⟩ := fileCloseAsync_ok hclose
  · exact h.fileCloseAsyncDone hdone
  · have hrests := h.files r f hf
    have hset : (s.setFile r { f with refCount := f.refCount - 1 }).Rests :=
      h.setFile ⟨hrests.queue, Nat.lt_of_le_of_lt (Nat.sub_le _ 1) hrests.count,
        fun _ => hrests.blob (Nat.ne_of_gt (Nat.lt_of_succ_lt hmore))⟩
    exact Or.inl hset.reply
  · have hrests := h.files r f hf
    have hset : (s.setFile r { f with refCount := f.refCount - 1, blob := none }).Rests := by
      refine h.setFile ⟨hrests.queue, Nat.lt_of_le_of_lt (Nat.sub_le _ 1) hrests.count, ?_⟩
      rw [hone]
      exact fun hne => absurd rfl hne
    exact hset.send

end Rests

namespace Works

variable {s s' : Filesystem} {cb : CallRef} {mem : Memory}

/-- What waited is completed, and succeeds. -/
theorem resume {op : BsOp} {answer : Answer} {blobs : BlobId → Bool} (hpending : s.pending = [])
    (hfiles : ∀ r f, s.files r = some f →
      f.Rests ∨ f.refCount < 2 ^ 32 ∧ ∃ blobid, op = .openBlob r blobid)
    (hzero : answer.bserrno = 0) (hanswers : op.answers blobs answer = true)
    (hresume : op.resume s answer mem = .ok s') : s'.Works := by
  have hrests : (∀ r blobid, op ≠ .openBlob r blobid) → s.Rests := fun hop =>
    ⟨hpending, fun r f hf => (hfiles r f hf).resolve_right fun h => h.2.elim (hop r)⟩
  cases op with
  | createBlob r fn =>
      have h := hrests (by simp)
      simp only [BsOp.resume, fsCreateBlobCreateCb, hzero, ne_eq, not_true_eq_false,
        if_false] at hresume
      obtain ⟨f, hf, hresume⟩ := bind_ok.mp hresume
      obtain rfl := Except.ok.inj hresume
      have hf := h.files r f (file_ok.mp hf)
      have hset : (s.setFile r { f with blobid := some answer.blobid }).Rests :=
        h.setFile ⟨hf.queue, hf.count, hf.blob⟩
      exact hset.send
  | createOpen r blobid fn =>
      simp only [BsOp.resume, fsCreateBlobOpenCb, hzero, ne_eq, not_true_eq_false,
        if_false] at hresume
      obtain rfl := Except.ok.inj hresume
      exact (hrests (by simp)).send
  | createResize r blob fn =>
      simp only [BsOp.resume, fsCreateBlobResizeCb, hzero, ne_eq, not_true_eq_false,
        if_false] at hresume
      obtain ⟨f, -, hresume⟩ := bind_ok.mp hresume
      split at hresume
      · cases hresume
      · obtain rfl := Except.ok.inj hresume
        exact (hrests (by simp)).send
  | createClose blob rc fn => exact (hrests (by simp)).callFileOp hresume
  | openBlob r blobid =>
      simp only [BsOp.answers, hzero, decide_true, beq_iff_eq] at hanswers
      change s.fsOpenBlobDone r answer.blob answer.bserrno = .ok s' at hresume
      rw [hzero] at hresume
      refine Or.inl (Rests.fsOpenBlobDone (Option.isSome_iff_ne_none.mp hanswers) hpending
        (fun r' f hf => (hfiles r' f hf).imp_right fun h => ⟨h.1, ?_⟩) hresume)
      obtain ⟨blobid', heq⟩ := h.2
      exact (BsOp.openBlob.inj heq).1.symm
  | closeSync r cb => exact (hrests (by simp)).fileCloseAsync hresume
  | closeBlob r blob cb => exact (hrests (by simp)).fileCloseAsyncDone hresume
  | syncDeleted blob fn => exact (hrests (by simp)).callFileOp hresume
  | deleteBlob blobid fn => exact (hrests (by simp)).callFileOp hresume
  | renameOpen blobid newName cb =>
      simp only [BsOp.resume, fsRenameBlobOpenCb] at hresume
      split at hresume
      · cases hresume
      · obtain rfl := Except.ok.inj hresume
        exact (hrests (by simp)).send
  | renameClose blob cb =>
      obtain rfl := Except.ok.inj hresume
      exact Or.inl (hrests (by simp)).reply

/-- The completions come one after the other, and all succeed. -/
theorem finish {s s' : Store} {answers : List (Answer × Memory)} (h : s.fs.Works)
    (hall : AllSucceed answers) (hfinish : Store.finish 0 answers s = .ok s') : s'.fs.Rests := by
  induction answers generalizing s with
  | nil =>
      rw [Store.finish] at hfinish
      split at hfinish
      · rename_i hempty
        obtain rfl := Except.ok.inj hfinish
        rcases h with hrests | ⟨op, hop, -⟩
        · exact hrests
        · rw [hop] at hempty
          cases hempty
      · cases hfinish
  | cons answer answers ih =>
      obtain ⟨answer, mem⟩ := answer
      obtain ⟨hzero, hrest⟩ := allSucceed_cons.mp hall
      obtain ⟨s₁, hcomplete, hfinish⟩ := bind_ok.mp hfinish
      unfold Store.complete at hcomplete
      split at hcomplete
      · cases hcomplete
      rename_i op hop
      split at hcomplete
      · cases hcomplete
      rename_i hanswers
      obtain ⟨fs, hresume, hcomplete⟩ := bind_ok.mp hcomplete
      obtain rfl := Except.ok.inj hcomplete
      refine ih ?_ hrest hfinish
      rcases h with hrests | ⟨op', hpending, hfiles⟩
      · rw [hrests.pending] at hop
        cases hop
      · rw [hpending] at hop
        obtain rfl := Option.some.inj hop
        refine resume (s := { s.fs with pending := s.fs.pending.eraseIdx 0 }) ?_ hfiles hzero
          (by simpa using hanswers) hresume
        simp [hpending]

end Works

end Filesystem

/-- One call leaves everything at rest. -/
theorem Calls.rests {s s' : Store} {c : RequestCall} (h : s.fs.Rests) (hcall : Calls s c s') :
    s'.fs.Rests := by
  obtain ⟨hall, hcall⟩ := hcall
  obtain ⟨s₁, hstep, hfinish⟩ := bind_ok.mp hcall
  rw [h.pending] at hfinish
  refine Filesystem.Works.finish ?_ hall hfinish
  obtain ⟨request, answers⟩ := c
  cases request with
  | event e =>
      cases e with
      | complete i answer mem =>
          change s.complete i answer mem = .ok s₁ at hstep
          rw [Store.complete, h.pending] at hstep
          cases hstep
      | create name cb mem =>
          obtain ⟨fs, hfs, hstep⟩ := bind_ok.mp hstep
          obtain rfl := Except.ok.inj hstep
          exact h.spdkFsCreateFileAsync hfs
      | «open» name create cb mem =>
          obtain ⟨fs, hfs, hstep⟩ := bind_ok.mp hstep
          obtain rfl := Except.ok.inj hstep
          rcases Filesystem.spdkFsOpenFileAsync_ok hfs with
            ⟨_, rfl⟩ | ⟨-, hcreate⟩ | ⟨r, -, hopen⟩
          · exact Or.inl h.reply
          · exact h.spdkFsCreateFileAsync hcreate
          · exact h.fsOpenBlobCreateCb hopen
      | delete name cb mem =>
          obtain ⟨fs, hfs, hstep⟩ := bind_ok.mp hstep
          obtain rfl := Except.ok.inj hstep
          exact h.spdkFsDeleteFileAsync hfs
      | close r cb mem =>
          obtain ⟨fs, hfs, hstep⟩ := bind_ok.mp hstep
          obtain rfl := Except.ok.inj hstep
          simp only [Fs.step] at hfs
          split at hfs
          · obtain ⟨f, -, hfs⟩ := bind_ok.mp hfs
            split at hfs
            · obtain rfl := Except.ok.inj hfs
              exact Or.inl h.reply
            · obtain rfl := Except.ok.inj hfs
              have hsame : { s.fs with handles := s.fs.handles.erase r }.Rests := h.congr rfl rfl
              exact hsame.send
          · cases hfs
  | rename oldName newName cb mem deleteMem =>
      obtain ⟨fs, hfs, hstep⟩ := bind_ok.mp hstep
      obtain rfl := Except.ok.inj hstep
      unfold Filesystem.spdkFsRenameFileAsync at hfs
      split at hfs
      · obtain rfl := Except.ok.inj hfs
        exact Or.inl h.reply
      split at hfs
      · obtain rfl := Except.ok.inj hfs
        exact Or.inl h.reply
      split at hfs
      · exact h.fsMdRenameFile hfs
      · exact h.spdkFsDeleteFileAsync hfs

theorem Initial.rests {s : Filesystem} (h : Initial s) : s.Rests := by
  refine ⟨h.pending, fun r f hf => ?_⟩
  obtain ⟨-, hcount, -, hqueue⟩ := h.closed r f hf
  refine ⟨hqueue, ?_, fun hne => absurd hcount hne⟩
  rw [hcount]
  exact Nat.two_pow_pos 32

/-- Between two calls everything is at rest. -/
theorem AtRest.rests {s : Store} (h : AtRest s) : s.fs.Rests := by
  obtain ⟨s₀, hinitial, hrun⟩ := h
  exact hrun.keeps (P := fun s => s.fs.Rests) hinitial.fs.rests fun hrests _ hcall =>
    Calls.rests hrests hcall

end Nbfs.Fs
