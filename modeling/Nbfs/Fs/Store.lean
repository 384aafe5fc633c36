import Nbfs.Fs.Names

set_option autoImplicit false

/-!
# The filesystem on its blobstore

A filesystem with the blobs that exist, whose clients also rename files.  An operation
alone is one whose completions come with nothing between them; other operations may have
been waiting when it began.
-/

namespace Nbfs.Fs

open Nbfs.Lib

structure Store where
  fs : Filesystem
  /-- The blobs that exist. -/
  blobs : BlobId → Bool

/-- A step of the filesystem, or the call of a rename. -/
inductive Request where
  | event (e : Event)
  | rename (oldName newName : CString) (cb : CallRef) (mem deleteMem : Memory)

/-- What the blobstore may answer: a new blob has an id that no blob has, only a blob that
exists is deleted, and an open gives a handle if and only if it succeeds. -/
def BsOp.answers (blobs : BlobId → Bool) (answer : Answer) : BsOp → Bool
  | createBlob .. => answer.bserrno ≠ 0 || !blobs answer.blobid
  | deleteBlob blobid _ => answer.bserrno ≠ 0 || blobid.any blobs
  | createOpen .. | openBlob .. | renameOpen .. => answer.blob.isSome == decide (answer.bserrno = 0)
  | _ => true

/-- What a completion does to the blobs. -/
def BsOp.effect (blobs : BlobId → Bool) (answer : Answer) : BsOp → BlobId → Bool
  | createBlob .. =>
      if answer.bserrno = 0 then Function.update blobs answer.blobid true else blobs
  | deleteBlob (some blobid) _ =>
      if answer.bserrno = 0 then Function.update blobs blobid false else blobs
  | _ => blobs

namespace Store

/-- The completion of what waits at index `i`. -/
def complete (s : Store) (i : Nat) (answer : Answer) (mem : Memory) : Except Fault Store :=
  match s.fs.pending[i]? with
  | none => .error .noEvent
  | some op =>
      if op.answers s.blobs answer = false then .error .noEvent
      else do
        let fs ← op.resume { s.fs with pending := s.fs.pending.eraseIdx i } answer mem
        return ⟨fs, op.effect s.blobs answer⟩

def step (s : Store) : Request → Except Fault Store
  | .event (.complete i answer mem) => s.complete i answer mem
  | .event e => do
      let fs ← Fs.step s.fs e
      return { s with fs }
  | .rename oldName newName cb mem deleteMem => do
      let fs ← s.fs.spdkFsRenameFileAsync oldName newName cb mem deleteMem
      return { s with fs }

/-- The completions, one answer each, of what waits behind the first `n`. -/
def finish (n : Nat) : List (Answer × Memory) → Store → Except Fault Store
  | [], s => if s.fs.pending.length = n then .ok s else .error .noEvent
  | (answer, mem) :: answers, s => do
      let s ← s.complete n answer mem
      finish n answers s

/-- A request and, with nothing between them, its completions. -/
def alone (s : Store) (request : Request) (answers : List (Answer × Memory)) :
    Except Fault Store := do
  let s' ← s.step request
  finish s.fs.pending.length answers s'

/-- The request was completed with an error, or 0. -/
def Completes (s s' : Store) (cb : CallRef) (fserrno : Int) : Prop :=
  s'.fs.replies = s.fs.replies ++ [⟨cb, fserrno, none⟩]

end Store

def StoreSteps (s : Store) (request : Request) (s' : Store) : Prop := s.step request = .ok s'

/-- Nothing is open and nothing waits, and the blobs of the files exist. -/
structure StoreInitial (s : Store) : Prop where
  fs : Initial s.fs
  blobs : ∀ r f blobid, s.fs.files r = some f → f.blobid = some blobid → s.blobs blobid = true

/-- A state that some interleaving of requests and completions leads to. -/
def Reachable (s : Store) : Prop :=
  ∃ s₀, StoreInitial s₀ ∧ Runs StoreSteps (fun _ _ => True) s₀ s

namespace Store

variable {n : Nat} {fs fs' : Filesystem} {blobs : BlobId → Bool} {s' : Store} {op : BsOp}
  {answers : List (Answer × Memory)} {cb : CallRef} {fserrno fserrno' : Int}

/-! ### An operation alone -/

/-- Nothing more waits than before the request. -/
theorem finish_done (hn : fs.pending.length = n) :
    finish n answers ⟨fs, blobs⟩ = .ok s' ↔ answers = [] ∧ s' = ⟨fs, blobs⟩ := by
  cases answers with
  | nil =>
      rw [finish, if_pos hn, Except.ok.injEq]
      exact ⟨fun h => ⟨rfl, h.symm⟩, fun h => h.2.symm⟩
  | cons answer answers =>
      obtain ⟨answer, mem⟩ := answer
      have hnone : fs.pending[n]? = none := List.getElem?_eq_none (Nat.le_of_eq hn)
      rw [finish, complete]
      dsimp only
      rw [hnone]
      refine iff_of_false nofun fun h => nomatch h.1

/-- What the request sent is completed next. -/
theorem finish_send (hn : fs.pending.length = n) :
    finish n answers ⟨fs.send op, blobs⟩ = .ok s' ↔
      ∃ answer mem rest fs', answers = (answer, mem) :: rest ∧
        op.answers blobs answer = true ∧ op.resume fs answer mem = .ok fs' ∧
          finish n rest ⟨fs', op.effect blobs answer⟩ = .ok s' := by
  have hop : (fs.send op).pending[n]? = some op := by
    rw [Filesystem.send, ← hn]
    simp
  have hrest : { fs.send op with pending := (fs.send op).pending.eraseIdx n } = fs := by
    have herase : (fs.pending ++ [op]).eraseIdx n = fs.pending := by
      rw [← hn, List.eraseIdx_append_of_length_le (Nat.le_refl _)]
      simp
    simp only [Filesystem.send, herase]
  cases answers with
  | nil =>
      have hne : (fs.send op).pending.length ≠ n := by
        simp [Filesystem.send, hn]
      rw [finish, if_neg hne]
      exact iff_of_false nofun (by simp)
  | cons answer answers =>
      obtain ⟨answer, mem⟩ := answer
      rw [finish, complete]
      dsimp only
      rw [hop]
      dsimp only
      rw [hrest]
      constructor
      · intro h
        obtain ⟨s, hs, h⟩ := bind_ok.mp h
        split at hs
        · cases hs
        rename_i hanswers
        obtain ⟨fs', hfs', hs⟩ := bind_ok.mp hs
        obtain rfl := Except.ok.inj hs
        exact ⟨answer, mem, answers, fs', rfl, by simpa using hanswers, hfs', h⟩
      · rintro ⟨_, _, _, fs', heq, hanswers, hfs', h⟩
        cases heq
        refine bind_ok.mpr ⟨_, ?_, h⟩
        rw [if_neg (by simp [hanswers])]
        exact bind_ok.mpr ⟨fs', hfs', rfl⟩

/-- A reply is all that is left. -/
theorem finish_reply (hn : fs.pending.length = n) :
    finish n answers ⟨fs.reply cb fserrno, blobs⟩ = .ok s' ↔
      answers = [] ∧ s' = ⟨fs.reply cb fserrno, blobs⟩ :=
  finish_done hn

theorem completes_reply {s : Store} (hreplies : fs.replies = s.fs.replies) :
    Completes s ⟨fs.reply cb fserrno, blobs⟩ cb fserrno' ↔ fserrno' = fserrno := by
  simp [Completes, Filesystem.reply, hreplies, eq_comm]

end Store

/-! ### Names and files -/

/-- A name in the tree has a file that is allocated, under that name or under none. -/
structure Keyed (s : Filesystem) : Prop where
  file : ∀ n r, s.names n = some r →
    ∃ f, s.files r = some f ∧ ∀ name, f.name = some name → name = n
  unborn : ∀ r, s.brk ≤ r → s.files r = none

namespace Keyed

variable {s s' : Filesystem} {r : FileRef} {fn : FileOp} {cb : CallRef} {mem : Memory}
  {name : CString}

theorem initial (h : Initial s) : Keyed s := by
  refine ⟨fun n r hn => ?_, fun r hr => ?_⟩
  · obtain ⟨f, hf, hname⟩ := h.tree n r hn
    refine ⟨f, hf, fun name hname' => ?_⟩
    rw [hname, Option.some.injEq] at hname'
    exact hname'.symm
  · by_contra hsome
    obtain ⟨f, hf⟩ := Option.ne_none_iff_exists'.mp hsome
    exact absurd (h.named r f hf).2 (Nat.not_lt.mpr hr)

/-- Only the names and the files matter. -/
theorem congr (h : Keyed s) (hfiles : s'.files = s.files) (hnames : s'.names = s.names)
    (hbrk : s'.brk = s.brk) : Keyed s' := by
  refine ⟨fun n r hn => ?_, fun r hr => ?_⟩
  · rw [hfiles]
    exact h.file n r (hnames ▸ hn)
  · rw [hfiles]
    exact h.unborn r (hbrk ▸ hr)

/-- A file keeps its name. -/
theorem setFile (h : Keyed s) {f f' : SpdkFile} (hf : s.files r = some f)
    (hname : f'.name = f.name) : Keyed (s.setFile r f') := by
  refine ⟨fun n r' hn => ?_, fun r' hr' => ?_⟩
  · obtain ⟨g, hg, hkey⟩ := h.file n r' hn
    by_cases hr : r' = r
    · subst hr
      obtain rfl := Option.some.inj (hf.symm.trans hg)
      exact ⟨f', Filesystem.setFile_files_self .., fun name hf' => hkey name (hname ▸ hf')⟩
    · exact ⟨g, (Filesystem.setFile_files_ne _ hr).trans hg, hkey⟩
  · have hne : r' ≠ r := by
      rintro rfl
      cases hf.symm.trans (h.unborn r' hr')
    exact (Filesystem.setFile_files_ne _ hne).trans (h.unborn r' hr')

theorem lt_brk (h : Keyed s) {f : SpdkFile} (hf : s.files r = some f) : r < s.brk := by
  by_contra hle
  cases hf.symm.trans (h.unborn r (Nat.not_lt.mp hle))

/-- A new file has no name yet, or the one that it is found by. -/
theorem fileAlloc (h : Keyed s) {f : SpdkFile} (habsent : s.names name = none)
    (hname : ∀ name', f.name = some name' → name' = name) :
    Keyed ((s.fileAlloc name).setFile s.brk f) := by
  refine ⟨fun n r hn => ?_, fun r hr => ?_⟩
  · change BplusTree.insertName s.names name s.brk n = some r at hn
    by_cases heq : n = name
    · subst heq
      rw [BplusTree.insertName_self, habsent, Option.getD_none, Option.some.injEq] at hn
      subst hn
      exact ⟨f, Filesystem.setFile_files_self .., hname⟩
    · rw [BplusTree.insertName_of_ne _ heq] at hn
      obtain ⟨g, hg, hkey⟩ := h.file n r hn
      have hne : r ≠ s.brk := Nat.ne_of_lt (h.lt_brk hg)
      refine ⟨g, ?_, hkey⟩
      exact (Filesystem.setFile_files_ne _ hne).trans ((Filesystem.fileAlloc_files_ne hne).trans hg)
  · have hne : r ≠ s.brk := Nat.ne_of_gt hr
    refine (Filesystem.setFile_files_ne _ hne).trans ?_
    exact (Filesystem.fileAlloc_files_ne hne).trans (h.unborn r (Nat.le_of_succ_le hr))

/-- Two names do not share a file that has a name. -/
theorem inj (h : Keyed s) {f : SpdkFile} {n n' : CString} (hf : s.files r = some f)
    (hname : f.name = some name) (hn : s.names n = some r) (hn' : s.names n' = some r) :
    n = name ∧ n' = name := by
  obtain ⟨g, hg, hkey⟩ := h.file n r hn
  obtain ⟨g', hg', hkey'⟩ := h.file n' r hn'
  obtain rfl := Option.some.inj (hf.symm.trans hg)
  obtain rfl := Option.some.inj (hf.symm.trans hg')
  exact ⟨(hkey name hname).symm, (hkey' name hname).symm⟩

/-- A file that is freed leaves the tree. -/
theorem fileFree (h : Keyed s) {f : SpdkFile} {n : CString} (hn : s.names n = some r)
    (hf : s.files r = some f) (hname : f.name = some name) :
    Keyed { s.fileFree r with names := BplusTree.removeName s.names name } := by
  obtain ⟨rfl, -⟩ := h.inj hf hname hn hn
  refine ⟨fun n' r' hn' => ?_, fun r' hr' => ?_⟩
  · change BplusTree.removeName s.names n n' = some r' at hn'
    have hne : n' ≠ n := by
      rintro rfl
      rw [BplusTree.removeName, Function.update_self] at hn'
      cases hn'
    rw [BplusTree.removeName, Function.update_of_ne hne] at hn'
    have hr : r' ≠ r := by
      rintro rfl
      exact hne (h.inj hf hname hn' hn').1
    obtain ⟨g, hg, hkey⟩ := h.file n' r' hn'
    exact ⟨g, (Filesystem.fileFree_files_ne hr).trans hg, hkey⟩
  · change (s.fileFree r).files r' = none
    by_cases hr : r' = r
    · subst hr
      exact Filesystem.fileFree_files_self ..
    · exact (Filesystem.fileFree_files_ne hr).trans (h.unborn r' hr')

theorem fsMdRenameFile (h : Keyed s) {oldName newName : CString}
    (hrename : s.fsMdRenameFile oldName newName cb = .ok s') : Keyed s' := by
  rcases Filesystem.fsMdRenameFile_ok hrename with ⟨-, rfl⟩ | ⟨r, f, name, hold, hf, hname, rfl⟩
  · exact h.congr rfl rfl rfl
  obtain ⟨rfl, -⟩ := h.inj hf hname hold hold
  have hkept : ∀ n r', BplusTree.removeName s.names oldName n = some r' →
      n ≠ oldName ∧ r' ≠ r ∧ s.names n = some r' := by
    intro n r' hn
    have hne : n ≠ oldName := by
      rintro rfl
      rw [BplusTree.removeName, Function.update_self] at hn
      cases hn
    rw [BplusTree.removeName, Function.update_of_ne hne] at hn
    refine ⟨hne, ?_, hn⟩
    rintro rfl
    exact hne (h.inj hf hname hn hn).1
  have hset : ∀ r', r' ≠ r → ∀ g, s.files r' = some g →
      (s.setFile r { f with name := some newName }).files r' = some g := fun r' hne g hg =>
    (Filesystem.setFile_files_ne _ hne).trans hg
  refine ⟨fun n r' hn => ?_, fun r' hr' => ?_⟩
  · change BplusTree.insertName (BplusTree.removeName s.names oldName) newName r n = some r' at hn
    have hkeyed : ∀ n r', BplusTree.removeName s.names oldName n = some r' → ∃ g,
        (s.setFile r { f with name := some newName }).files r' = some g ∧
          ∀ name, g.name = some name → name = n := by
      intro n r' hn
      obtain ⟨-, hne, hold'⟩ := hkept n r' hn
      obtain ⟨g, hg, hkey⟩ := h.file n r' hold'
      exact ⟨g, hset r' hne g hg, hkey⟩
    by_cases heq : n = newName
    · subst heq
      rw [BplusTree.insertName_self] at hn
      cases hthere : BplusTree.removeName s.names oldName n with
      | none =>
          rw [hthere, Option.getD_none, Option.some.injEq] at hn
          subst hn
          refine ⟨_, Filesystem.setFile_files_self .., fun name hname' => ?_⟩
          exact (Option.some.inj hname').symm
      | some r'' =>
          rw [hthere, Option.getD_some, Option.some.injEq] at hn
          exact hkeyed n r' (hn ▸ hthere)
    · rw [BplusTree.insertName_of_ne _ heq] at hn
      exact hkeyed n r' hn
  · have hne : r' ≠ r := Nat.ne_of_gt (Nat.lt_of_lt_of_le (h.lt_brk hf) hr')
    exact (Filesystem.setFile_files_ne _ hne).trans (h.unborn r' hr')

theorem fsOpenBlobDone (h : Keyed s) {blob : Option BlobRef} {bserrno : Int}
    (hdone : s.fsOpenBlobDone r blob bserrno = .ok s') : Keyed s' := by
  obtain ⟨f, hf, rfl⟩ := Filesystem.fsOpenBlobDone_ok hdone
  have hset : Keyed (s.setFile r { f with blob, openRequests := [] }) := h.setFile hf rfl
  exact hset.congr rfl rfl rfl

theorem fsOpenBlobCreateCb (h : Keyed s) {file : Option FileRef}
    (hopen : s.fsOpenBlobCreateCb file name cb = .ok s') : Keyed s' := by
  obtain ⟨r, old, -, hold, hcases⟩ := Filesystem.fsOpenBlobCreateCb_ok hopen
  have hset : Keyed (s.setFile r (old.opened cb)) := h.setFile hold rfl
  rcases hcases with ⟨-, -, rfl⟩ | ⟨-, -, rfl⟩ | ⟨-, -, hdone⟩
  · exact hset.congr rfl rfl rfl
  · exact hset
  · exact hset.fsOpenBlobDone hdone

theorem callFileOp (h : Keyed s) {fserrno : Int} (hcall : s.callFileOp fn fserrno = .ok s') :
    Keyed s' := by
  rcases Filesystem.callFileOp_ok hcall with
    ⟨cb, rfl⟩ | ⟨name, cb, -, hopen⟩ | ⟨oldName, newName, cb, -, hrename⟩
  · exact h.congr rfl rfl rfl
  · exact h.fsOpenBlobCreateCb hopen
  · exact h.fsMdRenameFile hrename

theorem spdkFsCreateFileAsync (h : Keyed s)
    (hcreate : s.spdkFsCreateFileAsync name fn mem = .ok s') : Keyed s' := by
  rcases Filesystem.spdkFsCreateFileAsync_ok hcreate with
    ⟨_, hcall⟩ | ⟨habsent, -, hcall⟩ | ⟨habsent, -, rfl⟩
  · exact h.callFileOp hcall
  · have halloc : Keyed (s.fileAlloc name) := by
      refine (h.fileAlloc habsent (f := ⟨none, none, none, 0, false, []⟩) nofun).congr ?_ rfl rfl
      exact (Function.update_idem ..).symm
    exact halloc.callFileOp hcall
  · refine (h.fileAlloc habsent fun name' hname => ?_).congr rfl rfl rfl
    exact (Option.some.inj hname).symm

theorem spdkFsDeleteFileAsync (h : Keyed s)
    (hdelete : s.spdkFsDeleteFileAsync name fn mem = .ok s') : Keyed s' := by
  rcases Filesystem.spdkFsDeleteFileAsync_ok hdelete with
    ⟨_, hcall⟩ | ⟨r, f, hname, hf, ⟨blob, -, -, rfl⟩ | ⟨filename, -, hfilename, rfl⟩⟩
  · exact h.callFileOp hcall
  · have hset : Keyed (s.setFile r { f with isDeleted := true }) := h.setFile hf rfl
    exact hset.congr rfl rfl rfl
  · exact (h.fileFree hname hf hfilename).congr rfl rfl rfl

theorem fileCloseAsyncDone (h : Keyed s) {bserrno : Int}
    (hdone : s.fileCloseAsyncDone r cb bserrno mem = .ok s') : Keyed s' := by
  obtain ⟨f, -, ⟨-, rfl⟩ | ⟨name, -, -, hdelete⟩⟩ := Filesystem.fileCloseAsyncDone_ok hdone
  · exact h.congr rfl rfl rfl
  · exact h.spdkFsDeleteFileAsync hdelete

theorem fileCloseAsync (h : Keyed s) (hclose : s.fileCloseAsync r cb mem = .ok s') : Keyed s' := by
  obtain ⟨f, hf, ⟨-, hdone⟩ | ⟨-, rfl⟩ | ⟨blob, -, -, rfl⟩⟩ := Filesystem.fileCloseAsync_ok hclose
  · exact h.fileCloseAsyncDone hdone
  · have hset : Keyed (s.setFile r { f with refCount := f.refCount - 1 }) := h.setFile hf rfl
    exact hset.congr rfl rfl rfl
  · have hset : Keyed (s.setFile r { f with refCount := f.refCount - 1, blob := none }) :=
      h.setFile hf rfl
    exact hset.congr rfl rfl rfl

theorem resume (h : Keyed s) {op : BsOp} {answer : Answer}
    (hresume : op.resume s answer mem = .ok s') : Keyed s' := by
  cases op with
  | createBlob r fn =>
      simp only [BsOp.resume, Filesystem.fsCreateBlobCreateCb] at hresume
      split at hresume
      · exact h.callFileOp hresume
      · obtain ⟨f, hf, hresume⟩ := bind_ok.mp hresume
        obtain rfl := Except.ok.inj hresume
        have hset : Keyed (s.setFile r { f with blobid := some answer.blobid }) :=
          h.setFile (Filesystem.file_ok.mp hf) rfl
        exact hset.congr rfl rfl rfl
  | createOpen r blobid fn =>
      simp only [BsOp.resume, Filesystem.fsCreateBlobOpenCb] at hresume
      split at hresume
      · exact h.callFileOp hresume
      · obtain rfl := Except.ok.inj hresume
        exact h.congr rfl rfl rfl
  | createResize r blob fn =>
      simp only [BsOp.resume, Filesystem.fsCreateBlobResizeCb] at hresume
      split at hresume
      · obtain rfl := Except.ok.inj hresume
        exact h.congr rfl rfl rfl
      · obtain ⟨f, -, hresume⟩ := bind_ok.mp hresume
        split at hresume
        · cases hresume
        · obtain rfl := Except.ok.inj hresume
          exact h.congr rfl rfl rfl
  | createClose blob rc fn => exact h.callFileOp hresume
  | openBlob r blobid => exact h.fsOpenBlobDone hresume
  | closeSync r cb => exact h.fileCloseAsync hresume
  | closeBlob r blob cb => exact h.fileCloseAsyncDone hresume
  | syncDeleted blob fn => exact h.callFileOp hresume
  | deleteBlob blobid fn => exact h.callFileOp hresume
  | renameOpen blobid newName cb =>
      simp only [BsOp.resume, Filesystem.fsRenameBlobOpenCb] at hresume
      split at hresume
      · cases hresume
      · obtain rfl := Except.ok.inj hresume
        exact h.congr rfl rfl rfl
  | renameClose blob cb =>
      obtain rfl := Except.ok.inj hresume
      exact h.congr rfl rfl rfl

theorem spdkFsRenameFileAsync (h : Keyed s) {oldName newName : CString} {deleteMem : Memory}
    (hrename : s.spdkFsRenameFileAsync oldName newName cb mem deleteMem = .ok s') : Keyed s' := by
  unfold Filesystem.spdkFsRenameFileAsync at hrename
  split at hrename
  · obtain rfl := Except.ok.inj hrename
    exact h.congr rfl rfl rfl
  split at hrename
  · obtain rfl := Except.ok.inj hrename
    exact h.congr rfl rfl rfl
  split at hrename
  · exact h.fsMdRenameFile hrename
  · exact h.spdkFsDeleteFileAsync hrename

/-- One step of the filesystem. -/
theorem fsStep (h : Keyed s) {e : Event} (hstep : Fs.step s e = .ok s') : Keyed s' := by
  cases e with
  | create name cb mem => exact h.spdkFsCreateFileAsync hstep
  | «open» name create cb mem =>
      rcases Filesystem.spdkFsOpenFileAsync_ok hstep with
        ⟨_, rfl⟩ | ⟨-, hcreate⟩ | ⟨r, -, hopen⟩
      · exact h.congr rfl rfl rfl
      · exact h.spdkFsCreateFileAsync hcreate
      · exact h.fsOpenBlobCreateCb hopen
  | delete name cb mem => exact h.spdkFsDeleteFileAsync hstep
  | close r cb mem =>
      simp only [Fs.step] at hstep
      split at hstep
      · obtain ⟨f, -, hrest⟩ := bind_ok.mp hstep
        split at hrest
        · obtain rfl := Except.ok.inj hrest
          exact h.congr rfl rfl rfl
        · obtain rfl := Except.ok.inj hrest
          exact h.congr rfl rfl rfl
      · cases hstep
  | complete i answer mem =>
      simp only [Fs.step] at hstep
      split at hstep
      · cases hstep
      · have hrest : Keyed { s with pending := s.pending.eraseIdx i } := h.congr rfl rfl rfl
        exact hrest.resume hstep

/-- One step keeps each name with its file. -/
theorem step {s s' : Store} {request : Request} (h : Keyed s.fs)
    (hstep : StoreSteps s request s') : Keyed s'.fs := by
  cases request with
  | event e =>
      cases e with
      | complete i answer mem =>
          change s.complete i answer mem = .ok s' at hstep
          unfold Store.complete at hstep
          split at hstep
          · cases hstep
          split at hstep
          · cases hstep
          obtain ⟨fs, hfs, hstep⟩ := bind_ok.mp hstep
          obtain rfl := Except.ok.inj hstep
          have hrest : Keyed { s.fs with pending := s.fs.pending.eraseIdx i } :=
            h.congr rfl rfl rfl
          exact hrest.resume hfs
      | _ =>
          obtain ⟨fs, hfs, hstep⟩ := bind_ok.mp hstep
          obtain rfl := Except.ok.inj hstep
          exact h.fsStep hfs
  | rename oldName newName cb mem deleteMem =>
      obtain ⟨fs, hfs, hstep⟩ := bind_ok.mp hstep
      obtain rfl := Except.ok.inj hstep
      exact h.spdkFsRenameFileAsync hfs

end Keyed

/-- In every state that is reached, a name has a file of that name or of none. -/
theorem Reachable.keyed {s : Store} (h : Reachable s) : Keyed s.fs := by
  obtain ⟨s₀, hinitial, hrun⟩ := h
  exact hrun.keeps (P := fun s => Keyed s.fs) (Keyed.initial hinitial.fs)
    fun hkeyed _ hstep => hkeyed.step hstep

end Nbfs.Fs
