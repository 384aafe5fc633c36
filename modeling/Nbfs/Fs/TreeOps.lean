import Nbfs.Fs.Store
import Nbfs.BplusTree.Empty

set_option autoImplicit false

/-!
# The calls of the tree

The names of the filesystem are the map that the B+ tree keeps.  Here are the calls of
`B_plus_tree_insert` and `B_plus_tree_remove` that each function makes, so that a run of
the filesystem is also a run of the tree.
-/

namespace Nbfs.Fs

open Nbfs.Lib

/-- A call of `B_plus_tree_insert` or `B_plus_tree_remove`. -/
inductive TreeOp where
  | insert (key : CString) (file : FileRef)
  | remove (key : CString)

namespace TreeOp

def key : TreeOp → CString
  | insert key _ => key
  | remove key => key

/-- The call, with what `B_plus_tree_insert` finds in its variable `cond`. -/
def call (garbage : Int) : TreeOp → BplusTree.Call
  | insert key file => .insert garbage key file
  | remove key => .remove key

/-- What the call does to the names. -/
def apply (names : CString → Option FileRef) : TreeOp → CString → Option FileRef
  | insert key file => BplusTree.insertName names key file
  | remove key => BplusTree.removeName names key

end TreeOp

/-- What the calls do to the names, one after the other. -/
def applyOps (names : CString → Option FileRef) (ops : List TreeOp) : CString → Option FileRef :=
  ops.foldl TreeOp.apply names

/-- The calls as the tree is given them. -/
def treeCalls (garbage : Nat → Int) (ops : List TreeOp) : List BplusTree.Call :=
  ops.mapIdx fun i op => op.call (garbage i)

namespace Filesystem

variable (s : Filesystem)

/-- The calls of `_fs_md_rename_file`. -/
def renameOps (oldName newName : CString) : List TreeOp :=
  match s.names oldName with
  | none => []
  | some r =>
      match (s.files r).bind SpdkFile.name with
      | none => []
      | some name => [.remove name, .insert newName r]

/-- Those of `args->fn.file_op`. -/
def fileOpOps : FileOp → List TreeOp
  | .fsRenameDeleteDone oldName newName _ => s.renameOps oldName newName
  | _ => []

/-- Those of `spdk_fs_create_file_async`; `file_alloc` puts the name into the tree. -/
def createOps (name : CString) (fn : FileOp) (mem : Memory) : List TreeOp :=
  if spdkFileNameMax < name.strlen then s.fileOpOps fn
  else
    match s.names name with
    | some _ => s.fileOpOps fn
    | none =>
        if mem.file = false then s.fileOpOps fn
        else .insert name s.brk ::
          if mem.createRequest = false then (s.fileAlloc name).fileOpOps fn else []

/-- Those of `spdk_fs_open_file_async`. -/
def openOps (name : CString) (create : Bool) (cb : CallRef) (mem : Memory) : List TreeOp :=
  if spdkFileNameMax < name.strlen then []
  else
    match s.names name with
    | none =>
        if create = false then []
        else if mem.request = false then []
        else s.createOps name (.fsOpenBlobCreateCb name cb) mem
    | some _ => []

/-- Those of `spdk_fs_delete_file_async`. -/
def deleteOps (name : CString) (fn : FileOp) (mem : Memory) : List TreeOp :=
  if spdkFileNameMax < name.strlen then s.fileOpOps fn
  else
    match s.names name with
    | none => s.fileOpOps fn
    | some r =>
        if mem.request = false then s.fileOpOps fn
        else
          match s.files r with
          | none => []
          | some f => if 0 < f.refCount then [] else (f.name.map TreeOp.remove).toList

/-- Those of `__file_close_async_done`. -/
def closeDoneOps (r : FileRef) (cb : CallRef) (mem : Memory) : List TreeOp :=
  match s.files r with
  | none => []
  | some f =>
      match f.name with
      | none => []
      | some name => if f.isDeleted then s.deleteOps name (.blobDeleteCb cb) mem else []

/-- Those of `__file_close_async`. -/
def closeOps (r : FileRef) (cb : CallRef) (mem : Memory) : List TreeOp :=
  match s.files r with
  | none => []
  | some f => if f.refCount = 0 then s.closeDoneOps r cb mem else []

/-- Those of `spdk_fs_rename_file_async`. -/
def renameFileOps (oldName newName : CString) (cb : CallRef) (mem deleteMem : Memory) :
    List TreeOp :=
  if spdkFileNameMax < newName.strlen then []
  else if mem.request = false then []
  else
    match s.names newName with
    | none => s.renameOps oldName newName
    | some _ => s.deleteOps newName (.fsRenameDeleteDone oldName newName cb) deleteMem

end Filesystem

/-- Those of a completion's callback. -/
def BsOp.treeOps (s : Filesystem) (answer : Answer) (mem : Memory) : BsOp → List TreeOp
  | createBlob _ fn | createOpen _ _ fn => if answer.bserrno ≠ 0 then s.fileOpOps fn else []
  | createClose _ _ fn | syncDeleted _ fn | deleteBlob _ fn => s.fileOpOps fn
  | closeSync r cb => s.closeOps r cb mem
  | closeBlob r _ cb => s.closeDoneOps r cb mem
  | createResize .. | openBlob .. | renameOpen .. | renameClose .. => []

/-- Those of a step. -/
def Request.treeOps (s : Filesystem) : Request → List TreeOp
  | .event (.create name cb mem) => s.createOps name (.client cb) mem
  | .event (.open name create cb mem) => s.openOps name create cb mem
  | .event (.delete name cb mem) => s.deleteOps name (.client cb) mem
  | .event (.close ..) => []
  | .event (.complete i answer mem) =>
      match s.pending[i]? with
      | none => []
      | some op => op.treeOps s answer mem
  | .rename oldName newName cb mem deleteMem => s.renameFileOps oldName newName cb mem deleteMem

/-! ### The names follow the calls -/

section follow

variable {s s' : Filesystem} {r : FileRef} {fn : FileOp} {cb : CallRef} {mem : Memory}
  {name : CString}

theorem fsMdRenameFile_names {oldName newName : CString}
    (h : s.fsMdRenameFile oldName newName cb = .ok s') :
    s'.names = applyOps s.names (s.renameOps oldName newName) := by
  unfold Filesystem.renameOps
  rcases Filesystem.fsMdRenameFile_ok h with ⟨hold, rfl⟩ | ⟨r, f, name, hold, hf, hname, rfl⟩
  · rw [hold]
    rfl
  · rw [hold]
    dsimp only
    rw [hf, Option.bind_some, hname]
    rfl

theorem fsOpenBlobCreateCb_names {file : Option FileRef}
    (h : s.fsOpenBlobCreateCb file name cb = .ok s') : s'.names = s.names := by
  obtain ⟨r, old, -, -, hcases⟩ := Filesystem.fsOpenBlobCreateCb_ok h
  rcases hcases with ⟨-, -, rfl⟩ | ⟨-, -, rfl⟩ | ⟨-, -, hdone⟩
  · rfl
  · rfl
  · obtain ⟨f, -, rfl⟩ := Filesystem.fsOpenBlobDone_ok hdone
    rfl

theorem callFileOp_names {fserrno : Int} (h : s.callFileOp fn fserrno = .ok s') :
    s'.names = applyOps s.names (s.fileOpOps fn) := by
  cases fn with
  | client cb =>
      obtain rfl := Except.ok.inj h
      rfl
  | fsOpenBlobCreateCb name cb => exact fsOpenBlobCreateCb_names h
  | blobDeleteCb cb =>
      obtain rfl := Except.ok.inj h
      rfl
  | fsRenameDeleteDone oldName newName cb => exact fsMdRenameFile_names h

theorem spdkFsCreateFileAsync_names (h : s.spdkFsCreateFileAsync name fn mem = .ok s') :
    s'.names = applyOps s.names (s.createOps name fn mem) := by
  unfold Filesystem.spdkFsCreateFileAsync at h
  unfold Filesystem.createOps
  split at h
  · rw [if_pos ‹_›]
    exact callFileOp_names h
  rw [if_neg ‹_›]
  cases hname : s.names name with
  | some r =>
      rw [hname] at h
      exact callFileOp_names h
  | none =>
      rw [hname] at h
      dsimp only at h ⊢
      split at h
      · rw [if_pos ‹_›]
        exact callFileOp_names h
      rw [if_neg ‹_›]
      split at h
      · rw [if_pos ‹_›]
        exact callFileOp_names h
      · rw [if_neg ‹_›]
        obtain ⟨f, -, h⟩ := bind_ok.mp h
        obtain rfl := Except.ok.inj h
        rfl

theorem spdkFsOpenFileAsync_names {create : Bool}
    (h : s.spdkFsOpenFileAsync name create cb mem = .ok s') :
    s'.names = applyOps s.names (s.openOps name create cb mem) := by
  unfold Filesystem.spdkFsOpenFileAsync at h
  unfold Filesystem.openOps
  split at h
  · rw [if_pos ‹_›]
    obtain rfl := Except.ok.inj h
    rfl
  rw [if_neg ‹_›]
  cases hname : s.names name with
  | none =>
      rw [hname] at h
      dsimp only at h ⊢
      split at h
      · rw [if_pos ‹_›]
        obtain rfl := Except.ok.inj h
        rfl
      rw [if_neg ‹_›]
      split at h
      · rw [if_pos ‹_›]
        obtain rfl := Except.ok.inj h
        rfl
      · rw [if_neg ‹_›]
        exact spdkFsCreateFileAsync_names h
  | some r =>
      rw [hname] at h
      obtain ⟨f, -, h⟩ := bind_ok.mp h
      split at h
      · obtain rfl := Except.ok.inj h
        rfl
      split at h
      · obtain rfl := Except.ok.inj h
        rfl
      · exact fsOpenBlobCreateCb_names h

theorem spdkFsDeleteFileAsync_names (h : s.spdkFsDeleteFileAsync name fn mem = .ok s') :
    s'.names = applyOps s.names (s.deleteOps name fn mem) := by
  unfold Filesystem.spdkFsDeleteFileAsync at h
  unfold Filesystem.deleteOps
  split at h
  · rw [if_pos ‹_›]
    exact callFileOp_names h
  rw [if_neg ‹_›]
  cases hname : s.names name with
  | none =>
      rw [hname] at h
      exact callFileOp_names h
  | some r =>
      rw [hname] at h
      dsimp only at h ⊢
      split at h
      · rw [if_pos ‹_›]
        exact callFileOp_names h
      rw [if_neg ‹_›]
      obtain ⟨f, hf, h⟩ := bind_ok.mp h
      rw [Filesystem.file_ok.mp hf]
      dsimp only
      split at h
      · rw [if_pos ‹_›]
        split at h
        · cases h
        · obtain rfl := Except.ok.inj h
          rfl
      · rw [if_neg ‹_›]
        cases hfilename : f.name with
        | none =>
            rw [hfilename] at h
            cases h
        | some filename =>
            rw [hfilename] at h
            dsimp only at h
            split at h
            · cases h
            · obtain rfl := Except.ok.inj h
              rfl

theorem fileCloseAsyncDone_names {bserrno : Int}
    (h : s.fileCloseAsyncDone r cb bserrno mem = .ok s') :
    s'.names = applyOps s.names (s.closeDoneOps r cb mem) := by
  unfold Filesystem.closeDoneOps
  obtain ⟨f, hf, ⟨hdeleted, rfl⟩ | ⟨name, hdeleted, hname, hdelete⟩⟩ :=
    Filesystem.fileCloseAsyncDone_ok h
  · rw [hf]
    cases hname : f.name with
    | none => simp [hname]; rfl
    | some name => simp [hname, hdeleted]; rfl
  · rw [hf]
    simp only [hname, hdeleted, if_true]
    exact spdkFsDeleteFileAsync_names hdelete

theorem fileCloseAsync_names (h : s.fileCloseAsync r cb mem = .ok s') :
    s'.names = applyOps s.names (s.closeOps r cb mem) := by
  unfold Filesystem.closeOps
  obtain ⟨f, hf, ⟨hzero, hdone⟩ | ⟨hmore, rfl⟩ | ⟨blob, hone, -, rfl⟩⟩ :=
    Filesystem.fileCloseAsync_ok h
  · rw [hf]
    dsimp only
    rw [if_pos hzero]
    exact fileCloseAsyncDone_names hdone
  · rw [hf]
    dsimp only
    rw [if_neg (by omega)]
    rfl
  · rw [hf]
    dsimp only
    rw [if_neg (by omega)]
    rfl

theorem spdkFsRenameFileAsync_names {oldName newName : CString} {deleteMem : Memory}
    (h : s.spdkFsRenameFileAsync oldName newName cb mem deleteMem = .ok s') :
    s'.names = applyOps s.names (s.renameFileOps oldName newName cb mem deleteMem) := by
  unfold Filesystem.spdkFsRenameFileAsync at h
  unfold Filesystem.renameFileOps
  split at h
  · rw [if_pos ‹_›]
    obtain rfl := Except.ok.inj h
    rfl
  rw [if_neg ‹_›]
  split at h
  · rw [if_pos ‹_›]
    obtain rfl := Except.ok.inj h
    rfl
  rw [if_neg ‹_›]
  cases hnew : s.names newName with
  | none =>
      rw [hnew] at h
      exact fsMdRenameFile_names h
  | some r =>
      rw [hnew] at h
      exact spdkFsDeleteFileAsync_names h

theorem resume_names {op : BsOp} {answer : Answer} (h : op.resume s answer mem = .ok s') :
    s'.names = applyOps s.names (op.treeOps s answer mem) := by
  cases op with
  | createBlob r fn =>
      simp only [BsOp.resume, Filesystem.fsCreateBlobCreateCb] at h
      change s'.names = applyOps s.names (if answer.bserrno ≠ 0 then s.fileOpOps fn else [])
      split at h
      · rw [if_pos ‹_›]
        exact callFileOp_names h
      · rw [if_neg ‹_›]
        obtain ⟨f, -, h⟩ := bind_ok.mp h
        obtain rfl := Except.ok.inj h
        rfl
  | createOpen r blobid fn =>
      simp only [BsOp.resume, Filesystem.fsCreateBlobOpenCb] at h
      change s'.names = applyOps s.names (if answer.bserrno ≠ 0 then s.fileOpOps fn else [])
      split at h
      · rw [if_pos ‹_›]
        exact callFileOp_names h
      · rw [if_neg ‹_›]
        obtain rfl := Except.ok.inj h
        rfl
  | createResize r blob fn =>
      simp only [BsOp.resume, Filesystem.fsCreateBlobResizeCb] at h
      split at h
      · obtain rfl := Except.ok.inj h
        rfl
      · obtain ⟨f, -, h⟩ := bind_ok.mp h
        split at h
        · cases h
        · obtain rfl := Except.ok.inj h
          rfl
  | createClose blob rc fn => exact callFileOp_names h
  | openBlob r blobid =>
      obtain ⟨f, -, rfl⟩ := Filesystem.fsOpenBlobDone_ok h
      rfl
  | closeSync r cb => exact fileCloseAsync_names h
  | closeBlob r blob cb => exact fileCloseAsyncDone_names h
  | syncDeleted blob fn => exact callFileOp_names h
  | deleteBlob blobid fn => exact callFileOp_names h
  | renameOpen blobid newName cb =>
      simp only [BsOp.resume, Filesystem.fsRenameBlobOpenCb] at h
      split at h
      · cases h
      · obtain rfl := Except.ok.inj h
        rfl
  | renameClose blob cb =>
      obtain rfl := Except.ok.inj h
      rfl

/-- What else waits does not matter. -/
theorem BsOp.treeOps_pending (pending : List BsOp) (answer : Answer) (mem : Memory) (op : BsOp) :
    op.treeOps { s with pending } answer mem = op.treeOps s answer mem := by
  cases op <;> rfl

theorem treeOps_complete {i : Nat} {op : BsOp} (hop : s.pending[i]? = some op) (answer : Answer)
    (mem : Memory) :
    (Request.event (.complete i answer mem)).treeOps s = op.treeOps s answer mem := by
  simp only [Request.treeOps, hop]

theorem fsStep_names {e : Event} (h : step s e = .ok s') :
    s'.names = applyOps s.names ((Request.event e).treeOps s) := by
  cases e with
  | create name cb mem => exact spdkFsCreateFileAsync_names h
  | «open» name create cb mem => exact spdkFsOpenFileAsync_names h
  | delete name cb mem => exact spdkFsDeleteFileAsync_names h
  | close r cb mem =>
      simp only [step] at h
      split at h
      · obtain ⟨f, -, h⟩ := bind_ok.mp h
        split at h
        · obtain rfl := Except.ok.inj h
          rfl
        · obtain rfl := Except.ok.inj h
          rfl
      · cases h
  | complete i answer mem =>
      simp only [step] at h
      cases hop : s.pending[i]? with
      | none =>
          rw [hop] at h
          cases h
      | some op =>
          rw [hop] at h
          have hnames := resume_names h
          rwa [BsOp.treeOps_pending, ← treeOps_complete hop] at hnames

end follow

/-- After each step the names are what the calls make of them. -/
theorem Store.step_names {s s' : Store} {request : Request} (h : s.step request = .ok s') :
    s'.fs.names = applyOps s.fs.names (request.treeOps s.fs) := by
  cases request with
  | event e =>
      cases e with
      | complete i answer mem =>
          change s.complete i answer mem = .ok s' at h
          unfold Store.complete at h
          cases hop : s.fs.pending[i]? with
          | none =>
              rw [hop] at h
              cases h
          | some op =>
              rw [hop] at h
              dsimp only at h
              split at h
              · cases h
              obtain ⟨fs, hfs, h⟩ := bind_ok.mp h
              obtain rfl := Except.ok.inj h
              have hnames := resume_names hfs
              rwa [BsOp.treeOps_pending, ← treeOps_complete hop] at hnames
      | _ =>
          obtain ⟨fs, hfs, h⟩ := bind_ok.mp h
          obtain rfl := Except.ok.inj h
          exact fsStep_names hfs
  | rename oldName newName cb mem deleteMem =>
      obtain ⟨fs, hfs, h⟩ := bind_ok.mp h
      obtain rfl := Except.ok.inj h
      exact spdkFsRenameFileAsync_names hfs

/-! ### The tree of a run -/

/-- A store with the calls of the tree so far. -/
structure Traced where
  store : Store
  ops : List TreeOp

/-- A step, with the calls that it makes. -/
def TracedSteps (t : Traced) (request : Request) (t' : Traced) : Prop :=
  StoreSteps t.store request t'.store ∧ t'.ops = t.ops ++ request.treeOps t.store.fs

section tree

open BplusTree

variable {garbage : Nat → Int} {ops : List TreeOp}

theorem mem_treeCalls {c : Call} (h : c ∈ treeCalls garbage ops) : ∃ op ∈ ops, c.key = op.key := by
  obtain ⟨i, hi, rfl⟩ := List.mem_mapIdx.mp h
  refine ⟨ops[i], List.getElem_mem hi, ?_⟩
  cases ops[i] <;> rfl

theorem treeCalls_append {more : List TreeOp} : treeCalls garbage (ops ++ more) =
    treeCalls garbage ops ++ treeCalls (fun i => garbage (i + ops.length)) more :=
  List.mapIdx_append

/-- Calls that fit keep a heap the tree of the names that they make. -/
theorem runCalls_applyOps {h : Heap} {root : Ptr} {content : CString → Option FileRef} :
    ∀ {calls : List Call}, (∀ c ∈ calls, c.Fits) → HoldsTree h root content →
      ∃ root' h', runCalls calls root h = some (root', h') ∧
        HoldsTree h' root' (calls.foldl Call.apply content)
  | [], _, hT => ⟨root, h, rfl, hT⟩
  | c :: calls, hfit, hT => by
      obtain ⟨root₁, h₁, hrun₁, hT₁⟩ := Call.run_spec (hfit c List.mem_cons_self) hT
      obtain ⟨root', h', hrun', hT'⟩ :=
        runCalls_applyOps (fun d hd => hfit d (List.mem_cons_of_mem _ hd)) hT₁
      exact ⟨root', h', by rw [runCalls, CM.bind_run_of hrun₁, hrun'], hT'⟩

theorem foldl_treeCalls {names : CString → Option FileRef} :
    (treeCalls garbage ops).foldl Call.apply names = applyOps names ops := by
  induction ops using List.reverseRecOn with
  | nil => rfl
  | append_singleton ops op ih =>
      have hlast : applyOps names (ops ++ [op]) = op.apply (applyOps names ops) :=
        List.foldl_append
      rw [treeCalls_append, List.foldl_append, ih, hlast]
      cases op <;> rfl

/-- A tree that holds the names of a run's start holds those of its end, where the calls fit. -/
theorem Traced.holdsTree {t₀ t : Traced} {ok : Traced → Request → Prop}
    (hrun : Runs TracedSteps ok t₀ t) (hops : t₀.ops = []) {h : Heap} {root : Ptr}
    (hT : HoldsTree h root t₀.store.fs.names)
    (hfit : ∀ c ∈ treeCalls garbage t.ops, c.Fits) :
    ∃ root' h', runCalls (treeCalls garbage t.ops) root h = some (root', h') ∧
      HoldsTree h' root' t.store.fs.names := by
  have hnames : t.store.fs.names = applyOps t₀.store.fs.names t.ops := by
    refine hrun.keeps (P := fun t => t.store.fs.names = applyOps t₀.store.fs.names t.ops) ?_
      fun {t₁ request t₂} hold _ hstep => ?_
    · rw [hops]
      rfl
    · rw [Store.step_names hstep.1, hold, hstep.2, applyOps, applyOps, applyOps, List.foldl_append]
  obtain ⟨root', h', hrun', hT'⟩ := runCalls_applyOps hfit hT
  rw [foldl_treeCalls, ← hnames] at hT'
  exact ⟨root', h', hrun', hT'⟩

end tree

end Nbfs.Fs
