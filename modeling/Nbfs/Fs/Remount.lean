import Nbfs.Fs.Reload

set_option autoImplicit false

/-!
# A device over many mounts

A filesystem is loaded, worked on and unloaded, and loaded again from what the device has then.
A file is known over all of this by its blob, whatever name it has.
-/

namespace Nbfs.Fs

open Nbfs.Lib Conv

/-! ### A file keeps its blob -/

/-- No file that has a blob gets another one. -/
structure KeepsBlobs (s s' : Filesystem) : Prop where
  brk : s.brk ≤ s'.brk
  files : ∀ r f', r < s.brk → s'.files r = some f' →
    ∃ f, s.files r = some f ∧ (f.blobid ≠ none → f'.blobid = f.blobid)

namespace KeepsBlobs

variable {s s' s'' : Filesystem} {r : FileRef} {fn : FileOp} {cb : CallRef} {mem : Memory}
  {name : CString} {bserrno : Int}

theorem refl : KeepsBlobs s s := ⟨Nat.le_refl _, fun _ f' _ hf' => ⟨f', hf', fun _ => rfl⟩⟩

theorem trans (h : KeepsBlobs s s') (h' : KeepsBlobs s' s'') : KeepsBlobs s s'' where
  brk := h.brk.trans h'.brk
  files r f'' hr hf'' := by
    obtain ⟨f', hf', hid'⟩ := h'.files r f'' (Nat.lt_of_lt_of_le hr h.brk) hf''
    obtain ⟨f, hf, hid⟩ := h.files r f' hr hf'
    refine ⟨f, hf, fun hset => ?_⟩
    have hsame := hid hset
    rw [← hsame]
    exact hid' (hsame ▸ hset)

/-- The files are the same. -/
theorem congr (h : KeepsBlobs s s') (hfiles : s''.files = s'.files) (hbrk : s''.brk = s'.brk) :
    KeepsBlobs s s'' where
  brk := hbrk ▸ h.brk
  files r f' hr hf' := h.files r f' hr (hfiles ▸ hf')

theorem setFile {f : SpdkFile} (f' : SpdkFile) (h : KeepsBlobs s s') (hf : s'.files r = some f)
    (hid : f.blobid ≠ none → f'.blobid = f.blobid) : KeepsBlobs s (s'.setFile r f') := by
  refine h.trans ⟨Nat.le_refl _, fun r' g hr hg => ?_⟩
  by_cases heq : r' = r
  · subst heq
    obtain rfl := Option.some.inj ((Filesystem.setFile_files_self ..).symm.trans hg)
    exact ⟨f, hf, hid⟩
  · exact ⟨g, (Filesystem.setFile_files_ne _ heq).symm.trans hg, fun _ => rfl⟩

theorem fileFree (h : KeepsBlobs s s') : KeepsBlobs s (s'.fileFree r) := by
  refine h.trans ⟨Nat.le_refl _, fun r' g hr hg => ?_⟩
  by_cases heq : r' = r
  · subst heq
    cases (Filesystem.fileFree_files_self ..).symm.trans hg
  · exact ⟨g, (Filesystem.fileFree_files_ne heq).symm.trans hg, fun _ => rfl⟩

theorem fileAlloc (h : KeepsBlobs s s') : KeepsBlobs s (s'.fileAlloc name) := by
  refine h.trans ⟨Nat.le_succ _, fun r' g hr hg => ⟨g, ?_, fun _ => rfl⟩⟩
  exact (Filesystem.fileAlloc_files_ne (Nat.ne_of_lt hr)).symm.trans hg

theorem fsOpenBlobDone {blob : Option BlobRef} (h : s.fsOpenBlobDone r blob bserrno = .ok s') :
    KeepsBlobs s s' := by
  obtain ⟨f, hf, rfl⟩ := Filesystem.fsOpenBlobDone_ok h
  exact (refl.setFile { f with blob, openRequests := [] } hf fun _ => rfl).congr rfl rfl

theorem fsOpenBlobCreateCb {file : Option FileRef}
    (h : s.fsOpenBlobCreateCb file name cb = .ok s') : KeepsBlobs s s' := by
  obtain ⟨r, old, -, hold, hcases⟩ := Filesystem.fsOpenBlobCreateCb_ok h
  have hopened : KeepsBlobs s (s.setFile r (old.opened cb)) := refl.setFile _ hold fun _ => rfl
  rcases hcases with ⟨-, -, rfl⟩ | ⟨-, -, rfl⟩ | ⟨-, -, hdone⟩
  · exact hopened.congr rfl rfl
  · exact hopened
  · exact hopened.trans (fsOpenBlobDone hdone)

theorem fsMdRenameFile {oldName newName : CString}
    (h : s.fsMdRenameFile oldName newName cb = .ok s') : KeepsBlobs s s' := by
  rcases Filesystem.fsMdRenameFile_ok h with ⟨-, rfl⟩ | ⟨r, f, old, -, hf, -, rfl⟩
  · exact refl.congr rfl rfl
  · exact (refl.setFile { f with name := some newName } hf fun _ => rfl).congr rfl rfl

theorem callFileOp {fserrno : Int} (h : s.callFileOp fn fserrno = .ok s') : KeepsBlobs s s' := by
  rcases Filesystem.callFileOp_ok h with ⟨cb, rfl⟩ | ⟨name, cb, -, hopen⟩ | ⟨old, new, cb, -, hrename⟩
  · exact refl.congr rfl rfl
  · exact fsOpenBlobCreateCb hopen
  · exact fsMdRenameFile hrename

theorem spdkFsCreateFileAsync (h : s.spdkFsCreateFileAsync name fn mem = .ok s') :
    KeepsBlobs s s' := by
  rcases Filesystem.spdkFsCreateFileAsync_ok h with ⟨fserrno, hcall⟩ | ⟨-, -, hcall⟩ | ⟨-, -, rfl⟩
  · exact callFileOp hcall
  · exact refl.fileAlloc.trans (callFileOp hcall)
  · refine (refl.fileAlloc.setFile _ Filesystem.fileAlloc_files_self fun hset => ?_).congr rfl rfl
    exact absurd rfl hset

theorem spdkFsOpenFileAsync {create : Bool}
    (h : s.spdkFsOpenFileAsync name create cb mem = .ok s') : KeepsBlobs s s' := by
  rcases Filesystem.spdkFsOpenFileAsync_ok h with ⟨fserrno, rfl⟩ | ⟨-, hcreate⟩ | ⟨r, -, hopen⟩
  · exact refl.congr rfl rfl
  · exact spdkFsCreateFileAsync hcreate
  · exact fsOpenBlobCreateCb hopen

theorem spdkFsDeleteFileAsync (h : s.spdkFsDeleteFileAsync name fn mem = .ok s') :
    KeepsBlobs s s' := by
  rcases Filesystem.spdkFsDeleteFileAsync_ok h with
    ⟨fserrno, hcall⟩ | ⟨r, f, -, hf, ⟨blob, -, -, rfl⟩ | ⟨filename, -, -, rfl⟩⟩
  · exact callFileOp hcall
  · exact (refl.setFile { f with isDeleted := true } hf fun _ => rfl).congr rfl rfl
  · exact (refl.fileFree (r := r)).congr rfl rfl

theorem fileCloseAsyncDone (h : s.fileCloseAsyncDone r cb bserrno mem = .ok s') :
    KeepsBlobs s s' := by
  obtain ⟨f, -, ⟨-, rfl⟩ | ⟨name, -, -, hdelete⟩⟩ := Filesystem.fileCloseAsyncDone_ok h
  · exact refl.congr rfl rfl
  · exact spdkFsDeleteFileAsync hdelete

theorem fileCloseAsync (h : s.fileCloseAsync r cb mem = .ok s') : KeepsBlobs s s' := by
  obtain ⟨f, hf, ⟨-, hdone⟩ | ⟨-, rfl⟩ | ⟨blob, -, -, rfl⟩⟩ := Filesystem.fileCloseAsync_ok h
  · exact fileCloseAsyncDone hdone
  · exact (refl.setFile { f with refCount := f.refCount - 1 } hf fun _ => rfl).congr rfl rfl
  · exact (refl.setFile { f with refCount := f.refCount - 1, blob := none } hf
      fun _ => rfl).congr rfl rfl

theorem spdkFileCloseAsync (h : s.spdkFileCloseAsync r cb mem = .ok s') : KeepsBlobs s s' := by
  obtain ⟨f, -, h⟩ := bind_ok.mp h
  split at h
  · obtain rfl := Except.ok.inj h
    exact refl.congr rfl rfl
  · obtain rfl := Except.ok.inj h
    exact refl.congr rfl rfl

theorem spdkFsRenameFileAsync {oldName newName : CString} {deleteMem : Memory}
    (h : s.spdkFsRenameFileAsync oldName newName cb mem deleteMem = .ok s') : KeepsBlobs s s' := by
  unfold Filesystem.spdkFsRenameFileAsync at h
  split at h
  · obtain rfl := Except.ok.inj h
    exact refl.congr rfl rfl
  split at h
  · obtain rfl := Except.ok.inj h
    exact refl.congr rfl rfl
  split at h
  · exact fsMdRenameFile h
  · exact spdkFsDeleteFileAsync h

/-- A completion: the blob that is created is for a file that has none. -/
theorem resume {op : BsOp} {answer : Answer}
    (hborn : ∀ r fn, op = .createBlob r fn → ∀ f, s.files r = some f → f.blobid = none)
    (h : op.resume s answer mem = .ok s') : KeepsBlobs s s' := by
  cases op with
  | createBlob r fn =>
      simp only [BsOp.resume, Filesystem.fsCreateBlobCreateCb] at h
      split at h
      · exact callFileOp h
      obtain ⟨f, hf, h⟩ := bind_ok.mp h
      obtain rfl := Except.ok.inj h
      replace hf := Filesystem.file_ok.mp hf
      exact (refl.setFile { f with blobid := some answer.blobid } hf
        fun hset => absurd (hborn r fn rfl f hf) hset).congr rfl rfl
  | createOpen r id fn =>
      simp only [BsOp.resume, Filesystem.fsCreateBlobOpenCb] at h
      split at h
      · exact callFileOp h
      · obtain rfl := Except.ok.inj h
        exact refl.congr rfl rfl
  | createResize r blob fn =>
      simp only [BsOp.resume, Filesystem.fsCreateBlobResizeCb] at h
      split at h
      · obtain rfl := Except.ok.inj h
        exact refl.congr rfl rfl
      obtain ⟨f, -, h⟩ := bind_ok.mp h
      split at h
      · cases h
      · obtain rfl := Except.ok.inj h
        exact refl.congr rfl rfl
  | createClose blob rc fn => exact callFileOp h
  | openBlob r blobid => exact fsOpenBlobDone h
  | closeSync r cb => exact fileCloseAsync h
  | closeBlob r blob cb => exact fileCloseAsyncDone h
  | syncDeleted blob fn => exact callFileOp h
  | deleteBlob blobid fn => exact callFileOp h
  | renameOpen blobid newName cb =>
      simp only [BsOp.resume, Filesystem.fsRenameBlobOpenCb] at h
      split at h
      · cases h
      · obtain rfl := Except.ok.inj h
        exact refl.congr rfl rfl
  | renameClose blob cb =>
      obtain rfl := Except.ok.inj h
      exact refl.congr rfl rfl

/-- A call that is no completion. -/
theorem run {request : Request} (hno : ∀ i answer mem, request ≠ .event (.complete i answer mem))
    (h : request.run s = .ok s') : KeepsBlobs s s' := by
  cases request with
  | event e =>
      cases e with
      | create name cb mem => exact spdkFsCreateFileAsync h
      | «open» name create cb mem => exact spdkFsOpenFileAsync h
      | delete name cb mem => exact spdkFsDeleteFileAsync h
      | close r cb mem =>
          simp only [Request.run, Fs.step] at h
          split at h
          · exact spdkFileCloseAsync h
          · cases h
      | complete i answer mem => exact absurd rfl (hno i answer mem)
  | rename oldName newName cb mem deleteMem => exact spdkFsRenameFileAsync h

end KeepsBlobs

/-! ### A file lives until it is deleted -/

/-- The files that an operation deletes. -/
def Operation.deletes (s : Filesystem) : Operation → List FileRef
  | .request req _ => req.deletes s
  | .setLength .. | .syncMd .. => []

namespace Mounted

variable {m m' : Mounted} {o : Operation} {id : BlobId} {disk : BlobId → Option Xattrs}

/-- The file of the blob is created, and nobody deleted it. -/
def Lives (m : Mounted) (id : BlobId) : Prop :=
  ∃ r f, r ∈ m.created ∧ r ∉ m.deleted ∧ m.fs.files r = some f ∧ f.blobid = some id

/-- What a step does to the lists of files. -/
theorem step_follows (h : m.Stored) (hstep : MountedSteps m o m') : KeepsBlobs m.fs m'.fs ∧
    (∀ r ∈ m.created, r ∈ m'.created) ∧ m'.deleted = o.deletes m.fs ++ m.deleted := by
  have hcall : ∀ {request : Request} {set : Bool},
      (∀ i answer mem, request ≠ .event (.complete i answer mem)) →
        m.call request set = .ok m' → KeepsBlobs m.fs m'.fs ∧ (∀ r ∈ m.created, r ∈ m'.created) ∧
          m'.deleted = request.deletes m.fs ++ m.deleted := by
    intro request set hno hcall
    obtain ⟨fs, hfs, hrest⟩ := bind_ok.mp hcall
    obtain ⟨md, -, hret⟩ := bind_ok.mp hrest
    obtain rfl := Except.ok.inj hret
    exact ⟨.run hno hfs, fun r hr => hr, rfl⟩
  cases o with
  | request request set =>
      cases request with
      | event e =>
          cases e with
          | complete i answer mem =>
              change m.complete i answer mem set = .ok m' at hstep
              unfold complete at hstep
              split at hstep
              · cases hstep
              rename_i op hop
              split at hstep
              · cases hstep
              obtain ⟨md₁, -, hstep⟩ := bind_ok.mp hstep
              obtain ⟨fs, hresume, hstep⟩ := bind_ok.mp hstep
              obtain ⟨md₂, -, hret⟩ := bind_ok.mp hstep
              obtain rfl := Except.ok.inj hret
              refine ⟨?_, fun r hr => List.mem_append_right _ hr, rfl⟩
              have hborn : ∀ r fn, op = .createBlob r fn → ∀ f, m.fs.files r = some f →
                  f.blobid = none := by
                rintro r fn rfl f hf
                exact ((h.fits _ (mem_taken hop)).2.2 f hf).1
              have hkept := KeepsBlobs.resume (s := { m.fs with pending := m.fs.pending.eraseIdx i })
                hborn hresume
              exact ⟨hkept.brk, hkept.files⟩
          | _ =>
              have hstep : m.call _ set = .ok m' := hstep
              exact hcall (by simp) hstep
      | rename oldName newName cb mem deleteMem =>
          have hstep : m.call _ set = .ok m' := hstep
          exact hcall (by simp) hstep
  | setLength r length =>
      obtain ⟨blob, -, hstep⟩ := bind_ok.mp hstep
      obtain ⟨md, -, hret⟩ := bind_ok.mp hstep
      obtain rfl := Except.ok.inj hret
      exact ⟨.refl, fun r hr => hr, rfl⟩
  | syncMd r =>
      obtain ⟨blob, -, hret⟩ := bind_ok.mp hstep
      obtain rfl := Except.ok.inj hret
      exact ⟨.refl, fun r hr => hr, rfl⟩

/-- A step that does not delete the file leaves it alive. -/
theorem Lives.step (h : m.Stored) (hlives : m.Lives id) (hkeeps : Keeps m o)
    (hstep : MountedSteps m o m')
    (hnot : ∀ r f, r ∈ o.deletes m.fs → m.fs.files r = some f → f.blobid ≠ some id) :
    m'.Lives id := by
  obtain ⟨r, f, hcreated, hdeleted, hf, hid⟩ := hlives
  obtain ⟨hblobs, hmore, hlist⟩ := step_follows h hstep
  have hdeleted' : r ∉ m'.deleted := by
    rw [hlist, List.mem_append]
    exact not_or.mpr ⟨fun hmem => hnot r f hmem hf hid, hdeleted⟩
  obtain ⟨-, f', hf', -⟩ := (h.step hkeeps hstep).created r (hmore r hcreated) hdeleted'
  obtain ⟨f₀, hf₀, hsame⟩ := hblobs.files r f' (h.keyed.lt_brk hf) hf'
  obtain rfl := Option.some.inj (hf.symm.trans hf₀)
  exact ⟨r, f', hmore r hcreated, hdeleted', hf', (hsame (by simp [hid])).trans hid⟩

/-- An unload leaves its blob on the device, without a mark. -/
theorem Lives.unload (h : m.Stored) (hlives : m.Lives id) (hunloads : Unloads m disk) :
    ∃ x, disk id = some x ∧ x.isDeleted = false := by
  obtain ⟨r, f, -, hdeleted, hf, hid⟩ := hlives
  obtain ⟨x, hx⟩ := Option.ne_none_iff_exists'.mp (h.there r f id hf hid)
  refine ⟨x, ?_, Bool.eq_false_iff.mpr fun hmark => hdeleted (h.marks r f id x hf hid hx hmark)⟩
  rw [hunloads.disk, ← Metadata.xattrs_closed (hunloads.refs id), hx]

end Mounted

/-! ### Mounts one after the other -/

/-- A filesystem that is mounted, or what the device has while none is. -/
inductive Device where
  | mounted (m : Mounted)
  | unloaded (disk : BlobId → Option Xattrs)

/-- An operation of the mounted filesystem, its unload, or a load with its answers. -/
inductive DeviceEvent where
  | operation (o : Operation)
  | unload
  | load (t : LoadTrace)

inductive DeviceSteps : Device → DeviceEvent → Device → Prop where
  | operation {m m' : Mounted} {o : Operation} : MountedSteps m o m' →
      DeviceSteps (.mounted m) (.operation o) (.mounted m')
  | unload {m : Mounted} {disk : BlobId → Option Xattrs} : Unloads m disk →
      DeviceSteps (.mounted m) .unload (.unloaded disk)
  | load {disk : BlobId → Option Xattrs} {t : LoadTrace} {l : Load} :
      Free spdkFsLoad t (some (some l)) →
        DeviceSteps (.unloaded disk) (.load t) (.mounted (l.mounted (afterLoad disk t)))

/-- Operations keep creations, deletions and renames whole, and loads get what they ask for. -/
def DeviceKeeps : Device → DeviceEvent → Prop
  | .mounted m, .operation o => Keeps m o
  | .unloaded disk, .load t => ∀ x ∈ t, Succeeds disk x
  | _, _ => True

/-- A load that is not disturbed completes once, with 0; it finds each blob that is not marked,
nothing else under any name, and deletes the marked blobs and no others. -/
def LoadsExactly (disk : BlobId → Option Xattrs) : Prop :=
  ∀ t o, Free spdkFsLoad t o → (∀ x ∈ t, Undisturbed disk x) →
    callbacks t = [0] ∧ ∃ l : Load, o = some (some l) ∧
      (∀ id x, disk id = some x → x.isDeleted = false → l.Found id x) ∧
      (∀ n r, l.fs.names n = some r → ∃ id x f, disk id = some x ∧ x.isDeleted = false ∧
        x.name = some n ∧ l.fs.files r = some f ∧ f.blobid = some id) ∧
      ∀ id, id ∈ deletions t ↔ ∃ x, disk id = some x ∧ x.isDeleted = true

theorem Loadable.loadsExactly {disk : BlobId → Option Xattrs} (h : Loadable disk) :
    LoadsExactly disk := by
  intro t o hload ht
  obtain ⟨hcalls, l, bs, rfl, hbs, hloads⟩ := h.loads hload ht
  refine ⟨hcalls, l, rfl, fun id x => h.found hbs hloads, fun n r hentry => ?_,
    fun id => mem_deletions hbs hloads hload ht⟩
  obtain ⟨f, hf, hfname⟩ := hloads.initial.tree n r hentry
  obtain ⟨blob, hblob, hfile⟩ := hloads.file r (by simp [hf])
  obtain ⟨f', n', hf', hid, hfname', hname, -⟩ := hfile.file
  obtain rfl := Option.some.inj (hf.symm.trans hf')
  obtain rfl := Option.some.inj (hfname.symm.trans hfname')
  exact ⟨_, _, f, (hbs.found blob hblob).2, hfile.live, hname, hf, hid⟩

namespace Device

variable {d d' : Device} {e : DeviceEvent} {id : BlobId} {m₀ : Mounted}

/-- The invariant of a device. -/
def Sound : Device → Prop
  | mounted m => m.Stored
  | unloaded disk => Loadable disk

/-- The blob is that of a file that nobody deleted. -/
def Lives (id : BlobId) : Device → Prop
  | mounted m => m.Lives id
  | unloaded disk => ∃ x, disk id = some x ∧ x.isDeleted = false

/-- The operation deletes the file of the blob. -/
def Deletes (id : BlobId) : Device → DeviceEvent → Prop
  | mounted m, .operation o =>
      ∃ r f, r ∈ o.deletes m.fs ∧ m.fs.files r = some f ∧ f.blobid = some id
  | _, _ => False

theorem Sound.step (h : d.Sound) (hkeeps : DeviceKeeps d e) (hstep : DeviceSteps d e d') :
    d'.Sound := by
  cases hstep with
  | operation hstep => exact Mounted.Stored.step h hkeeps hstep
  | unload hunloads => exact Mounted.Stored.loadable h hunloads
  | load hload => exact Mounted.Stored.ready (Loadable.ready h hload hkeeps)

theorem Sound.runs (hready : Ready m₀) (hrun : Runs DeviceSteps DeviceKeeps (mounted m₀) d) :
    d.Sound :=
  hrun.keeps (P := Sound) (Mounted.Stored.ready hready) fun hs hok hstep => hs.step hok hstep

/-- Only a deletion of its file ends the life of a blob. -/
theorem Lives.step (h : d.Sound) (hlives : d.Lives id) (hkeeps : DeviceKeeps d e)
    (hnot : ¬ d.Deletes id e) (hstep : DeviceSteps d e d') : d'.Lives id := by
  cases hstep with
  | operation hstep =>
      exact Mounted.Lives.step h hlives hkeeps hstep fun r f hr hf hid => hnot ⟨r, f, hr, hf, hid⟩
  | unload hunloads => exact Mounted.Lives.unload h hlives hunloads
  | @load disk t l hload =>
      obtain ⟨x, hx, hlive⟩ := hlives
      obtain ⟨-, l', hl, hfound, -⟩ := Loadable.loadsExactly h t _ hload
        fun x hx => (hkeeps x hx).undisturbed
      obtain rfl := Option.some.inj (Option.some.inj hl)
      obtain ⟨r, f, n, length, -, -, -, hf, hid, -⟩ := hfound id x hx hlive
      have hready := Loadable.ready h hload hkeeps
      exact ⟨r, f, (hready.created r).mpr (by simp [Load.mounted, hf]), List.not_mem_nil, hf, hid⟩

end Device

end Nbfs.Fs
