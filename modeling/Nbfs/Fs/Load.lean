import Nbfs.Fs.Names
import Nbfs.Lib.Conversation

set_option autoImplicit false

/-!
# Loading a filesystem (`spdk_fs_load`)

`spdk_bs_load` calls `iter_cb` for each blob it finds and `load_cb` at its end.
`iter_cb` may report an error and free the request, and the rest goes on with the
same request: its memory belongs to the channel and nothing else takes it meanwhile.
-/

namespace Nbfs.Fs

open Nbfs.Lib Conv

def einval : Int := 22

/-- A blob as `iter_cb` gets it: an error of the iteration, the id, and the xattrs. -/
structure FoundBlob where
  rc : Int
  blobid : BlobId
  name : Option CString
  /-- `*length`, with its `value_len`. -/
  length : Option (UInt64 × Nat)
  isDeleted : Bool

/-- What `spdk_bs_get_bstype` gives. -/
inductive BsType where
  | zeros
  | blobfs
  | other

/-- How `spdk_bs_load` ends: the blobs it found, and what `load_cb` gets. -/
structure LoadedBs where
  found : List FoundBlob
  bserrno : Int
  bstype : BsType

/-- What loading asks for. -/
inductive LoadRequest where
  /-- `calloc` in `fs_alloc`. -/
  | callocFs
  | allocFsRequest
  | freeFsRequest
  | bsLoad
  | setBstype
  /-- The allocations of `file_alloc`. -/
  | callocFile
  /-- `calloc` of a `struct spdk_deleted_file`. -/
  | callocDeletedFile
  | deleteBlob (blobid : BlobId)
  /-- `fs_free_io_channels` and `fs_io_device_unregister`. -/
  | unregister
  /-- `fs_op_with_handle(arg, fs, fserrno)`; `fs` says whether that is not NULL. -/
  | callback (fs : Bool) (fserrno : Int)

def LoadResponse : LoadRequest → Type
  | .callocFs | .allocFsRequest | .callocFile | .callocDeletedFile => Bool
  | .bsLoad => LoadedBs
  | .deleteBlob _ => Int
  | .freeFsRequest | .setBstype | .unregister | .callback .. => Unit

abbrev Loading := Conv LoadRequest LoadResponse

section calls

variable (blobid : BlobId) (fs : Bool) (fserrno : Int)

abbrev callocFs : Loading Bool := request LoadRequest.callocFs
abbrev allocFsRequest : Loading Bool := request LoadRequest.allocFsRequest
abbrev freeFsRequest : Loading Unit := request LoadRequest.freeFsRequest
abbrev spdkBsLoad : Loading LoadedBs := request LoadRequest.bsLoad
abbrev spdkBsSetBstype : Loading Unit := request LoadRequest.setBstype
abbrev callocFile : Loading Bool := request LoadRequest.callocFile
abbrev callocDeletedFile : Loading Bool := request LoadRequest.callocDeletedFile
abbrev spdkBsDeleteBlob : Loading Int := request (LoadRequest.deleteBlob blobid)
abbrev unregister : Loading Unit := request LoadRequest.unregister
abbrev fsOpWithHandle : Loading Unit := request (LoadRequest.callback fs fserrno)

end calls

/-- The counters of a file. -/
structure Counters where
  length : UInt64
  lengthFlushed : UInt64
  lengthXattr : UInt64
  appendPos : UInt64

/-- The filesystem as far as it is loaded, and `args->op.fs_load.deleted_files`. -/
structure Load where
  fs : Filesystem
  counters : FileRef → Option Counters
  deletedFiles : List BlobId

/-- What `fs_alloc` makes. -/
def fsAlloc : Load where
  fs := ⟨fun _ => none, fun _ => none, 0, [], [], []⟩
  counters := fun _ => none
  deletedFiles := []

/-- The fields of a file that `iter_cb` sets. -/
def Load.setLoaded (s : Load) (name : CString) (blobid : BlobId) (length : UInt64) : Load :=
  { s with
    fs := (s.fs.fileAlloc name).setFile s.fs.brk ⟨some name, some blobid, none, 0, false, []⟩
    counters := Function.update s.counters s.fs.brk (some ⟨length, length, length, length⟩) }

/-- An error exit of `iter_cb`. -/
def iterFailed (s : Load) (rc : Int) : Loading Load := do
  fsOpWithHandle true rc
  freeFsRequest
  return s

/-- `iter_cb`. -/
def iterCb (s : Load) (blob : FoundBlob) : Loading Load := do
  if blob.rc < 0 then iterFailed s blob.rc
  else
    match blob.name, blob.length with
    | none, _ | _, none => iterFailed s (-enoent)
    | some name, some (length, valueLen) =>
        if valueLen ≠ 8 then .undefined
        else if blob.isDeleted then do
          let deletedFile ← callocDeletedFile
          if deletedFile = false then iterFailed s (-enomem)
          else return { s with deletedFiles := s.deletedFiles ++ [blob.blobid] }
        else do
          let f ← callocFile
          if f = false then iterFailed s (-enomem)
          else return s.setLoaded name blob.blobid length

/-- `fs_load_done`, with `_handle_deleted_files`: it is called again when the deletion of
the first deleted file ends. -/
def fsLoadDone : List BlobId → Loading Unit
  | blobid :: deletedFiles => do
      let _bserrno ← spdkBsDeleteBlob blobid
      fsLoadDone deletedFiles
  | [] => do
      fsOpWithHandle true 0
      freeFsRequest

/-- An error exit of `load_cb`. -/
def loadFailed (rc : Int) : Loading Unit := do
  fsOpWithHandle false rc
  freeFsRequest
  unregister

/-- `load_cb`. -/
def loadCb (s : Load) (bserrno : Int) (bstype : BsType) : Loading Unit := do
  if bserrno ≠ 0 then loadFailed bserrno
  else
    match bstype with
    | .zeros => do
        spdkBsSetBstype
        fsLoadDone s.deletedFiles
    | .blobfs => fsLoadDone s.deletedFiles
    | .other => loadFailed (-einval)

/-- `spdk_fs_load`; `none` where there is no filesystem. -/
def spdkFsLoad : Loading (Option Load) := do
  let fs ← callocFs
  if fs = false then
    fsOpWithHandle false (-enomem)
    return none
  else
    let req ← allocFsRequest
    if req = false then
      unregister
      fsOpWithHandle false (-enomem)
      return none
    else
      let bs ← spdkBsLoad
      let s ← bs.found.foldlM iterCb fsAlloc
      loadCb s bs.bserrno bs.bstype
      return some s

/-! ### Counting callbacks -/

abbrev LoadTrace := Trace LoadResponse

/-- The errors the caller was called back with. -/
def callbacks : LoadTrace → List Int :=
  Trace.asked fun | .callback _ fserrno => some fserrno | _ => none

/-- How often the request was put on the channel's list. -/
def freed (t : LoadTrace) : Nat :=
  (Trace.asked (fun | .freeFsRequest => some () | _ => none) t).length

/-- How often `alloc_fs_request` took a request off that list. -/
def taken (t : LoadTrace) : Nat :=
  t.countP fun
    | ⟨.allocFsRequest, req⟩ => show Bool from req
    | _ => false

/-- A blob with what every file of the filesystem has. -/
def FoundBlob.WellFormed (blob : FoundBlob) : Prop :=
  0 ≤ blob.rc ∧ blob.name ≠ none ∧ ∃ length, blob.length = some (length, 8)

/-- An answer that lets `iter_cb` accept what was found. -/
def Accepting : (r : LoadRequest) × LoadResponse r → Prop
  | ⟨.bsLoad, bs⟩ => ∀ blob ∈ LoadedBs.found bs, blob.WellFormed
  | ⟨.callocFile, f⟩ => f = true
  | ⟨.callocDeletedFile, deletedFile⟩ => deletedFile = true
  | _ => True

/-- Every blob is well formed, and there was memory for what is kept of it. -/
def AllAccepted (t : LoadTrace) : Prop := ∀ x ∈ t, Accepting x

/-- The load completes once: it comes to its end, calls back once, puts its request back
as often as it took one, and reports 0 only if every blob was accepted. -/
structure CompletesOnce (t : LoadTrace) (o : Option (Option Load)) : Prop where
  ends : o ≠ none
  callback : (callbacks t).length = 1
  freed : freed t = taken t
  accepted : 0 ∈ callbacks t → AllAccepted t

section counts

variable {t t' : LoadTrace}

theorem callbacks_append : callbacks (t ++ t') = callbacks t ++ callbacks t' := Trace.asked_append

theorem freed_append : freed (t ++ t') = freed t + freed t' := by
  simp [freed]

theorem taken_append : taken (t ++ t') = taken t + taken t' := List.countP_append

theorem allAccepted_append : AllAccepted (t ++ t') ↔ AllAccepted t ∧ AllAccepted t' :=
  List.forall_mem_append

theorem allAccepted_cons {x : (r : LoadRequest) × LoadResponse r} :
    AllAccepted (x :: t) ↔ Accepting x ∧ AllAccepted t :=
  List.forall_mem_cons

end counts

/-! ### The callbacks of `spdk_bs_load` -/

/-- What a part of the load does with the request: `ended` times it calls back and frees
it, and it takes none. -/
structure Ends (t : LoadTrace) (ended : Nat) : Prop where
  callback : (callbacks t).length = ended
  freed : freed t = ended
  taken : taken t = 0

theorem Ends.append {t t' : LoadTrace} {ended ended' : Nat} (h : Ends t ended)
    (h' : Ends t' ended') : Ends (t ++ t') (ended + ended') where
  callback := by rw [callbacks_append, List.length_append, h.callback, h'.callback]
  freed := by rw [freed_append, h.freed, h'.freed]
  taken := by rw [taken_append, h.taken, h'.taken]

theorem iterFailed_ends {s : Load} {rc : Int} {t : LoadTrace} {o : Option Load}
    (h : Free (iterFailed s rc) t o) : o = some s ∧ Ends t 1 ∧ AllAccepted t := by
  obtain ⟨x, t₁, rfl, h₁⟩ := Free.request_iff.mp h
  obtain ⟨y, t₂, rfl, h₂⟩ := Free.request_iff.mp h₁
  obtain ⟨rfl, rfl⟩ := Free.ret_iff.mp h₂
  refine ⟨rfl, ⟨rfl, rfl, rfl⟩, ?_⟩
  simp [AllAccepted, Accepting]

/-- `iter_cb` accepts a blob and says nothing, or it rejects it and ends the load; a
length of another size ends the program. -/
theorem iterCb_ends {s : Load} {blob : FoundBlob} {t : LoadTrace} {o : Option Load}
    (h : Free (iterCb s blob) t o) :
    o = none ∧ ¬ blob.WellFormed ∨
      o ≠ none ∧ (Ends t 0 ∧ blob.WellFormed ∧ AllAccepted t ∨
        Ends t 1 ∧ ¬ (blob.WellFormed ∧ AllAccepted t)) := by
  unfold iterCb at h
  split at h
  · rename_i hrc
    obtain ⟨rfl, hends, -⟩ := iterFailed_ends h
    exact Or.inr ⟨nofun, Or.inr ⟨hends, fun hw => absurd hw.1.1 (by omega)⟩⟩
  rename_i hrc
  split at h
  · rename_i hname
    obtain ⟨rfl, hends, -⟩ := iterFailed_ends h
    exact Or.inr ⟨nofun, Or.inr ⟨hends, fun hw => hw.1.2.1 hname⟩⟩
  · rename_i hlength _
    obtain ⟨rfl, hends, -⟩ := iterFailed_ends h
    refine Or.inr ⟨nofun, Or.inr ⟨hends, fun hw => ?_⟩⟩
    obtain ⟨length, hsome⟩ := hw.1.2.2
    cases hlength.symm.trans hsome
  rename_i name length valueLen hname hlength
  split at h
  · rename_i hlen
    obtain ⟨-, rfl⟩ := Free.undefined_iff.mp h
    refine Or.inl ⟨rfl, fun hw => ?_⟩
    obtain ⟨length', hsome⟩ := hw.2.2
    rw [hlength, Option.some.injEq, Prod.mk.injEq] at hsome
    exact hlen hsome.2
  rename_i hlen
  have hw : blob.WellFormed := by
    refine ⟨by omega, by simp [hname], length, ?_⟩
    rw [hlength, not_not.mp hlen]
  split at h
  · obtain ⟨deletedFile, t₁, rfl, hrest⟩ := Free.request_iff.mp h
    split at hrest
    · rename_i hfalse
      obtain ⟨rfl, hends, -⟩ := iterFailed_ends hrest
      refine Or.inr ⟨nofun, Or.inr ⟨Ends.append (t := [_]) ⟨rfl, rfl, rfl⟩ hends, fun hall => ?_⟩⟩
      cases hfalse.symm.trans (hall.2 _ List.mem_cons_self)
    · rename_i htrue
      obtain ⟨rfl, rfl⟩ := Free.ret_iff.mp hrest
      refine Or.inr ⟨nofun, Or.inl ⟨⟨rfl, rfl, rfl⟩, hw, ?_⟩⟩
      exact allAccepted_cons.mpr ⟨Bool.eq_true_of_not_eq_false htrue, nofun⟩
  · obtain ⟨f, t₁, rfl, hrest⟩ := Free.request_iff.mp h
    split at hrest
    · rename_i hfalse
      obtain ⟨rfl, hends, -⟩ := iterFailed_ends hrest
      refine Or.inr ⟨nofun, Or.inr ⟨Ends.append (t := [_]) ⟨rfl, rfl, rfl⟩ hends, fun hall => ?_⟩⟩
      cases hfalse.symm.trans (hall.2 _ List.mem_cons_self)
    · rename_i htrue
      obtain ⟨rfl, rfl⟩ := Free.ret_iff.mp hrest
      refine Or.inr ⟨nofun, Or.inl ⟨⟨rfl, rfl, rfl⟩, hw, ?_⟩⟩
      exact allAccepted_cons.mpr ⟨Bool.eq_true_of_not_eq_false htrue, nofun⟩

/-- Over all blobs: each one that is rejected ends the load once. -/
theorem iter_ends {found : List FoundBlob} {s : Load} {t : LoadTrace} {o : Option Load}
    (h : Free (found.foldlM iterCb s) t o) :
    o = none ∧ ¬ (∀ blob ∈ found, blob.WellFormed) ∨
      o ≠ none ∧ ∃ rejected, Ends t rejected ∧
        (rejected = 0 ↔ (∀ blob ∈ found, blob.WellFormed) ∧ AllAccepted t) := by
  induction found generalizing s t with
  | nil =>
      obtain ⟨rfl, rfl⟩ := Free.ret_iff.mp h
      exact Or.inr ⟨nofun, 0, ⟨rfl, rfl, rfl⟩, by simp [AllAccepted]⟩
  | cons blob found ih =>
      rw [List.foldlM_cons] at h
      rw [List.forall_mem_cons]
      rcases Free.bind_iff.mp h with ⟨s', t₁, t₂, rfl, hfirst, hrest⟩ | ⟨hfirst, rfl⟩
      · rw [allAccepted_append]
        rcases ih hrest with ⟨rfl, hbad⟩ | ⟨hsome, rejected, hends, hrejected⟩
        · exact Or.inl ⟨rfl, fun hall => hbad hall.2⟩
        rcases iterCb_ends hfirst with ⟨hnone, -⟩ | ⟨-, ⟨hends', hw, hacc⟩ | ⟨hends', hbad⟩⟩
        · cases hnone
        · refine Or.inr ⟨hsome, _, hends'.append hends, ?_⟩
          rw [Nat.zero_add, hrejected]
          exact ⟨fun hall => ⟨⟨hw, hall.1⟩, hacc, hall.2⟩, fun hall => ⟨hall.1.2, hall.2.2⟩⟩
        · refine Or.inr ⟨hsome, _, hends'.append hends, ?_⟩
          exact iff_of_false (by omega) fun hall => hbad ⟨hall.1.1, hall.2.1⟩
      · rcases iterCb_ends hfirst with ⟨-, hbad⟩ | ⟨hsome, -⟩
        · exact Or.inl ⟨rfl, fun hall => hbad hall.1⟩
        · exact absurd rfl hsome

theorem fsLoadDone_ends {deletedFiles : List BlobId} {t : LoadTrace} {o : Option Unit}
    (h : Free (fsLoadDone deletedFiles) t o) : o = some () ∧ Ends t 1 ∧ AllAccepted t := by
  induction deletedFiles generalizing t with
  | nil =>
      obtain ⟨x, t₁, rfl, h₁⟩ := Free.request_iff.mp h
      obtain ⟨y, t₂, rfl, h₂⟩ := Free.request_iff.mp h₁
      obtain ⟨rfl, rfl⟩ := Free.ret_iff.mp h₂
      refine ⟨rfl, ⟨rfl, rfl, rfl⟩, ?_⟩
      simp [AllAccepted, Accepting]
  | cons blobid deletedFiles ih =>
      obtain ⟨x, t₁, rfl, hrest⟩ := Free.request_iff.mp h
      obtain ⟨hsome, hends, hacc⟩ := ih hrest
      refine ⟨hsome, Ends.append (t := [_]) ⟨rfl, rfl, rfl⟩ hends, ?_⟩
      exact allAccepted_cons.mpr ⟨trivial, hacc⟩

theorem loadFailed_ends {rc : Int} {t : LoadTrace} {o : Option Unit}
    (h : Free (loadFailed rc) t o) : o = some () ∧ Ends t 1 ∧ AllAccepted t := by
  obtain ⟨x, t₁, rfl, h₁⟩ := Free.request_iff.mp h
  obtain ⟨y, t₂, rfl, h₂⟩ := Free.request_iff.mp h₁
  obtain ⟨z, t₃, rfl, h₃⟩ := Free.request_iff.mp h₂
  obtain ⟨rfl, rfl⟩ := Free.ret_iff.mp h₃
  refine ⟨rfl, ⟨rfl, rfl, rfl⟩, ?_⟩
  simp [AllAccepted, Accepting]

/-- `load_cb` ends the load once, whatever `iter_cb` did before. -/
theorem loadCb_ends {s : Load} {bserrno : Int} {bstype : BsType} {t : LoadTrace}
    {o : Option Unit} (h : Free (loadCb s bserrno bstype) t o) :
    o = some () ∧ Ends t 1 ∧ AllAccepted t := by
  unfold loadCb at h
  split at h
  · exact loadFailed_ends h
  cases bstype with
  | zeros =>
      obtain ⟨x, t₁, rfl, hrest⟩ := Free.request_iff.mp h
      obtain ⟨hsome, hends, hacc⟩ := fsLoadDone_ends hrest
      refine ⟨hsome, Ends.append (t := [_]) ⟨rfl, rfl, rfl⟩ hends, ?_⟩
      exact allAccepted_cons.mpr ⟨trivial, hacc⟩
  | blobfs => exact fsLoadDone_ends h
  | other => exact loadFailed_ends h

/-- A load completes exactly once if and only if every blob it finds is accepted. -/
theorem completesOnce_iff {t : LoadTrace} {o : Option (Option Load)} (h : Free spdkFsLoad t o) :
    CompletesOnce t o ↔ AllAccepted t := by
  obtain ⟨fs, t₁, rfl, h₁⟩ := Free.request_iff.mp h
  split at h₁
  · -- No filesystem: one callback, and no request.
    obtain ⟨x, t₂, rfl, h₂⟩ := Free.request_iff.mp h₁
    obtain ⟨rfl, rfl⟩ := Free.ret_iff.mp h₂
    have hacc : AllAccepted [⟨.callocFs, fs⟩, ⟨.callback false (-enomem), x⟩] := by
      simp [AllAccepted, Accepting]
    exact iff_of_true ⟨nofun, rfl, rfl, fun _ => hacc⟩ hacc
  obtain ⟨req, t₂, rfl, h₂⟩ := Free.request_iff.mp h₁
  split at h₂
  · -- No request.
    rename_i hreq
    obtain ⟨x, t₃, rfl, h₃⟩ := Free.request_iff.mp h₂
    obtain ⟨y, t₄, rfl, h₄⟩ := Free.request_iff.mp h₃
    obtain ⟨rfl, rfl⟩ := Free.ret_iff.mp h₄
    have hacc : AllAccepted [⟨.callocFs, fs⟩, ⟨.allocFsRequest, req⟩, ⟨.unregister, x⟩,
        ⟨.callback false (-enomem), y⟩] := by
      simp [AllAccepted, Accepting]
    subst hreq
    exact iff_of_true ⟨nofun, rfl, rfl, fun _ => hacc⟩ hacc
  rename_i hreq
  obtain rfl : req = true := Bool.eq_true_of_not_eq_false hreq
  obtain ⟨bs, t₃, rfl, h₃⟩ := Free.request_iff.mp h₂
  have hall : AllAccepted (⟨.callocFs, fs⟩ :: ⟨.allocFsRequest, true⟩ :: ⟨.bsLoad, bs⟩ :: t₃) ↔
      (∀ blob ∈ LoadedBs.found bs, blob.WellFormed) ∧ AllAccepted t₃ := by
    simp only [allAccepted_cons, Accepting, true_and]
  rw [hall]
  rcases Free.bind_iff.mp h₃ with ⟨s, t₄, t₅, rfl, hiter, h₄⟩ | ⟨hiter, rfl⟩
  · obtain ⟨rejected, hends, hrejected⟩ := (iter_ends hiter).resolve_left (by simp) |>.2
    rcases Free.bind_iff.mp h₄ with ⟨_, t₆, t₇, rfl, hload, h₅⟩ | ⟨hload, rfl⟩
    · obtain ⟨rfl, rfl⟩ := Free.ret_iff.mp h₅
      obtain ⟨-, hends', hacc⟩ := loadCb_ends hload
      rw [List.append_nil] at hall ⊢
      have hboth := hends.append hends'
      rw [allAccepted_append, and_iff_left hacc, ← hrejected]
      constructor
      · rintro ⟨-, hcallback, -, -⟩
        have hcount := hboth.callback
        change (callbacks (t₄ ++ t₆)).length = 1 at hcallback
        omega
      · rintro rfl
        refine ⟨nofun, hboth.callback, ?_, fun _ => ?_⟩
        · have htaken := hboth.taken
          rw [taken] at htaken ⊢
          rw [List.countP_cons, List.countP_cons, List.countP_cons, htaken]
          exact hboth.freed
        · rw [hall, allAccepted_append, and_iff_left hacc]
          exact hrejected.mp rfl
    · cases (loadCb_ends hload).1
  · -- The program ended at a length of another size.
    refine iff_of_false (fun honce => honce.ends rfl) fun hacc => ?_
    rcases iter_ends hiter with ⟨-, hbad⟩ | ⟨hsome, -⟩
    · exact hbad hacc.1
    · exact hsome rfl

/-- A device whose only blob has no name, as after a creation that was cut off. -/
def nameless : LoadedBs := ⟨[⟨0, 5, none, none, false⟩], 0, .blobfs⟩

/-- The caller is called back with an error, and then with 0. -/
theorem completesOnce_nameless :
    ¬ ∀ t o, Free spdkFsLoad t o → CompletesOnce t o := by
  intro hall
  have hload : Free spdkFsLoad [⟨.callocFs, true⟩, ⟨.allocFsRequest, true⟩, ⟨.bsLoad, nameless⟩,
      ⟨.callback true (-enoent), ()⟩, ⟨.freeFsRequest, ()⟩, ⟨.callback true 0, ()⟩,
      ⟨.freeFsRequest, ()⟩] (some (some fsAlloc)) := by
    repeat refine Free.call_iff.mpr ⟨_, _, rfl, ?_⟩
    exact Free.ret_iff.mpr ⟨rfl, rfl⟩
  exact absurd (hall _ _ hload).callback (by decide)

/-- A device with one file, of 4096 bytes. -/
def oneBlob (name : CString) : LoadedBs := ⟨[⟨0, 5, some name, some (4096, 8), false⟩], 0, .blobfs⟩

theorem completesOnce_iff_oneBlob : ∃ t o, 0 ∈ callbacks t ∧ CompletesOnce t o := by
  let name : CString := ⟨[97], by decide⟩
  let t : LoadTrace := [⟨.callocFs, true⟩, ⟨.allocFsRequest, true⟩, ⟨.bsLoad, oneBlob name⟩,
    ⟨.callocFile, true⟩, ⟨.callback true 0, ()⟩, ⟨.freeFsRequest, ()⟩]
  have hload : Free spdkFsLoad t (some (some (fsAlloc.setLoaded name 5 4096))) := by
    repeat refine Free.call_iff.mpr ⟨_, _, rfl, ?_⟩
    exact Free.ret_iff.mpr ⟨rfl, rfl⟩
  have hacc : AllAccepted t := by
    simp only [t, allAccepted_cons, Accepting, true_and]
    exact ⟨by simp [oneBlob, FoundBlob.WellFormed], rfl, nofun⟩
  exact ⟨t, _, by decide, (completesOnce_iff hload).mpr hacc⟩

/-! ### The loaded filesystem -/

theorem Initial.setLoaded {s : Load} (h : Initial s.fs) (name : CString) (blobid : BlobId)
    (length : UInt64) : Initial (s.setLoaded name blobid length).fs := by
  have hfile : ∀ r f, (s.setLoaded name blobid length).fs.files r = some f →
      r = s.fs.brk ∧ f = ⟨some name, some blobid, none, 0, false, []⟩ ∨
        r ≠ s.fs.brk ∧ s.fs.files r = some f := by
    intro r f hf
    by_cases hr : r = s.fs.brk
    · subst hr
      exact Or.inl ⟨rfl, (Option.some.inj ((Filesystem.setFile_files_self ..).symm.trans hf)).symm⟩
    · refine Or.inr ⟨hr, ?_⟩
      rw [← hf]
      exact ((Filesystem.setFile_files_ne _ hr).trans (Filesystem.fileAlloc_files_ne hr)).symm
  refine ⟨h.pending, h.handles, fun r f hf => ?_, fun r f hf => ?_, fun name' r hname => ?_⟩
  · rcases hfile r f hf with ⟨-, rfl⟩ | ⟨-, hold⟩
    · exact ⟨rfl, rfl, rfl, rfl⟩
    · exact h.closed r f hold
  · rcases hfile r f hf with ⟨rfl, rfl⟩ | ⟨-, hold⟩
    · exact ⟨nofun, Nat.lt_succ_self _⟩
    · obtain ⟨hset, hlt⟩ := h.named r f hold
      exact ⟨hset, Nat.lt_succ_of_lt hlt⟩
  · have hold : ∀ r, s.fs.names name' = some r → ∃ f,
        (s.setLoaded name blobid length).fs.files r = some f ∧ f.name = some name' := by
      intro r hr
      obtain ⟨f, hf, hfname⟩ := h.tree name' r hr
      have hne : r ≠ s.fs.brk := Nat.ne_of_lt (h.named r f hf).2
      refine ⟨f, ?_, hfname⟩
      exact (Filesystem.setFile_files_ne _ hne).trans ((Filesystem.fileAlloc_files_ne hne).trans hf)
    change BplusTree.insertName s.fs.names name s.fs.brk name' = some r at hname
    by_cases hn : name' = name
    · subst hn
      rw [BplusTree.insertName_self] at hname
      cases hold' : s.fs.names name' with
      | some r' =>
          rw [hold', Option.getD_some, Option.some.injEq] at hname
          exact hold r (hname ▸ hold')
      | none =>
          rw [hold', Option.getD_none, Option.some.injEq] at hname
          subst hname
          exact ⟨_, Filesystem.setFile_files_self .., rfl⟩
    · rw [BplusTree.insertName_of_ne _ hn] at hname
      exact hold r hname

theorem Initial.iterCb {s s' : Load} {blob : FoundBlob} {t : LoadTrace} (h : Initial s.fs)
    (hiter : Free (iterCb s blob) t (some s')) : Initial s'.fs := by
  have hfailed : ∀ {rc : Int} {t : LoadTrace}, Free (iterFailed s rc) t (some s') →
      Initial s'.fs := by
    intro rc t hiter
    obtain ⟨hsame, -⟩ := iterFailed_ends hiter
    exact Option.some.inj hsame ▸ h
  unfold Fs.iterCb at hiter
  split at hiter
  · exact hfailed hiter
  split at hiter
  · exact hfailed hiter
  · exact hfailed hiter
  split at hiter
  · cases (Free.undefined_iff.mp hiter).2
  split at hiter
  · obtain ⟨deletedFile, t₁, rfl, hrest⟩ := Free.request_iff.mp hiter
    split at hrest
    · exact hfailed hrest
    · obtain ⟨-, hsame⟩ := Free.ret_iff.mp hrest
      exact Option.some.inj hsame ▸ h
  · obtain ⟨f, t₁, rfl, hrest⟩ := Free.request_iff.mp hiter
    split at hrest
    · exact hfailed hrest
    · obtain ⟨-, hsame⟩ := Free.ret_iff.mp hrest
      exact Option.some.inj hsame ▸ h.setLoaded ..

theorem Initial.iter {found : List FoundBlob} {s s' : Load} {t : LoadTrace} (h : Initial s.fs)
    (hiter : Free (found.foldlM Fs.iterCb s) t (some s')) : Initial s'.fs := by
  induction found generalizing s t with
  | nil =>
      obtain ⟨-, hsame⟩ := Free.ret_iff.mp hiter
      exact Option.some.inj hsame ▸ h
  | cons blob found ih =>
      rw [List.foldlM_cons] at hiter
      rcases Free.bind_iff.mp hiter with ⟨s₁, t₁, t₂, rfl, hfirst, hrest⟩ | ⟨-, hnone⟩
      · exact ih (h.iterCb hfirst) hrest
      · cases hnone

/-- A loaded filesystem is one that runs may start from. -/
theorem initial_of_load {t : LoadTrace} {s : Load}
    (h : Free spdkFsLoad t (some (some s))) : Initial s.fs := by
  obtain ⟨fs, t₁, rfl, h₁⟩ := Free.request_iff.mp h
  split at h₁
  · obtain ⟨x, t₂, rfl, h₂⟩ := Free.request_iff.mp h₁
    cases (Free.ret_iff.mp h₂).2
  obtain ⟨req, t₂, rfl, h₂⟩ := Free.request_iff.mp h₁
  split at h₂
  · obtain ⟨x, t₃, rfl, h₃⟩ := Free.request_iff.mp h₂
    obtain ⟨y, t₄, rfl, h₄⟩ := Free.request_iff.mp h₃
    cases (Free.ret_iff.mp h₄).2
  obtain ⟨bs, t₃, rfl, h₃⟩ := Free.request_iff.mp h₂
  rcases Free.bind_iff.mp h₃ with ⟨s', t₄, t₅, rfl, hiter, h₄⟩ | ⟨-, hnone⟩
  · rcases Free.bind_iff.mp h₄ with ⟨_, t₆, t₇, rfl, -, h₅⟩ | ⟨-, hnone⟩
    · obtain ⟨-, hsame⟩ := Free.ret_iff.mp h₅
      have hempty : Initial fsAlloc.fs := ⟨rfl, rfl, nofun, nofun, nofun⟩
      have hiterated := hempty.iter hiter
      rwa [← Option.some.inj (Option.some.inj hsame)] at hiterated
    · cases hnone
  · cases hnone

end Nbfs.Fs
