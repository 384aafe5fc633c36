import Nbfs.Fs.Stored

set_option autoImplicit false

/-!
# The device over whole runs

Each completion moves its file or blob one step further: a creation to its xattrs, a rename
to the device, a deletion to its end.
-/

namespace Nbfs.Fs

open Nbfs.Lib

namespace Stored

variable {s s' : Filesystem} {md md' : Metadata} {created deleted : List FileRef} {n i : Nat}
  {r : FileRef} {fn : FileOp} {cb : CallRef} {mem : Memory} {name : CString} {op : BsOp}
  {id : BlobId} {h : BlobRef} {answer : Answer}

/-- Between two steps nothing is left to be marked. -/
theorem rest (hs : Stored s md created deleted n) :
    Stored s md created deleted s.pending.length :=
  { hs with sent := by simp }

/-! ### Metadata -/

/-- One xattr is set that may be. -/
theorem marks_step (hs : Stored s md created deleted n) {set : Bool}
    (hmarks : op.Marks s md deleted) (hstep : op.marks set md = .ok md') :
    Stored s md' created deleted n ∧ md'.handle = md.handle := by
  cases op with
  | syncDeleted b fn =>
      simp only [BsOp.marks] at hstep
      split at hstep
      · obtain ⟨id, x, hid, hx, hx', hother, hhandle⟩ := Metadata.setXattr_ok hstep
        obtain ⟨id', hid', hall⟩ := hmarks
        obtain rfl := Option.some.inj (hid.symm.trans hid')
        refine ⟨hs.calm hs.keyed ⟨rfl, rfl, rfl, fun _ hr => hr,
          fun _ f hf => ⟨f, hf, rfl, rfl, Or.inl, fun _ hb => Or.inl hb⟩,
          fun _ f hf => ⟨f, hf, rfl, rfl⟩, fun _ _ hh => hhandle ▸ hh, fun id' => ?_⟩, hhandle⟩
        by_cases heq : id' = id
        · subst heq
          exact Or.inr ⟨x, _, hx, hx', rfl, Or.inl rfl, fun _ => Or.inr hall⟩
        · exact Or.inl (hother id' heq)
      · obtain rfl := Except.ok.inj hstep
        exact ⟨hs, rfl⟩
  | _ =>
      obtain rfl := Except.ok.inj hstep
      exact ⟨hs, rfl⟩

/-- All that a step has to mark. -/
theorem marks_all {set : Bool} {ops : List BsOp} (hs : Stored s md created deleted n)
    (hmarks : ∀ op ∈ ops, op.Marks s md deleted)
    (hstep : ops.foldlM (BsOp.marks set) md = .ok md') : Stored s md' created deleted n := by
  induction ops generalizing md with
  | nil =>
      obtain rfl := Except.ok.inj hstep
      exact hs
  | cons op ops ih =>
      rw [List.foldlM_cons] at hstep
      obtain ⟨md₁, hfirst, hrest⟩ := bind_ok.mp hstep
      obtain ⟨hs₁, hhandle⟩ := hs.marks_step (hmarks op List.mem_cons_self) hfirst
      refine ih hs₁ (fun op' hop' => ?_) hrest
      exact Marks.mono (hmarks op' (List.mem_cons_of_mem _ hop')) (fun _ f _ hf hid => ⟨f, hf, hid⟩)
        (fun _ _ hh => hhandle ▸ hh) fun _ hr => hr

/-- The length of a file is set. -/
theorem setLength (hs : Stored s md created deleted n) {length : UInt64}
    (hset : md.setXattr h (fun x => { x with length := some (length, 8) }) = .ok md') :
    Stored s md' created deleted n := by
  obtain ⟨id, x, hid, hx, hx', hother, hhandle⟩ := Metadata.setXattr_ok hset
  refine hs.calm hs.keyed ⟨rfl, rfl, rfl, fun _ hr => hr,
    fun _ f hf => ⟨f, hf, rfl, rfl, Or.inl, fun _ hb => Or.inl hb⟩,
    fun _ f hf => ⟨f, hf, rfl, rfl⟩, fun _ _ hh => hhandle ▸ hh, fun id' => ?_⟩
  by_cases heq : id' = id
  · subst heq
    exact Or.inr ⟨x, _, hx, hx', rfl, Or.inr ⟨length, rfl⟩, Or.inl⟩
  · exact Or.inl (hother id' heq)

/-- What an open of a blob that succeeds brings. -/
theorem opens_ok {blobid : Option BlobId} (hopens : md.opens blobid answer = true) :
    answer.bserrno = 0 ∧ (∃ id h, blobid = some id ∧ answer.blob = some h ∧ md.xattrs id ≠ none ∧
        ∀ id', md.handle h = some id' → id' = id) ∨
      answer.bserrno ≠ 0 ∧ answer.blob = none := by
  unfold Metadata.opens at hopens
  split at hopens
  · rename_i hzero
    obtain ⟨id, hid, hopens⟩ := (Option.any_eq_true _ _).mp hopens
    obtain ⟨hthere, hblob⟩ := Bool.and_eq_true_iff.mp hopens
    obtain ⟨h, hh, hhandle⟩ := (Option.any_eq_true _ _).mp hblob
    refine Or.inl ⟨hzero, id, h, hid, hh, Option.isSome_iff_ne_none.mp hthere, fun id' hid' => ?_⟩
    rw [hid'] at hhandle
    simpa using hhandle
  · rename_i hne
    exact Or.inr ⟨hne, Option.isNone_iff_eq_none.mp hopens⟩

/-- A blob is opened. -/
theorem openBlob (hs : Stored s md created deleted n) (hthere : md.xattrs id ≠ none)
    (hhandle : ∀ id', md.handle h = some id' → id' = id) :
    Stored s (md.openBlob id h) created deleted n := by
  refine hs.metadata (fun _ => Metadata.xattrs_openBlob hthere) fun h' id' hh' => ?_
  change Function.update md.handle h (some id) h' = some id'
  by_cases heq : h' = h
  · subst heq
    rw [Function.update_self, hhandle id' hh']
  · rw [Function.update_of_ne heq, hh']

theorem closeBlob (hs : Stored s md created deleted n) :
    Stored s (md.closeBlob h) created deleted n :=
  hs.metadata (fun _ => Metadata.xattrs_closeBlob) fun _ _ hh => by
    rw [Metadata.handle_closeBlob, hh]

theorem syncMd (hs : Stored s md created deleted n) : Stored s (md.syncMd h) created deleted n :=
  hs.metadata (fun _ => Metadata.xattrs_syncMd) fun _ _ hh => by
    rw [Metadata.handle_syncMd, hh]

/-! ### Calls -/

theorem spdkFsOpenFileAsync (hs : Stored s md created deleted n) {create : Bool}
    (hopen : s.spdkFsOpenFileAsync name create cb mem = .ok s') :
    Stored s' md created deleted n := by
  rcases Filesystem.spdkFsOpenFileAsync_ok hopen with ⟨_, rfl⟩ | ⟨-, hcreate⟩ | ⟨r, -, hfound⟩
  · exact hs.congr rfl rfl rfl rfl
  · exact hs.spdkFsCreateFileAsync rfl hcreate
  · exact hs.fsOpenBlobCreateCb hfound

theorem spdkFileCloseAsync (hs : Stored s md created deleted n)
    (hclose : s.spdkFileCloseAsync r cb mem = .ok s') : Stored s' md created deleted n := by
  obtain ⟨f, -, hclose⟩ := bind_ok.mp hclose
  split at hclose
  · obtain rfl := Except.ok.inj hclose
    exact hs.congr rfl rfl rfl rfl
  · obtain rfl := Except.ok.inj hclose
    have hreleased : Stored { s with handles := s.handles.erase r } md created deleted n :=
      hs.congr rfl rfl rfl rfl
    exact hreleased.send ⟨fun _ => rfl, fun _ => rfl, fun _ => rfl⟩ trivial trivial

theorem spdkFsRenameFileAsync (hs : Stored s md created deleted n) {oldName newName : CString}
    {deleteMem : Memory}
    (hkeeps : deleteMem.request = true ∨ s.names newName = none ∨ s.names oldName = none)
    (hdeleted : ∀ r, s.names newName = some r → ¬ spdkFileNameMax < newName.strlen →
      mem.request = true → deleteMem.request = true → r ∈ deleted)
    (hrename : s.spdkFsRenameFileAsync oldName newName cb mem deleteMem = .ok s') :
    Stored s' md created deleted n := by
  unfold Filesystem.spdkFsRenameFileAsync at hrename
  split at hrename
  · obtain rfl := Except.ok.inj hrename
    exact hs.congr rfl rfl rfl rfl
  rename_i hshort
  split at hrename
  · obtain rfl := Except.ok.inj hrename
    exact hs.congr rfl rfl rfl rfl
  rename_i hrequest
  split at hrename
  · rename_i hnew
    exact hs.fsMdRenameFile (Or.inr hnew) hrename
  · rename_i r hnew
    refine hs.spdkFsDeleteFileAsync (fun old new cb' heq => ?_) (fun r' hr' hshort' hmem => ?_)
      hrename
    · cases heq
      rcases hkeeps with hmem | hnone | hnone
      · exact Or.inl ⟨hshort, by simp [hnew], hmem⟩
      · exact Or.inr (Or.inr hnone)
      · exact Or.inr (Or.inl hnone)
    · exact hdeleted r' hr' hshort' (by simpa using hrequest) hmem

/-- What the call asks to delete counts as deleted. -/
theorem call (hs : Stored s md created deleted n) {request : Request}
    (hno : ∀ i answer mem, request ≠ .event (.complete i answer mem))
    (hkeeps : ∀ oldName newName cb mem deleteMem,
      request = .rename oldName newName cb mem deleteMem →
        deleteMem.request = true ∨ s.names newName = none ∨ s.names oldName = none)
    (hcall : request.run s = .ok s') :
    Stored s' md created (request.deletes s ++ deleted) n := by
  have hmore := hs.delete (request.deletes s)
  cases request with
  | event e =>
      cases e with
      | create name cb mem => exact hmore.spdkFsCreateFileAsync rfl hcall
      | «open» name create cb mem => exact hmore.spdkFsOpenFileAsync hcall
      | delete name cb mem =>
          refine hmore.spdkFsDeleteFileAsync (fun _ _ _ heq => by cases heq)
            (fun r hr hshort hrequest => ?_) hcall
          refine List.mem_append_left _ ?_
          simp [Request.deletes, hshort, hrequest, hr]
      | close r cb mem =>
          simp only [Request.run, Fs.step] at hcall
          split at hcall
          · exact hmore.spdkFileCloseAsync hcall
          · cases hcall
      | complete i answer mem => exact absurd rfl (hno i answer mem)
  | rename oldName newName cb mem deleteMem =>
      refine hmore.spdkFsRenameFileAsync (hkeeps _ _ _ _ _ rfl)
        (fun r hr hshort hrequest hdelete => ?_) hcall
      refine List.mem_append_left _ ?_
      simp [Request.deletes, hshort, hrequest, hdelete, hr]

/-! ### What is taken from what waits -/

section taken

variable (hop : s.pending[i]? = some op)

include hop

theorem building_take (r : FileRef) : s.building r =
    Filesystem.building { s with pending := s.pending.eraseIdx i } r +
      if op.builds r then 1 else 0 :=
  countP_taken (BsOp.builds r) hop

theorem killing_take (id : BlobId) : s.killing id =
    Filesystem.killing { s with pending := s.pending.eraseIdx i } id +
      if op.kills id then 1 else 0 :=
  countP_taken (BsOp.kills id) hop

theorem newNames_take (hnone : op.renames id = none) :
    Filesystem.newNames { s with pending := s.pending.eraseIdx i } id = s.newNames id :=
  filterMap_taken hop hnone

/-- The first of the names that the blob is to get. -/
theorem newNames_take_first {newName : CString} (hname : op.renames id = some newName)
    (hfirst : ∀ op' ∈ s.pending.take i, op'.renames id = none) :
    s.newNames id =
      newName :: Filesystem.newNames { s with pending := s.pending.eraseIdx i } id := by
  obtain ⟨hi, rfl⟩ := List.getElem?_eq_some_iff.mp hop
  have hbefore : (s.pending.take i).filterMap (BsOp.renames id) = [] :=
    List.filterMap_eq_nil_iff.mpr hfirst
  have hall : s.newNames id = (s.pending.take i ++ s.pending[i] :: s.pending.drop (i + 1)).filterMap
      (BsOp.renames id) := by
    rw [← List.drop_eq_getElem_cons hi, List.take_append_drop]
    rfl
  rw [hall, Filesystem.newNames, List.eraseIdx_eq_take_drop_succ, List.filterMap_append,
    List.filterMap_append, hbefore, List.filterMap_cons_some hname]
  rfl

end taken

theorem builds_unique {r' : FileRef} (hr : op.builds r = true) (hr' : op.builds r' = true) :
    r' = r := by
  cases op with
  | createBlob r'' fn => exact (of_decide_eq_true hr').symm.trans (of_decide_eq_true hr)
  | createOpen r'' id fn => exact (of_decide_eq_true hr').symm.trans (of_decide_eq_true hr)
  | createResize r'' blob fn => exact (of_decide_eq_true hr').symm.trans (of_decide_eq_true hr)
  | _ => cases hr

/-- What waits still fits, when less of it waits. -/
theorem fits_take (hs : Stored s md created deleted n) :
    ∀ op ∈ s.pending.eraseIdx i,
      op.Fits { s with pending := s.pending.eraseIdx i } md := by
  intro op hop
  refine Fits.mono (hs.fits op (mem_of_taken hop)) (Nat.le_refl _)
    (fun _ f _ hf => ⟨f, hf, id, rfl⟩) (fun r f id hr hf _ => ?_) (fun _ _ hh => hh) fun _ hh => hh
  cases hf.symm.trans (hs.keyed.unborn r hr)

/-- A creation ends, or gives up without a blob. -/
theorem take_builds (hs : Stored s md created deleted n) (hop : s.pending[i]? = some op)
    (hbuilds : op.builds r = true) (hkills : ∀ id, op.kills id = false)
    (hnames : ∀ id, op.renames id = none)
    (hstored : ∀ f id, s.files r = some f → f.blobid = some id →
      ∃ x, md.xattrs id = some x ∧ x.Of (s.newNames id) f.name) :
    Stored { s with pending := s.pending.eraseIdx i } md created deleted
      (s.pending.eraseIdx i).length where
  keyed := hs.keyed.congr rfl rfl rfl
  named := hs.named
  handles := hs.handles
  there := hs.there
  apart := hs.apart
  fits := hs.fits_take
  builds r' := (Nat.le_add_right _ _).trans ((building_take hop r').symm.trans_le (hs.builds r'))
  kills id := (Nat.le_add_right _ _).trans ((killing_take hop id).symm.trans_le (hs.kills id))
  owned id hid := by
    refine (hs.owned id hid).imp_right fun hpos => ?_
    rw [killing_take hop, hkills id] at hpos
    exact hpos
  renamed r' f id n hf hid hlast := by
    rw [newNames_take hop (hnames id)] at hlast
    exact hs.renamed r' f id n hf hid hlast
  stored r' f id hf hid hbuilt := by
    rw [newNames_take hop (hnames id)]
    by_cases hr : op.builds r' = true
    · obtain rfl := builds_unique hbuilds hr
      exact hstored f id hf hid
    · refine hs.stored r' f id hf hid ?_
      rw [building_take hop, if_neg hr, hbuilt]
  marked := hs.marked
  marks := hs.marks
  created r' hr' hnot := by
    obtain ⟨hbuilt, hfile⟩ := hs.created r' hr' hnot
    rw [building_take hop] at hbuilt
    exact ⟨(Nat.add_eq_zero_iff.mp hbuilt).1, hfile⟩
  sent := by simp

/-- The next part of a creation takes the place of the one before. -/
theorem createOpen_done (hs : Stored s md created deleted n)
    (hop : s.pending[i]? = some (.createOpen r id fn)) (hh : md.handle h = some id) :
    Stored (Filesystem.send { s with pending := s.pending.eraseIdx i }
      (.createResize r (some h) fn)) md created deleted (s.pending.eraseIdx i).length := by
  obtain ⟨hfn, hr, hfile⟩ := hs.fits _ (mem_taken hop)
  refine hs.repend (p := s.pending.eraseIdx i ++ [.createResize r (some h) fn])
    (fun op' hop' => ?_) (fun r' => ?_) (fun id' => ?_) (fun id' => ?_) fun op' hop' => ?_
  · rcases List.mem_append.mp hop' with hold | hnew
    · exact hs.fits op' (mem_of_taken hold)
    · obtain rfl := List.mem_singleton.mp hnew
      exact ⟨hfn, hr, h, id, rfl, hh, hfile⟩
  · rw [building_take hop, List.countP_append, List.countP_singleton]
    rfl
  · rw [killing_take hop, List.countP_append, List.countP_singleton]
    rfl
  · rw [List.filterMap_append]
    exact (List.append_nil _).trans (newNames_take hop rfl)
  · rw [List.drop_left] at hop'
    obtain rfl := List.mem_singleton.mp hop'
    trivial

/-- A file gets its blob, which is new. -/
theorem createBlob_done (hs : Stored s md created deleted n)
    (hop : s.pending[i]? = some (.createBlob r fn)) {f : SpdkFile} (hf : s.files r = some f)
    (hnew : md.xattrs id = none)
    (hwaits : ∀ op ∈ s.pending.eraseIdx i, op.renames id = none) :
    Stored ((Filesystem.setFile { s with pending := s.pending.eraseIdx i } r
      { f with blobid := some id }).send (.createOpen r id fn)) (md.createBlob id) created deleted
        (s.pending.eraseIdx i).length := by
  obtain ⟨hfn, hr, hfile⟩ := hs.fits _ (mem_taken hop)
  obtain ⟨hblobid, hname⟩ := hfile f hf
  have hself := Metadata.xattrs_createBlob_self hnew
  have hxattrs : ∀ id' x, md.xattrs id' = some x → (md.createBlob id).xattrs id' = some x := by
    intro id' x hx
    have hne : id' ≠ id := by
      rintro rfl
      cases hnew.symm.trans hx
    exact (Metadata.xattrs_createBlob_ne hne).trans hx
  have hfiles : ∀ r' f', (s.setFile r { f with blobid := some id }).files r' = some f' →
      r' = r ∧ f' = { f with blobid := some id } ∨ r' ≠ r ∧ s.files r' = some f' := by
    intro r' f' hf'
    by_cases hr : r' = r
    · subst hr
      rw [Filesystem.setFile_files_self, Option.some.injEq] at hf'
      exact Or.inl ⟨rfl, hf'.symm⟩
    · rw [Filesystem.setFile_files_ne _ hr] at hf'
      exact Or.inr ⟨hr, hf'⟩
  have hother : ∀ r' f', s.files r' = some f' → f'.blobid ≠ none → r' ≠ r := by
    rintro r' f' hf' hset rfl
    obtain rfl := Option.some.inj (hf.symm.trans hf')
    exact hset hblobid
  have hkept : ∀ r' f', s.files r' = some f' → f'.blobid ≠ none →
      (s.setFile r { f with blobid := some id }).files r' = some f' := fun r' f' hf' hset =>
    (Filesystem.setFile_files_ne _ (hother r' f' hf' hset)).trans hf'
  have hfresh : ∀ r' f' id', s.files r' = some f' → f'.blobid = some id' → id' ≠ id := by
    rintro r' f' id' hf' hid rfl
    exact hs.there r' f' id' hf' hid hnew
  have hbuilding : ∀ r', Filesystem.building ((Filesystem.setFile
      { s with pending := s.pending.eraseIdx i } r { f with blobid := some id }).send
        (.createOpen r id fn)) r' = s.building r' := fun r' =>
    (Filesystem.building_send r').trans (building_take hop r').symm
  have hkilling : ∀ id', Filesystem.killing ((Filesystem.setFile
      { s with pending := s.pending.eraseIdx i } r { f with blobid := some id }).send
        (.createOpen r id fn)) id' = s.killing id' := fun id' =>
    (Filesystem.killing_send id').trans (killing_take hop id').symm
  have hnames : ∀ id', Filesystem.newNames ((Filesystem.setFile
      { s with pending := s.pending.eraseIdx i } r { f with blobid := some id }).send
        (.createOpen r id fn)) id' = s.newNames id' := fun id' => by
    rw [Filesystem.newNames_send]
    exact (List.append_nil _).trans (newNames_take hop rfl)
  have hbuilt : s.building r ≠ 0 := by
    rw [building_take hop]
    simp [BsOp.builds]
  have hfits : ∀ op ∈ s.pending.eraseIdx i, op.Fits ((Filesystem.setFile
      { s with pending := s.pending.eraseIdx i } r { f with blobid := some id }).send
        (.createOpen r id fn)) (md.createBlob id) := by
    intro op hold
    -- No other part of the file's creation waits.
    have hnot : op.builds r = false := by
      have hcount := building_take hop r
      have hle := hs.builds r
      simp only [BsOp.builds, decide_true, if_true] at hcount
      have hzero : (s.pending.eraseIdx i).countP (BsOp.builds r) = 0 := by
        change s.building r = (s.pending.eraseIdx i).countP (BsOp.builds r) + 1 at hcount
        omega
      simpa using List.countP_eq_zero.mp hzero op hold
    have hfit := hs.fits op (mem_of_taken hold)
    have hsame : ∀ r' f', r' ≠ r →
        (s.setFile r { f with blobid := some id }).files r' = some f' → s.files r' = some f' :=
      fun r' f' hr hf' => (Filesystem.setFile_files_ne _ hr).symm.trans hf'
    cases op with
    | createBlob r' fn' =>
        have hne : r' ≠ r := of_decide_eq_false hnot
        exact ⟨hfit.1, hfit.2.1, fun f' hf' => hfit.2.2 f' (hsame r' f' hne hf')⟩
    | createOpen r' id' fn' =>
        have hne : r' ≠ r := of_decide_eq_false hnot
        exact ⟨hfit.1, hfit.2.1, fun f' hf' => hfit.2.2 f' (hsame r' f' hne hf')⟩
    | createResize r' blob fn' =>
        have hne : r' ≠ r := of_decide_eq_false hnot
        obtain ⟨hfn', hr', h', id', hblob, hid, hfile'⟩ := hfit
        exact ⟨hfn', hr', h', id', hblob, hid, fun f' hf' => hfile' f' (hsame r' f' hne hf')⟩
    | createClose blob rc fn' => exact hfit
    | openBlob r' blobid =>
        cases blobid with
        | none => trivial
        | some id' =>
            have hne : r' ≠ r := by
              rintro rfl
              cases hblobid.symm.trans (hfit.2 f hf)
            exact ⟨hfit.1, fun f' hf' => hfit.2 f' (hsame r' f' hne hf')⟩
    | deleteBlob blobid fn' =>
        cases blobid with
        | none => trivial
        | some id' =>
            obtain ⟨x, hx⟩ := Option.ne_none_iff_exists'.mp hfit.1
            refine ⟨by simp [hxattrs id' x hx], fun r' f' hf' => ?_⟩
            rcases hfiles r' f' hf' with ⟨-, rfl⟩ | ⟨-, hold'⟩
            · intro hid
              obtain rfl := Option.some.inj hid
              exact hfit.1 hnew
            · exact hfit.2 r' f' hold'
    | _ => trivial
  have hkeyed : Keyed (s.setFile r { f with blobid := some id }) := hs.keyed.setFile hf rfl
  refine
    { keyed := hkeyed.congr rfl rfl rfl
      named := fun r' f' hf' => ?_
      handles := fun r' f' b hf' hb => ?_
      there := fun r' f' id' hf' hid => ?_
      apart := fun r₁ r₂ f₁ f₂ id' hf₁ hf₂ hid₁ hid₂ => ?_
      fits := fun op hop' => ?_
      builds := fun r' => (hbuilding r').trans_le (hs.builds r')
      kills := fun id' => (hkilling id').trans_le (hs.kills id')
      owned := fun id' hid => ?_
      renamed := fun r' f' id' n hf' hid hlast => ?_
      stored := fun r' f' id' hf' hid hnone => ?_
      marked := fun r' f' hf' hdeleted => ?_
      marks := fun r' f' id' x hf' hid hx hdeleted => ?_
      created := fun r' hr' hnot => ?_
      sent := fun op hop' => ?_ }
  · rcases hfiles r' f' hf' with ⟨rfl, rfl⟩ | ⟨-, hold⟩
    · exact ⟨(hs.named r' f hf).1, fun _ => hname⟩
    · exact hs.named r' f' hold
  · rcases hfiles r' f' hf' with ⟨rfl, rfl⟩ | ⟨-, hold⟩
    · exact absurd hblobid (hs.handles r' f b hf hb).1
    · exact hs.handles r' f' b hold hb
  · rcases hfiles r' f' hf' with ⟨rfl, rfl⟩ | ⟨-, hold⟩
    · obtain rfl := Option.some.inj hid
      rw [hself]
      simp
    · obtain ⟨x, hx⟩ := Option.ne_none_iff_exists'.mp (hs.there r' f' id' hold hid)
      rw [hxattrs id' x hx]
      simp
  · rcases hfiles r₁ f₁ hf₁ with ⟨rfl, rfl⟩ | ⟨-, hold₁⟩
    · obtain rfl := Option.some.inj hid₁
      rcases hfiles r₂ f₂ hf₂ with ⟨rfl, -⟩ | ⟨-, hold₂⟩
      · rfl
      · exact absurd rfl (hfresh r₂ f₂ id hold₂ hid₂)
    · rcases hfiles r₂ f₂ hf₂ with ⟨rfl, rfl⟩ | ⟨-, hold₂⟩
      · obtain rfl := Option.some.inj hid₂
        exact absurd rfl (hfresh r₁ f₁ id hold₁ hid₁)
      · exact hs.apart r₁ r₂ f₁ f₂ id' hold₁ hold₂ hid₁ hid₂
  · rcases List.mem_append.mp hop' with hold | hnew'
    · exact hfits op hold
    · obtain rfl := List.mem_singleton.mp hnew'
      refine ⟨hfn, hr, fun f' hf' => ?_⟩
      obtain rfl := Option.some.inj ((Filesystem.setFile_files_self ..).symm.trans hf')
      rfl
  · rw [hkilling]
    by_cases heq : id' = id
    · subst heq
      exact Or.inl ⟨r, _, Filesystem.setFile_files_self .., rfl⟩
    · rw [Metadata.xattrs_createBlob_ne heq] at hid
      refine (hs.owned id' hid).imp_left ?_
      rintro ⟨r', f', hf', hid'⟩
      exact ⟨r', f', hkept r' f' hf' (by simp [hid']), hid'⟩
  · rw [hnames] at hlast
    rcases hfiles r' f' hf' with ⟨rfl, rfl⟩ | ⟨-, hold⟩
    · obtain rfl := Option.some.inj hid
      rw [← newNames_take hop rfl, Filesystem.newNames,
        List.filterMap_eq_nil_iff.mpr hwaits] at hlast
      cases hlast
    · exact hs.renamed r' f' id' n hold hid hlast
  · rw [hbuilding] at hnone
    rw [hnames]
    rcases hfiles r' f' hf' with ⟨rfl, rfl⟩ | ⟨-, hold⟩
    · exact absurd hnone hbuilt
    · obtain ⟨x, hx, hof⟩ := hs.stored r' f' id' hold hid hnone
      exact ⟨x, hxattrs id' x hx, hof⟩
  · rcases hfiles r' f' hf' with ⟨rfl, rfl⟩ | ⟨-, hold⟩
    · exact hs.marked r' f hf hdeleted
    · exact hs.marked r' f' hold hdeleted
  · rcases hfiles r' f' hf' with ⟨rfl, rfl⟩ | ⟨-, hold⟩
    · obtain rfl := Option.some.inj hid
      obtain rfl := Option.some.inj (hself.symm.trans hx)
      cases hdeleted
    · rw [Metadata.xattrs_createBlob_ne (hfresh r' f' id' hold hid)] at hx
      exact hs.marks r' f' id' x hold hid hx hdeleted
  · rw [hbuilding]
    obtain ⟨hnone, f', hf', hset⟩ := hs.created r' hr' hnot
    exact ⟨hnone, f', hkept r' f' hf' hset, hset⟩
  · change op ∈ (s.pending.eraseIdx i ++ [BsOp.createOpen r id fn]).drop _ at hop'
    rw [List.drop_left] at hop'
    obtain rfl := List.mem_singleton.mp hop'
    trivial

/-- The file's xattrs are set, before its creation ends. -/
theorem setXattrs (hs : Stored s md created deleted n)
    (hop : s.pending[i]? = some (.createResize r (some h) fn)) {f : SpdkFile}
    (hf : s.files r = some f)
    (hset : md.setXattr h (fun x => { x with name := f.name, length := some (0, 8) }) = .ok md') :
    ∃ id, f.blobid = some id ∧ Stored s md' created deleted n ∧
      ∃ x, md'.xattrs id = some x ∧ x.Of (s.newNames id) f.name := by
  obtain ⟨-, -, h', id', hh', hid', hfile⟩ := hs.fits _ (mem_taken hop)
  obtain rfl := Option.some.inj hh'
  obtain ⟨_, x, hsame, hx, hx', hother, hhandle⟩ := Metadata.setXattr_ok hset
  obtain rfl := Option.some.inj (hid'.symm.trans hsame)
  have hblobid := hfile f hf
  have hbuilt : s.building r ≠ 0 := by
    rw [building_take hop]
    simp [BsOp.builds]
  have hnone : ∀ id, md'.xattrs id ≠ none ↔ md.xattrs id ≠ none := by
    intro id
    by_cases heq : id = id'
    · subst heq
      simp [hx, hx']
    · rw [hother id heq]
  have hne : ∀ r' f' id, s.files r' = some f' → f'.blobid = some id → r' ≠ r → id ≠ id' := by
    rintro r' f' id hf' hid hr rfl
    exact hr (hs.apart r' r f' f id hf' hf hid hblobid)
  refine ⟨id', hblobid, ?_, _, hx', ⟨0, rfl⟩, fun _ => rfl⟩
  refine
    { keyed := hs.keyed
      named := hs.named
      handles := fun r' f' b hf' hb => ?_
      there := fun r' f' id hf' hid => (hnone id).mpr (hs.there r' f' id hf' hid)
      apart := hs.apart
      fits := fun op hop' => ?_
      builds := hs.builds
      kills := hs.kills
      owned := fun id hid => hs.owned id ((hnone id).mp hid)
      renamed := hs.renamed
      stored := fun r' f' id hf' hid hzero => ?_
      marked := hs.marked
      marks := fun r' f' id y hf' hid hy hdeleted => ?_
      created := hs.created
      sent := fun op hop' => Marks.mono (hs.sent op hop') (fun _ f _ hf hid => ⟨f, hf, hid⟩)
        (fun _ _ hh => hhandle ▸ hh) fun _ hr => hr }
  · rw [hhandle]
    exact hs.handles r' f' b hf' hb
  · refine Fits.mono (hs.fits op hop') (Nat.le_refl _) (fun _ f _ hf => ⟨f, hf, id, rfl⟩)
      (fun r f id hr hf _ => ?_) (fun _ _ hh => hhandle ▸ hh) fun id => (hnone id).mpr
    cases hf.symm.trans (hs.keyed.unborn r hr)
  · have hr : r' ≠ r := by
      rintro rfl
      exact hbuilt hzero
    obtain ⟨y, hy, hof⟩ := hs.stored r' f' id hf' hid hzero
    exact ⟨y, (hother id (hne r' f' id hf' hid hr)).trans hy, hof⟩
  · by_cases heq : id = id'
    · subst heq
      obtain rfl := Option.some.inj (hx'.symm.trans hy)
      exact hs.marks r' f' id x hf' hid hx hdeleted
    · exact hs.marks r' f' id y hf' hid ((hother id heq).symm.trans hy) hdeleted

/-- A file that has its xattrs is created. -/
theorem create (hs : Stored s md created deleted n) {f : SpdkFile} (hf : s.files r = some f)
    (hblobid : f.blobid ≠ none) (hbuilt : s.building r = 0) :
    Stored s md (r :: created) deleted n :=
  { hs with
    created := fun r' hr' hnot => by
      rcases List.mem_cons.mp hr' with rfl | hr'
      · exact ⟨hbuilt, f, hf, hblobid⟩
      · exact hs.created r' hr' hnot }

/-- A blob is deleted, after its file was freed. -/
theorem deleteBlob_done (hs : Stored s md created deleted n)
    (hop : s.pending[i]? = some (.deleteBlob (some id) fn)) (hclosed : md.refs id = 0) :
    Stored { s with pending := s.pending.eraseIdx i } (md.deleteBlob id) created deleted
      (s.pending.eraseIdx i).length := by
  obtain ⟨-, hnofile⟩ := hs.fits _ (mem_taken hop)
  have hother : ∀ id', id' ≠ id → (md.deleteBlob id).xattrs id' = md.xattrs id' := fun id' hne =>
    Metadata.xattrs_deleteBlob_ne hne
  have hne : ∀ r f id', s.files r = some f → f.blobid = some id' → id' ≠ id := by
    rintro r f id' hf hid rfl
    exact hnofile r f hf hid
  have hkills : ∀ id', id' ≠ id → s.killing id' =
      Filesystem.killing { s with pending := s.pending.eraseIdx i } id' := by
    intro id' hne'
    rw [killing_take hop]
    simp [BsOp.kills, hne'.symm]
  have hlast : ∀ op ∈ s.pending.eraseIdx i, op.kills id = false := by
    intro op hold
    have hcount := killing_take hop id
    have hle := hs.kills id
    simp only [BsOp.kills, decide_true, if_true] at hcount
    have hzero : (s.pending.eraseIdx i).countP (BsOp.kills id) = 0 := by
      change s.killing id = (s.pending.eraseIdx i).countP (BsOp.kills id) + 1 at hcount
      omega
    simpa using List.countP_eq_zero.mp hzero op hold
  refine
    { keyed := hs.keyed.congr rfl rfl rfl
      named := hs.named
      handles := hs.handles
      there := fun r f id' hf hid => ?_
      apart := hs.apart
      fits := fun op hold => ?_
      builds := fun r' => ?_
      kills := fun id' => ?_
      owned := fun id' hid => ?_
      renamed := fun r f id' n hf hid hl => ?_
      stored := fun r f id' hf hid hbuilt => ?_
      marked := hs.marked
      marks := fun r f id' x hf hid hx => ?_
      created := fun r hr hnot => ?_
      sent := by simp }
  · rw [hother id' (hne r f id' hf hid)]
    exact hs.there r f id' hf hid
  · have hfit := hs.fits_take op hold
    have hkill := hlast op hold
    cases op with
    | deleteBlob blobid fn' =>
        cases blobid with
        | none => trivial
        | some id' =>
            have hne' : id' ≠ id := by
              rintro rfl
              simp [BsOp.kills] at hkill
            exact ⟨by rw [hother id' hne']; exact hfit.1, hfit.2⟩
    | openBlob r blobid =>
        cases blobid with
        | none => trivial
        | some id' => exact hfit
    | _ => exact hfit
  · exact (Nat.le_add_right _ _).trans ((building_take hop r').symm.trans_le (hs.builds r'))
  · exact (Nat.le_add_right _ _).trans ((killing_take hop id').symm.trans_le (hs.kills id'))
  · by_cases heq : id' = id
    · subst heq
      exact absurd (Metadata.xattrs_deleteBlob_self hclosed) hid
    · rw [hother id' heq] at hid
      rw [← hkills id' heq]
      exact hs.owned id' hid
  · rw [newNames_take hop rfl] at hl
    exact hs.renamed r f id' n hf hid hl
  · rw [newNames_take hop rfl, hother id' (hne r f id' hf hid)]
    exact hs.stored r f id' hf hid ((building_take hop r).trans hbuilt)
  · rw [hother id' (hne r f id' hf hid)] at hx
    exact hs.marks r f id' x hf hid hx
  · obtain ⟨hbuilt, hfile⟩ := hs.created r hr hnot
    exact ⟨(building_take hop r).symm.trans hbuilt, hfile⟩

/-- The first of the names that wait comes to the device. -/
theorem renameOpen_done (hs : Stored s md created deleted n) {newName : CString}
    (hop : s.pending[i]? = some (.renameOpen (some id) newName cb))
    (hfirst : ∀ op ∈ s.pending.take i, op.renames id = none) (hh : md.handle h = some id)
    (hset : md.setXattr h (fun x => { x with name := some newName }) = .ok md') :
    Stored { s with pending := s.pending.eraseIdx i } md' created deleted
      (s.pending.eraseIdx i).length := by
  obtain ⟨id', x, hid', hx, hx', hother, hhandle⟩ := Metadata.setXattr_ok hset
  obtain rfl := Option.some.inj (hh.symm.trans hid')
  have hname : (BsOp.renameOpen (some id) newName cb).renames id = some newName := by
    simp [BsOp.renames]
  have hnames := newNames_take_first hop hname hfirst
  have hsame : ∀ id', id' ≠ id →
      Filesystem.newNames { s with pending := s.pending.eraseIdx i } id' = s.newNames id' :=
    fun id' hne => newNames_take hop (by simp [BsOp.renames, hne.symm])
  have hnone : ∀ id', md'.xattrs id' ≠ none ↔ md.xattrs id' ≠ none := by
    intro id'
    by_cases heq : id' = id
    · subst heq
      simp [hx, hx']
    · rw [hother id' heq]
  refine
    { keyed := hs.keyed.congr rfl rfl rfl
      named := hs.named
      handles := fun r f b hf hb => ?_
      there := fun r f id' hf hid => (hnone id').mpr (hs.there r f id' hf hid)
      apart := hs.apart
      fits := fun op hold => ?_
      builds := fun r' => ?_
      kills := fun id' => ?_
      owned := fun id' hid => ?_
      renamed := fun r f id' n hf hid hl => ?_
      stored := fun r f id' hf hid hbuilt => ?_
      marked := hs.marked
      marks := fun r f id' y hf hid hy hdeleted => ?_
      created := fun r hr hnot => ?_
      sent := by simp }
  · rw [hhandle]
    exact hs.handles r f b hf hb
  · refine Fits.mono (hs.fits_take op hold) (Nat.le_refl _)
      (fun _ f _ hf => ⟨f, hf, fun hh => hh, rfl⟩) (fun r f id hr hf _ => ?_) (fun _ _ hh => hhandle ▸ hh) fun id' => (hnone id').mpr
    cases hf.symm.trans (hs.keyed.unborn r hr)
  · exact (Nat.le_add_right _ _).trans ((building_take hop r').symm.trans_le (hs.builds r'))
  · exact (Nat.le_add_right _ _).trans ((killing_take hop id').symm.trans_le (hs.kills id'))
  · refine (hs.owned id' ((hnone id').mp hid)).imp_right fun hpos => ?_
    rw [killing_take hop id'] at hpos
    exact hpos
  · by_cases heq : id' = id
    · subst heq
      refine hs.renamed r f id' n hf hid ?_
      rw [hnames, List.getLast?_cons, hl]
      rfl
    · rw [hsame id' heq] at hl
      exact hs.renamed r f id' n hf hid hl
  · obtain ⟨y, hy, hlength, hname⟩ :=
      hs.stored r f id' hf hid ((building_take hop r).trans hbuilt)
    by_cases heq : id' = id
    · subst heq
      obtain rfl := Option.some.inj (hx.symm.trans hy)
      refine ⟨_, hx', hlength, fun hnil => ?_⟩
      refine (hs.renamed r f id' newName hf hid ?_).symm
      rw [hnames, hnil]
      rfl
    · rw [hsame id' heq]
      exact ⟨y, (hother id' heq).trans hy, hlength, hname⟩
  · by_cases heq : id' = id
    · subst heq
      obtain rfl := Option.some.inj (hx'.symm.trans hy)
      exact hs.marks r f id' x hf hid hx hdeleted
    · exact hs.marks r f id' y hf hid ((hother id' heq).symm.trans hy) hdeleted
  · obtain ⟨hbuilt, hfile⟩ := hs.created r hr hnot
    exact ⟨(building_take hop r).symm.trans hbuilt, hfile⟩

/-! ### Completions -/

theorem completed_failed (hne : answer.bserrno ≠ 0) : op.completed md answer = md := if_pos hne

/-- What a callback that goes on with a rename finds. -/
theorem moves (hmoves : fn.Moves s) :
    ∀ oldName newName cb, fn = .fsRenameDeleteDone oldName newName cb →
      s.names oldName = none ∨ s.names newName = none := by
  rintro oldName newName cb rfl
  exact Or.inr hmoves.2

/-- `spdk_bs_create_blob` has completed. -/
theorem complete_createBlob (hs : Stored s md created deleted n)
    (hop : s.pending[i]? = some (.createBlob r fn))
    (hanswered : (BsOp.createBlob r fn).answered md answer = true)
    (hwaits : answer.bserrno = 0 → ∀ op ∈ s.pending.eraseIdx i, op.renames answer.blobid = none)
    (hresume : (BsOp.createBlob r fn).resume { s with pending := s.pending.eraseIdx i } answer mem =
      .ok s') :
    Stored s' ((BsOp.createBlob r fn).completed md answer) created deleted
      (s.pending.eraseIdx i).length := by
  obtain ⟨hfn, -, hfile⟩ := hs.fits _ (mem_taken hop)
  simp only [BsOp.resume, Filesystem.fsCreateBlobCreateCb] at hresume
  by_cases hzero : answer.bserrno = 0
  · rw [if_neg (not_not.mpr hzero)] at hresume
    obtain ⟨f, hf, hresume⟩ := bind_ok.mp hresume
    obtain rfl := Except.ok.inj hresume
    have hnew : md.xattrs answer.blobid = none := by
      simpa [BsOp.answered, hzero] using hanswered
    rw [BsOp.completed, if_neg (not_not.mpr hzero)]
    exact hs.createBlob_done hop (Filesystem.file_ok.mp hf) hnew (hwaits hzero)
  · rw [if_pos hzero] at hresume
    rw [completed_failed hzero]
    refine callFileOp_plain (hs.take_builds hop (r := r) (by simp [BsOp.builds]) (fun _ => rfl)
      (fun _ => rfl) fun f id hf hid => ?_) hfn hresume
    cases (hfile f hf).1.symm.trans hid

/-- The `spdk_bs_open_blob` of a creation has succeeded. -/
theorem complete_createOpen (hs : Stored s md created deleted n)
    (hop : s.pending[i]? = some (.createOpen r id fn))
    (hanswered : (BsOp.createOpen r id fn).answered md answer = true) (hzero : answer.bserrno = 0)
    (hresume : (BsOp.createOpen r id fn).resume { s with pending := s.pending.eraseIdx i } answer
      mem = .ok s') :
    Stored s' ((BsOp.createOpen r id fn).completed md answer) created deleted
      (s.pending.eraseIdx i).length := by
  rcases opens_ok hanswered with ⟨-, id', h, hid, hblob, hthere, hhandle⟩ | ⟨hne, -⟩
  · obtain rfl := Option.some.inj hid
    simp only [BsOp.resume, Filesystem.fsCreateBlobOpenCb, hzero, ne_eq, not_true_eq_false,
      if_false, hblob] at hresume
    obtain rfl := Except.ok.inj hresume
    have hcompleted : (BsOp.createOpen r id fn).completed md answer = md.openBlob id h := by
      simp [BsOp.completed, hzero, hblob]
    rw [hcompleted]
    exact (hs.openBlob hthere hhandle).createOpen_done hop (Function.update_self ..)
  · exact absurd hzero hne

/-- The `spdk_blob_resize` of a creation has succeeded. -/
theorem complete_createResize (hs : Stored s md created deleted n) {blob : Option BlobRef}
    (hop : s.pending[i]? = some (.createResize r blob fn)) (hzero : answer.bserrno = 0)
    (hsets : (BsOp.createResize r blob fn).sets { s with pending := s.pending.eraseIdx i } md answer
      true = .ok md')
    (hresume : (BsOp.createResize r blob fn).resume { s with pending := s.pending.eraseIdx i }
      answer mem = .ok s') :
    Stored s' md' (r :: created) deleted (s.pending.eraseIdx i).length := by
  obtain ⟨hfn, -, h, -, rfl, -⟩ := hs.fits _ (mem_taken hop)
  simp only [BsOp.sets, Bool.true_eq_false, if_false, hzero, ne_eq, not_true_eq_false] at hsets
  obtain ⟨f, hf, hset⟩ := bind_ok.mp hsets
  replace hf : s.files r = some f := Filesystem.file_ok.mp hf
  simp only [BsOp.resume, Filesystem.fsCreateBlobResizeCb, hzero, ne_eq, not_true_eq_false,
    if_false] at hresume
  obtain ⟨f', hf', hresume⟩ := bind_ok.mp hresume
  split at hresume
  · cases hresume
  obtain rfl := Except.ok.inj hresume
  obtain ⟨id, hid, hs', hstored⟩ := hs.setXattrs hop hf hset
  have htaken := hs'.take_builds hop (r := r) (by simp [BsOp.builds]) (fun _ => rfl) (fun _ => rfl)
    fun g id' hg hid' => by
      obtain rfl := Option.some.inj (hf.symm.trans hg)
      obtain rfl := Option.some.inj (hid.symm.trans hid')
      exact hstored
  have hbuilt : Filesystem.building { s with pending := s.pending.eraseIdx i } r = 0 := by
    have hcount := building_take hop r
    have hle := hs.builds r
    simp only [BsOp.builds, decide_true, if_true] at hcount
    omega
  exact (htaken.create hf (by simp [hid]) hbuilt).send
    ⟨fun _ => rfl, fun _ => rfl, fun _ => rfl⟩ hfn trivial

/-- The open of a file's blob has completed. -/
theorem complete_openBlob (hs : Stored s md created deleted n) {blobid : Option BlobId}
    (hop : s.pending[i]? = some (.openBlob r blobid))
    (hanswered : (BsOp.openBlob r blobid).answered md answer = true)
    (hresume : (BsOp.openBlob r blobid).resume { s with pending := s.pending.eraseIdx i } answer
      mem = .ok s') :
    Stored s' ((BsOp.openBlob r blobid).completed md answer) created deleted
      (s.pending.eraseIdx i).length := by
  have hfit := hs.fits _ (mem_taken hop)
  have htaken := hs.take hop ⟨fun _ => rfl, fun _ => rfl, fun _ => rfl⟩
  rcases opens_ok hanswered with ⟨hzero, id, h, rfl, hblob, hthere, hhandle⟩ | ⟨hne, hblob⟩
  · have hcompleted : (BsOp.openBlob r (some id)).completed md answer = md.openBlob id h := by
      simp [BsOp.completed, hzero, hblob]
    rw [hcompleted]
    refine (htaken.openBlob hthere hhandle).fsOpenBlobDone (fun f b hf hb => Or.inr ?_) hresume
    obtain rfl := Option.some.inj (hblob.symm.trans hb)
    have hid : f.blobid = some id := hfit.2 f hf
    exact ⟨by simp [hid], (Function.update_self ..).trans hid.symm⟩
  · rw [completed_failed hne]
    refine htaken.fsOpenBlobDone (fun f b _ hb => ?_) hresume
    cases hblob.symm.trans hb

/-- The deletion of a blob has completed. -/
theorem complete_deleteBlob (hs : Stored s md created deleted n) {blobid : Option BlobId}
    (hop : s.pending[i]? = some (.deleteBlob blobid fn))
    (hanswered : (BsOp.deleteBlob blobid fn).answered md answer = true)
    (hzero : blobid ≠ none → answer.bserrno = 0)
    (hmoves : fn.Moves { s with pending := s.pending.eraseIdx i })
    (hresume : (BsOp.deleteBlob blobid fn).resume { s with pending := s.pending.eraseIdx i } answer
      mem = .ok s') :
    Stored s' ((BsOp.deleteBlob blobid fn).completed md answer) created deleted
      (s.pending.eraseIdx i).length := by
  cases blobid with
  | none =>
      have hne : answer.bserrno ≠ 0 := by
        simpa [BsOp.answered] using hanswered
      rw [completed_failed hne]
      refine callFileOp (hs.take hop ⟨fun _ => rfl, fun _ => ?_, fun _ => rfl⟩) (moves hmoves)
        hresume
      simp [BsOp.kills]
  | some id =>
      have hbserrno := hzero (by simp)
      have hclosed : md.refs id = 0 := by
        simp only [BsOp.answered, hbserrno, ne_eq, not_true_eq_false, decide_false, Bool.false_or,
          Option.any_some, Bool.and_eq_true, decide_eq_true_iff] at hanswered
        exact hanswered.2
      rw [BsOp.completed, if_neg (not_not.mpr hbserrno)]
      exact callFileOp (hs.deleteBlob_done hop hclosed) (moves hmoves) hresume

/-- The blob of a rename is open, and gets its name. -/
theorem complete_renameOpen (hs : Stored s md created deleted n) {blobid : Option BlobId}
    {newName : CString} (hop : s.pending[i]? = some (.renameOpen blobid newName cb))
    (hanswered : (BsOp.renameOpen blobid newName cb).answered md answer = true)
    (hfirst : ∀ op ∈ s.pending.take i, ∀ id, blobid = some id → op.renames id = none)
    (hsets : (BsOp.renameOpen blobid newName cb).sets { s with pending := s.pending.eraseIdx i }
      ((BsOp.renameOpen blobid newName cb).completed md answer) answer true = .ok md')
    (hresume : (BsOp.renameOpen blobid newName cb).resume { s with pending := s.pending.eraseIdx i }
      answer mem = .ok s') :
    Stored s' md' created deleted (s.pending.eraseIdx i).length := by
  rcases opens_ok hanswered with ⟨hzero, id, h, rfl, hblob, hthere, hhandle⟩ | ⟨-, hblob⟩
  · have hcompleted : (BsOp.renameOpen (some id) newName cb).completed md answer =
        md.openBlob id h := by
      simp [BsOp.completed, hzero, hblob]
    rw [hcompleted] at hsets
    simp only [BsOp.sets, Bool.true_eq_false, if_false, hblob] at hsets
    simp only [BsOp.resume, Filesystem.fsRenameBlobOpenCb, hblob] at hresume
    obtain rfl := Except.ok.inj hresume
    exact ((hs.openBlob hthere hhandle).renameOpen_done hop (fun op hop' => hfirst op hop' id rfl)
      (Function.update_self ..) hsets).send ⟨fun _ => rfl, fun _ => rfl, fun _ => rfl⟩ trivial
        trivial
  · simp only [BsOp.resume, Filesystem.fsRenameBlobOpenCb, hblob] at hresume
    cases hresume

/-- A close or a sync leaves the xattrs. -/
theorem completed_calm (hs : Stored s md created deleted n)
    (hop : (∃ blob rc fn, op = .createClose blob rc fn) ∨ (∃ r blob cb, op = .closeBlob r blob cb) ∨
      (∃ blob cb, op = .renameClose blob cb) ∨ (∃ blob fn, op = .syncDeleted blob fn) ∨
        ∃ r cb, op = .closeSync r cb) :
    Stored s (op.completed md answer) created deleted n := by
  unfold BsOp.completed
  split
  · exact hs
  rcases hop with ⟨blob, rc, fn, rfl⟩ | ⟨r, blob, cb, rfl⟩ | ⟨blob, cb, rfl⟩ | ⟨blob, fn, rfl⟩ |
    ⟨r, cb, rfl⟩
  · cases blob with
    | none => exact hs
    | some h => exact hs.closeBlob
  · exact hs.closeBlob
  · exact hs.closeBlob
  · exact hs.syncMd
  · exact hs

/-- What waits is completed. -/
theorem complete (hs : Stored s md created deleted n) (hop : s.pending[i]? = some op)
    (hanswered : op.answered md answer = true) {set : Bool}
    (hkeeps : op.Keeps { s with pending := s.pending.eraseIdx i } (s.pending.take i) answer set)
    (hsets : op.sets { s with pending := s.pending.eraseIdx i } (op.completed md answer) answer
      set = .ok md')
    (hresume : op.resume { s with pending := s.pending.eraseIdx i } answer mem = .ok s') :
    Stored s' md' (op.creates answer ++ created) deleted (s.pending.eraseIdx i).length := by
  have hplain : (∀ r blob fn, op ≠ .createResize r blob fn) →
      (∀ blobid newName cb, op ≠ .renameOpen blobid newName cb) →
        md' = op.completed md answer := by
    intro hresize hrename
    cases op with
    | createResize r blob fn => exact absurd rfl (hresize r blob fn)
    | renameOpen blobid newName cb => exact absurd rfl (hrename blobid newName cb)
    | _ =>
        simp only [BsOp.sets, ite_self, Except.ok.injEq] at hsets
        exact hsets.symm
  have hfit := hs.fits _ (mem_taken hop)
  cases op with
  | createBlob r fn =>
      obtain rfl := hplain (by simp) (by simp)
      exact hs.complete_createBlob hop hanswered hkeeps hresume
  | createOpen r id fn =>
      obtain rfl := hplain (by simp) (by simp)
      exact hs.complete_createOpen hop hanswered hkeeps hresume
  | createResize r blob fn =>
      obtain ⟨hzero, rfl⟩ := hkeeps
      have hcompleted : (BsOp.createResize r blob fn).completed md answer = md := by
        simp [BsOp.completed]
      rw [hcompleted] at hsets
      have hcreates : (BsOp.createResize r blob fn).creates answer = [r] := if_pos hzero
      rw [hcreates]
      exact hs.complete_createResize hop hzero hsets hresume
  | createClose blob rc fn =>
      obtain rfl := hplain (by simp) (by simp)
      have htaken := hs.take hop ⟨fun _ => rfl, fun _ => rfl, fun _ => rfl⟩
      exact (htaken.completed_calm (Or.inl ⟨_, _, _, rfl⟩)).callFileOp_plain hfit hresume
  | openBlob r blobid =>
      obtain rfl := hplain (by simp) (by simp)
      exact hs.complete_openBlob hop hanswered hresume
  | closeSync r cb =>
      obtain rfl := hplain (by simp) (by simp)
      have htaken := hs.take hop ⟨fun _ => rfl, fun _ => rfl, fun _ => rfl⟩
      exact (htaken.completed_calm (by simp)).fileCloseAsync hresume
  | closeBlob r blob cb =>
      obtain rfl := hplain (by simp) (by simp)
      have htaken := hs.take hop ⟨fun _ => rfl, fun _ => rfl, fun _ => rfl⟩
      exact (htaken.completed_calm (by simp)).fileCloseAsyncDone hresume
  | syncDeleted blob fn =>
      obtain rfl := hplain (by simp) (by simp)
      have htaken := hs.take hop ⟨fun _ => rfl, fun _ => rfl, fun _ => rfl⟩
      exact (htaken.completed_calm (by simp)).callFileOp (moves hkeeps.2) hresume
  | deleteBlob blobid fn =>
      obtain rfl := hplain (by simp) (by simp)
      exact hs.complete_deleteBlob hop hanswered hkeeps.1 hkeeps.2 hresume
  | renameOpen blobid newName cb =>
      obtain ⟨rfl, hfirst⟩ := hkeeps
      exact hs.complete_renameOpen hop hanswered hfirst hsets hresume
  | renameClose blob cb =>
      obtain rfl := hplain (by simp) (by simp)
      have htaken := hs.take hop ⟨fun _ => rfl, fun _ => rfl, fun _ => rfl⟩
      obtain rfl := Except.ok.inj hresume
      exact (htaken.completed_calm (by simp)).congr rfl rfl rfl rfl

end Stored

/-! ### Runs -/

/-- The invariant between two steps. -/
def Mounted.Stored (m : Mounted) : Prop :=
  Fs.Stored m.fs m.md m.created m.deleted m.fs.pending.length

namespace Mounted

variable {m m' : Mounted} {o : Operation}

theorem Stored.step (h : m.Stored) (hkeeps : Keeps m o) (hstep : MountedSteps m o m') :
    m'.Stored := by
  have hcall : ∀ {request : Request} {set : Bool},
      (∀ i answer mem, request ≠ .event (.complete i answer mem)) →
      (∀ oldName newName cb mem deleteMem, request = .rename oldName newName cb mem deleteMem →
        deleteMem.request = true ∨ m.fs.names newName = none ∨ m.fs.names oldName = none) →
        m.call request set = .ok m' → m'.Stored := by
    intro request set hno hrename hcall
    obtain ⟨fs, hfs, hrest⟩ := bind_ok.mp hcall
    obtain ⟨md, hmd, hret⟩ := bind_ok.mp hrest
    obtain rfl := Except.ok.inj hret
    have hcalled := Fs.Stored.call h hno hrename hfs
    exact (hcalled.marks_all hcalled.sent hmd).rest
  cases o with
  | request request set =>
      cases request with
      | event e =>
          cases e with
          | complete i answer mem =>
              change m.complete i answer mem set = .ok m' at hstep
              unfold complete at hstep
              split at hstep
              · cases hstep
              rename_i op hop
              split at hstep
              · cases hstep
              rename_i hanswered
              obtain ⟨md₁, hsets, hstep⟩ := bind_ok.mp hstep
              obtain ⟨fs, hresume, hstep⟩ := bind_ok.mp hstep
              obtain ⟨md₂, hmarks, hret⟩ := bind_ok.mp hstep
              obtain rfl := Except.ok.inj hret
              have hdone := Fs.Stored.complete h hop (by simpa using hanswered) (hkeeps op hop)
                hsets hresume
              exact (hdone.marks_all hdone.sent hmarks).rest
          | _ =>
              have hstep : m.call _ set = .ok m' := hstep
              exact hcall (by simp) (by simp) hstep
      | rename oldName newName cb mem deleteMem =>
          have hstep : m.call _ set = .ok m' := hstep
          refine hcall (by simp) (fun _ _ _ _ _ heq => ?_) hstep
          cases heq
          exact hkeeps
  | setLength r length =>
      obtain ⟨blob, -, hstep⟩ := bind_ok.mp hstep
      obtain ⟨md, hset, hret⟩ := bind_ok.mp hstep
      obtain rfl := Except.ok.inj hret
      exact Fs.Stored.setLength h hset
  | syncMd r =>
      obtain ⟨blob, -, hret⟩ := bind_ok.mp hstep
      obtain rfl := Except.ok.inj hret
      exact Fs.Stored.syncMd h

/-- A loaded filesystem has what the device has. -/
theorem Stored.ready (h : Ready m) : m.Stored := by
  have hpending := h.fs.pending
  have hfile : ∀ r f id, m.fs.files r = some f → f.blobid = some id → ∃ n length,
      f.name = some n ∧ m.fs.names n = some r ∧
        m.md.xattrs id = some ⟨some n, some (length, 8), false⟩ := by
    intro r f id hf hid
    obtain ⟨n, id', length, hname, hid', hentry, hdisk⟩ := h.files r f hf
    obtain rfl := Option.some.inj (hid.symm.trans hid')
    exact ⟨n, length, hname, hentry, (Metadata.xattrs_closed (h.refs id)).trans hdisk⟩
  have hbuilding : ∀ r, m.fs.building r = 0 := fun r => by simp [Filesystem.building, hpending]
  have hkilling : ∀ id, m.fs.killing id = 0 := fun id => by simp [Filesystem.killing, hpending]
  have hnames : ∀ id, m.fs.newNames id = [] := fun id => by simp [Filesystem.newNames, hpending]
  refine
    { keyed := Keyed.initial h.fs
      named := fun r f hf => ?_
      handles := fun r f b hf hb => ?_
      there := fun r f id hf hid => ?_
      apart := fun r r' f f' id hf hf' hid hid' => h.apart r r' f f' hf hf' (hid.trans hid'.symm)
      fits := by simp [hpending]
      builds := fun r => (hbuilding r).trans_le (Nat.zero_le 1)
      kills := fun id => (hkilling id).trans_le (Nat.zero_le 1)
      owned := fun id hid => ?_
      renamed := fun r f id n hf hid hlast => ?_
      stored := fun r f id hf hid hbuilt => ?_
      marked := fun r f hf hdeleted => ?_
      marks := fun r f id x hf hid hx hdeleted => ?_
      created := fun r hr hnot => ?_
      sent := by simp [hpending] }
  · obtain ⟨n, id, length, hname, hid, hentry, -⟩ := h.files r f hf
    refine ⟨fun n' hn' => ?_, by simp [hname]⟩
    obtain rfl := Option.some.inj (hname.symm.trans hn')
    exact hentry
  · cases (h.fs.closed r f hf).1.symm.trans hb
  · obtain ⟨n, length, -, -, hx⟩ := hfile r f id hf hid
    simp [hx]
  · rw [Metadata.xattrs_closed (h.refs id)] at hid
    exact Or.inl (h.blobs id hid)
  · rw [hnames] at hlast
    cases hlast
  · obtain ⟨n, length, hname, -, hx⟩ := hfile r f id hf hid
    exact ⟨_, hx, ⟨length, rfl⟩, fun _ => hname.symm⟩
  · cases (h.fs.closed r f hf).2.2.1.symm.trans hdeleted
  · obtain ⟨n, length, -, -, hx'⟩ := hfile r f id hf hid
    obtain rfl := Option.some.inj (hx'.symm.trans hx)
    cases hdeleted
  · obtain ⟨f, hf⟩ := Option.ne_none_iff_exists'.mp ((h.created r).mp hr)
    exact ⟨hbuilding r, f, hf, (h.fs.named r f hf).1⟩

/-- In every state that a run leads to. -/
theorem Stored.runs {m₀ : Mounted} (h : Ready m₀) (hrun : Runs MountedSteps Keeps m₀ m) :
    m.Stored :=
  hrun.keeps (Stored.ready h) fun hs hok hstep => hs.step hok hstep

end Mounted

end Nbfs.Fs
