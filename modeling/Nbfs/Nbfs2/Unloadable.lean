import Nbfs.Nbfs2.Releases
import Nbfs.Nbfs2.InUse

set_option autoImplicit false

/-!
# Whether the blobstore can be unloaded

A request that is called back should hold nothing any more, so that no blob is open when
`nbfs2_unload_fs` asks for the unload.
-/

namespace Nbfs.Nbfs2

open Nbfs.Lib Conv

/-- The operations and helpers that open blobs, or could. -/
inductive Task where
  | readNormalBlob (blobid : BlobId) (payload : Address) (offset length : UInt64)
  | writeNormalBlob (blobid : BlobId) (payload : Address) (offset length : UInt64)
  | readSuperBlob (payload : Address) (offset length : UInt64)
  | writeSuperBlob (payload : Address) (offset length : UInt64)
  | build (garbage : Nat → Ptr) (m : MountedFs) (buildMthd : FsBuildMethod)
  | create (garbage : Ptr) (fs : Filesystem) (filename : CString)
  | delete (fs : Filesystem) (filename : CString)

/-- Run the task for the client. -/
def Task.run : Task → Async Unit
  | .readNormalBlob blobid payload offset length =>
      Nbfs2.readNormalBlob blobid payload offset length
  | .writeNormalBlob blobid payload offset length =>
      Nbfs2.writeNormalBlob blobid payload offset length
  | .readSuperBlob payload offset length => Nbfs2.readSuperBlob payload offset length cbFn
  | .writeSuperBlob payload offset length => Nbfs2.writeSuperBlob payload offset length cbFn
  | .build garbage m buildMthd => do let _ ← nbfs2BuildFs garbage m buildMthd
  | .create garbage fs filename => do let _ ← nbfs2CreateFile garbage fs filename
  | .delete fs filename => do let _ ← nbfs2DeleteFile fs filename

def Task.builds : Task → Bool
  | build .. => true
  | _ => false

/-- Everything that was opened is given back, unless something was opened and the request is
to build or a step of it failed. -/
def ReturnsUnless (builds : Bool) (s : Asked) : Prop :=
  held s = 0 ↔ NoneOpened s ∨ builds = false ∧ CheckedOk s

/-! ### What the steps of a task keep -/

/-- A request that neither opens nor closes, and is not the callback. -/
def Request.idle : Request → Bool
  | openBlob _ | closeBlob _ | allocIoChannel | freeIoChannel | callback _ => false
  | _ => true

/-- What holds on after such a request. -/
def Stable (I : Asked → Prop) : Prop :=
  ∀ {s : Asked} {r : Request} (x : Response r), r.idle = true → I s → I (s ++ [⟨r, x⟩])

/-- The superblob is open. -/
structure StillOpen (s : Asked) : Prop where
  opened : ¬ NoneOpened s
  nonneg : 0 ≤ (held s).1
  kept : ∃ blob, 0 < (held s).1 blob

/-- The superblob was not opened, and success not told. -/
structure Unmounted (s : Asked) : Prop extends Untouched s where
  untold : ∀ x : Response (.callback 0), (⟨.callback 0, x⟩ : (r : Request) × Response r) ∉ s

/-- No blob was closed more often than it was opened. -/
def Solvent (s : Asked) : Prop := 0 ≤ (held s).1

section steps

variable {s u : Asked} {r : Request} {x : Response r}

theorem untouched_idle (hr : r.idle = true) : Untouched [⟨r, x⟩] := by
  refine untouched_one ?_ ?_
  · cases r <;> first | rfl | cases hr
  · rintro id blob heq
    cases heq
    cases hr

theorem StillOpen.append (h : StillOpen s) (hu : 0 ≤ (held u).1) : StillOpen (s ++ u) := by
  have hblobs : (held (s ++ u)).1 = (held s).1 + (held u).1 := by
    rw [held_append, Prod.fst_add]
  obtain ⟨blob, hblob⟩ := h.kept
  refine ⟨fun hnone => h.opened (noneOpened_append.mp hnone).1, ?_, blob, ?_⟩
  · rw [hblobs]
    exact add_nonneg h.nonneg hu
  · rw [hblobs]
    exact add_pos_of_pos_of_nonneg hblob (hu blob)

theorem Unmounted.append (h : Unmounted s) (hu : Unmounted u) : Unmounted (s ++ u) where
  toUntouched := h.toUntouched.append hu.toUntouched
  untold y hmem := (List.mem_append.mp hmem).elim (h.untold y) (hu.untold y)

theorem stable_stillOpen : Stable StillOpen :=
  fun _ hr h => h.append (congrArg Prod.fst (untouched_idle hr).held).ge

theorem stable_unmounted : Stable Unmounted := by
  intro s r x hr h
  refine h.append ⟨untouched_idle hr, fun y hmem => ?_⟩
  cases List.mem_singleton.mp hmem
  cases hr

theorem stable_solvent : Stable Solvent := by
  intro s r x hr h
  rw [Solvent, held_append, (untouched_idle hr).held, add_zero]
  exact h

theorem stable_untouched : Stable Untouched :=
  fun _ hr h => h.append (untouched_idle hr)

end steps

section programs

variable {β : Type} {P : Asked → Prop} {post : β → Asked → Prop} {I : Asked → Prop} {s : Asked}

/-- A request that changes nothing that matters. -/
theorem tells_idle (hI : Stable I) (hs : I s) (r : Request) {k : Response r → Async β}
    (hr : r.idle = true) (hk : ∀ x s, I s → Tells P post (k x) s) :
    Tells P post (Conv.request r >>= k) s := by
  refine tells_request (watched_silent ?_) fun x => hk x _ (hI x hr hs)
  cases r <;> first | rfl | cases hr

theorem tells_ofOption {γ : Type} {value : Option γ} {k : γ → Async β}
    (hk : ∀ x, Tells P post (k x) s) : Tells P post (ofOption value >>= k) s := by
  cases value with
  | none => trivial
  | some x => exact hk x

theorem tells_buildLoop (hI : Stable I) {garbage : Nat → Ptr} {readBuff : Option Address}
    {k : Option HashTable → Async β} (hk : ∀ table s, I s → Tells P post (k table) s) :
    ∀ {n i : Nat} {t : HashTable} {s : Asked}, I s →
      Tells P post (MountedFs.buildLoop garbage readBuff n i t >>= k) s
  | 0, _, _, s, hs => hk _ s hs
  | n + 1, i, t, s, hs => by
      cases readBuff with
      | none => trivial
      | some buffer =>
          refine tells_idle hI hs (.getMdata buffer i) rfl fun record s hs => ?_
          refine tells_idle hI hs .mallocBlobidString rfl fun string s hs => ?_
          change Bool at string
          cases string with
          | false => exact tells_idle hI hs (.appStop (-1)) rfl fun _ s hs => hk _ s hs
          | true =>
              refine tells_idle hI hs .mallocItem rfl fun item s hs => ?_
              change Bool at item
              cases item with
              | false => trivial
              | true =>
                  change Tells P post ((ofOption (htInsert (garbage i) t record.1
                    (blobid2char record.2)) >>= fun t =>
                      MountedFs.buildLoop garbage (some buffer) n (i + 1) t) >>= k) s
                  rw [Conv.bind_assoc]
                  exact tells_ofOption fun next => tells_buildLoop hI hk hs

theorem tells_writeLoop (hI : Stable I) {writeBuff : Option Address} {size : UInt64}
    {k : Unit → Async β} (hk : ∀ s, I s → Tells P post (k ()) s) :
    ∀ {items : List HtItem} {i : Nat} {s : Asked}, I s →
      Tells P post (MountedFs.writeLoop writeBuff size i items >>= k) s
  | [], _, s, hs => hk s hs
  | item :: items, i, s, hs => by
      cases writeBuff with
      | none => trivial
      | some buffer =>
          dsimp only [MountedFs.writeLoop]
          split
          · exact tells_idle hI hs (.putMdata buffer i item.key (char2blobid item.value)) rfl
              fun _ s hs => tells_writeLoop hI hk hs
          · trivial

end programs

/-! ### Building -/

section building

/-- A build that told success has the superblob open. -/
def Mounts {β : Type} (_ : β) (s : Asked) : Prop := StillOpen s ∨ Unmounted s

variable {s : Asked} (m : MountedFs)

abbrev Mounting (p : Async MountedFs) (s : Asked) : Prop := Tells (ReturnsUnless true) Mounts p s

theorem StillOpen.returns (h : StillOpen s) : ReturnsUnless true s := by
  refine iff_of_false (fun hheld => ?_) fun hor => ?_
  · obtain ⟨blob, hblob⟩ := h.kept
    rw [hheld] at hblob
    exact lt_irrefl _ hblob
  · exact hor.elim h.opened fun hbuild => nomatch hbuild.1

theorem Untouched.returns (h : Untouched s) {builds : Bool} : ReturnsUnless builds s :=
  iff_of_true h.held (Or.inl h.opened)

theorem StillOpen.callback (h : StillOpen s) (rc : Int) : StillOpen (s ++ [⟨.callback rc, ()⟩]) :=
  h.append (congrArg Prod.fst (held_one (r := .callback rc))).ge

/-- An error exit, after the superblob was opened. -/
theorem mounting_failed (h : StillOpen s) (bserrno : Int) : Mounting (m.failed bserrno) s := by
  refine tells_request (r := .callback bserrno) h.returns fun _ => ?_
  exact tells_idle stable_stillOpen (h.callback bserrno) (.appStop (-1)) rfl fun _ s hs => Or.inl hs

/-- An error exit before that. -/
theorem mounting_refused (h : Unmounted s) {bserrno : Int} (hne : bserrno ≠ 0) :
    Mounting (m.failed bserrno) s := by
  refine tells_request (r := .callback bserrno) h.returns fun _ => ?_
  have hnext : Unmounted (s ++ [⟨.callback bserrno, ()⟩]) := by
    refine h.append ⟨untouched_one rfl nofun, fun x hmem => hne ?_⟩
    cases List.mem_singleton.mp hmem
    rfl
  exact tells_idle stable_unmounted hnext (.appStop (-1)) rfl fun _ s hs => Or.inr hs

/-- Success, with the superblob open. -/
theorem mounting_done (h : StillOpen s) {m' : MountedFs} : Mounting (do cbFn 0; return m') s :=
  tells_request (r := .callback 0) h.returns fun _ => Or.inl (h.callback 0)

/-- Opening the superblob, and going on with it. -/
theorem mounting_openBlob (h : Unmounted s) (id : BlobId) {f : BlobId → Int → Async MountedFs}
    (hok : ∀ blb s, StillOpen s → Mounting (f blb 0) s)
    (hfailed : ∀ blb rc s, rc ≠ 0 → Unmounted s → Mounting (f blb rc) s) :
    Mounting (do
      let (blb, rc) ← spdkBsOpenBlob id
      f blb rc) s := by
  refine tells_request trivial fun x => ?_
  obtain ⟨blb, rc⟩ := x
  by_cases hrc : rc = 0
  · subst hrc
    have hblobs : (held [⟨.openBlob id, (blb, (0 : Int))⟩]).1 = Pi.single blb 1 :=
      congrArg Prod.fst (held_one (r := .openBlob id))
    refine hok blb _ ⟨fun hnone => ?_, ?_, blb, ?_⟩
    · exact (noneOpened_append.mp hnone).2 id blb (List.mem_singleton_self _)
    all_goals rw [held_append, h.held, zero_add, hblobs]
    · exact Pi.single_nonneg.mpr zero_le_one
    · rw [Pi.single_eq_same]
      exact one_pos
  · refine hfailed blb rc _ hrc (h.append ⟨untouched_refused hrc, fun x hmem => ?_⟩)
    cases List.mem_singleton.mp hmem

theorem mounting_superblobOpenedInit (blb : BlobId) (h : StillOpen s) :
    Mounting (m.superblobOpenedInit blb 0) s := by
  refine tells_idle stable_stillOpen h (.setXattr blb .hts _) rfl fun _ s hs => ?_
  refine tells_idle stable_stillOpen hs .mallocTable rfl fun ok s hs => ?_
  change Bool at ok
  cases ok with
  | false => trivial
  | true => exact mounting_done hs

theorem mounting_superblobCreated (blobid : BlobId) (h : Unmounted s) (bserrno : Int) :
    Mounting (m.superblobCreated blobid bserrno) s := by
  unfold MountedFs.superblobCreated
  split
  next hne => exact mounting_refused m h hne
  next =>
    refine mounting_openBlob h blobid (fun blb s hs => mounting_superblobOpenedInit m blb hs) ?_
    intro blb rc s hrc hs
    rw [MountedFs.superblobOpenedInit, if_pos hrc]
    exact mounting_refused m hs hrc

theorem mounting_init {garbage : Nat → Ptr} (h : Unmounted s) :
    Mounting (nbfs2BuildFs garbage m .init) s := by
  refine tells_idle stable_unmounted h .bsInit rfl fun rc s hs => ?_
  change Int at rc
  dsimp only [MountedFs.bsInitComplete]
  split
  next hne => exact mounting_refused m hs hne
  next =>
    refine tells_idle stable_unmounted hs .mallocCreateArgs rfl fun ok s hs => ?_
    change Bool at ok
    cases ok with
    | false => exact mounting_superblobCreated m 0 hs (-enomem)
    | true =>
        refine tells_idle stable_unmounted hs .createBlob rfl fun x s hs => ?_
        obtain ⟨blobid, bserrno⟩ := x
        dsimp only
        split
        · exact mounting_superblobCreated m 0 hs bserrno
        · exact tells_idle stable_unmounted hs (.setSuper blobid) rfl fun rc s hs =>
            mounting_superblobCreated m blobid hs rc

theorem mounting_superblobRead {garbage : Nat → Ptr} {readBuff : Option Address}
    (h : StillOpen s) (bserrno : Int) :
    Mounting (m.superblobRead garbage readBuff bserrno) s := by
  unfold MountedFs.superblobRead
  split
  next => exact mounting_failed m h bserrno
  next =>
    refine tells_idle stable_stillOpen h .mallocMdata rfl fun ok s hs => ?_
    change Bool at ok
    cases ok with
    | false => exact mounting_failed m hs (-enomem)
    | true =>
        refine tells_buildLoop stable_stillOpen (fun table s hs => ?_) hs
        cases table with
        | none => exact Or.inl hs
        | some table => exact mounting_done hs

theorem mounting_superblobOpenedLoad {garbage : Nat → Ptr} (blb : BlobId) (h : StillOpen s) :
    Mounting (m.superblobOpenedLoad garbage blb 0) s := by
  refine tells_idle stable_stillOpen h (.getXattr blb .hts) rfl fun hts s hs => ?_
  obtain ⟨rc, value⟩ := hts
  refine tells_idle stable_stillOpen hs .mallocTable rfl fun ok s hs => ?_
  change Bool at ok
  cases ok with
  | false => trivial
  | true =>
      refine tells_idle stable_stillOpen hs (.getXattr _ .spbds) rfl fun spbds s hs => ?_
      obtain ⟨rc', value'⟩ := spbds
      refine tells_idle stable_stillOpen hs (.spdkMalloc _) rfl fun readBuff s hs => ?_
      exact tells_readSuperBlob (fun rc u hu =>
        mounting_superblobRead _ (hs.append hu.nonneg) rc) hs.nonneg _ _ _

theorem mounting_load {garbage : Nat → Ptr} (h : Unmounted s) :
    Mounting (nbfs2BuildFs garbage m .load) s := by
  refine tells_idle stable_unmounted h .bsLoad rfl fun rc s hs => ?_
  change Int at rc
  dsimp only [MountedFs.bsLoadComplete]
  split
  next hne => exact mounting_refused m hs hne
  next =>
    refine tells_idle stable_unmounted hs .getSuper rfl fun x s hs => ?_
    obtain ⟨blobid, rc⟩ := x
    dsimp only [MountedFs.superblobIdGot]
    split
    next hne => exact mounting_refused m hs hne
    next =>
      refine mounting_openBlob hs blobid (fun blb s hs => mounting_superblobOpenedLoad m blb hs) ?_
      intro blb rc s hrc hs
      rw [MountedFs.superblobOpenedLoad, if_pos hrc]
      exact mounting_refused m hs hrc

end building

/-! ### The other tasks, and unloading -/

section tasks

variable {β : Type} {post : Unit → Asked → Prop} {s u : Asked}

theorem Exits.returns (h : Exits u) : ReturnsUnless false u := by
  rcases h with h | ⟨hopened, ⟨hheld, hok⟩ | ⟨hok, -, blob, hblob⟩⟩
  · exact h.returns
  · exact iff_of_true hheld (Or.inr ⟨rfl, hok⟩)
  · refine iff_of_false (fun hheld => ?_) fun hor => hor.elim hopened fun hor => hok hor.2
    rw [hheld] at hblob
    exact lt_irrefl _ hblob

/-- The client's own function, where a blob's request ends. -/
theorem tells_cbFn (hpost : ∀ s, post () s) (rc : Int) (hu : Exits u) :
    Tells (ReturnsUnless false) post (cbFn rc) ([] ++ u) :=
  tells_request (r := .callback rc) hu.returns fun _ => hpost _

theorem tells_writeNormalBlob (hpost : ∀ s, post () s) (blobid : BlobId) (payload : Address)
    (offset length : UInt64) :
    Tells (ReturnsUnless false) post (writeNormalBlob blobid payload offset length) [] := by
  refine tells_next (s := []) (u := []) .mallocWriteArgs rfl fun block => ?_
  change Option WriteArgs at block
  cases block with
  | none => exact tells_cbFn hpost _ (Or.inl (untouched_one rfl nofun))
  | some args =>
      refine tells_next .clusterSize rfl fun clusterSize => ?_
      refine tells_next .ioUnitSize rfl fun ioUnitSize => ?_
      have hmalloc := ready_nil.next .mallocWriteArgs (some args) rfl nofun rfl fun _ => rfl
      have hcluster := hmalloc.next .clusterSize clusterSize rfl nofun rfl fun _ => trivial
      have hready := hcluster.next .ioUnitSize ioUnitSize rfl nofun rfl fun _ => trivial
      refine tells_openBlob hready blobid fun blb rc u hu => ?_
      rw [wnbOpenComplete_eq]
      exact tells_wsbOpenComplete (fun rc u => tells_cbFn hpost rc) le_rfl hu

theorem tells_readNormalBlob (hpost : ∀ s, post () s) (blobid : BlobId) (payload : Address)
    (offset length : UInt64) :
    Tells (ReturnsUnless false) post (readNormalBlob blobid payload offset length) [] := by
  refine tells_next (s := []) (u := []) .mallocReadArgs rfl fun block => ?_
  change Option ReadArgs at block
  cases block with
  | none => exact tells_cbFn hpost _ (Or.inl (untouched_one rfl nofun))
  | some args =>
      have hready := ready_nil.next .mallocReadArgs (some args) rfl nofun rfl fun _ => rfl
      refine tells_openBlob hready args.blobid fun blb rc u hu => ?_
      rw [rnbOpenComplete_eq]
      exact tells_rsbOpenComplete (fun rc u => tells_cbFn hpost rc) le_rfl hu

/-- A callback before which nothing was opened. -/
theorem tells_callback {k : Unit → Async β} {post : β → Asked → Prop} (hs : Untouched s) (rc : Int)
    (hk : ∀ s, Untouched s → Tells (ReturnsUnless false) post (k ()) s) :
    Tells (ReturnsUnless false) post (cbFn rc >>= k) s :=
  tells_request (r := .callback rc) hs.returns fun _ =>
    hk _ (hs.append (untouched_one rfl nofun))

/-- Creating a file opens nothing. -/
theorem tells_createFile {post : Filesystem → Asked → Prop} (hpost : ∀ fs s, post fs s)
    (garbage : Ptr) (fs : Filesystem) (filename : CString) :
    Tells (ReturnsUnless false) post (nbfs2CreateFile garbage fs filename) [] := by
  have hstop : ∀ rc s, Untouched s → Tells (ReturnsUnless false) post
      (do cbFn rc; spdkAppStop (-1); return fs) s := fun rc s hs =>
    tells_callback hs rc fun s hs =>
      tells_idle stable_untouched hs (.appStop (-1)) rfl fun _ _ _ => hpost _ _
  refine tells_idle stable_untouched ready_nil.toUntouched .mallocFile rfl fun file s hs => ?_
  change Bool at file
  cases file with
  | false => exact hstop (-enomem) s hs
  | true =>
      refine tells_idle stable_untouched hs .createBlob rfl fun x s hs => ?_
      obtain ⟨blobid, bserrno⟩ := x
      dsimp only [nbfs2FileCreated]
      split
      · exact hstop bserrno s hs
      refine tells_idle stable_untouched hs .mallocItem rfl fun item s hs => ?_
      change Bool at item
      cases item with
      | false => trivial
      | true => exact tells_ofOption fun table => tells_callback hs 0 fun s _ => hpost _ _

/-- Nor does deleting one, which does not call back at all. -/
theorem tells_deleteFile {post : Filesystem → Asked → Prop} (hpost : ∀ fs s, post fs s)
    (fs : Filesystem) (filename : CString) :
    Tells (ReturnsUnless false) post (nbfs2DeleteFile fs filename) [] := by
  refine tells_ofOption fun found => tells_ofOption fun text => ?_
  split
  · refine tells_request trivial fun bserrno => ?_
    change Int at bserrno
    dsimp only [nbfs2BlobDeleted]
    split
    · exact tells_request trivial fun _ => hpost _ _
    · exact tells_ofOption fun table => hpost _ _
  · trivial

/-- What a task does is as it should be, and a build that told success keeps the superblob
open. -/
theorem Task.tells (task : Task) : Tells (ReturnsUnless task.builds)
    (fun _ s => task.builds = true → StillOpen s ∨ Unmounted s) task.run [] := by
  cases task with
  | readNormalBlob blobid payload offset length =>
      exact tells_readNormalBlob (fun s => nofun) blobid payload offset length
  | writeNormalBlob blobid payload offset length =>
      exact tells_writeNormalBlob (fun s => nofun) blobid payload offset length
  | readSuperBlob payload offset length =>
      exact tells_readSuperBlob (fun rc u => tells_cbFn (fun s => nofun) rc) le_rfl _ _ _
  | writeSuperBlob payload offset length =>
      exact tells_writeSuperBlob (fun rc u => tells_cbFn (fun s => nofun) rc) le_rfl _ _ _
  | build garbage m buildMthd =>
      have hnil : Unmounted [] := ⟨ready_nil.toUntouched, nofun⟩
      have hmounting : Mounting (nbfs2BuildFs garbage m buildMthd) [] := by
        cases buildMthd with
        | init => exact mounting_init m hnil
        | load => exact mounting_load m hnil
      exact Asks.bind_iff.mpr (hmounting.mono fun a s hs _ => hs)
  | create garbage fs filename =>
      exact Asks.bind_iff.mpr (tells_createFile (fun _ _ => nofun) garbage fs filename)
  | delete fs filename =>
      exact Asks.bind_iff.mpr (tells_deleteFile (fun _ _ => nofun) fs filename)

/-- Unloading closes only what is open. -/
theorem tells_unload (m : MountedFs) :
    Tells (fun _ => True) (fun _ _ => True) (nbfs2UnloadFs m) [] := by
  have hfailed : ∀ (m : MountedFs) rc s, Tells (fun _ => True) (fun _ _ => True) (m.failed rc) s :=
    fun m rc s => tells_request (r := .callback rc) trivial fun _ =>
      tells_request (r := .appStop (-1)) trivial fun _ => trivial
  have hwritten : ∀ (m : MountedFs) rc s,
      Tells (fun _ => True) (fun _ _ => True) (m.superblobWritten rc) s := by
    intro m rc s
    unfold MountedFs.superblobWritten
    split
    · exact hfailed m rc s
    refine tells_request (r := .bsUnload) trivial fun rc => ?_
    change Int at rc
    dsimp only [MountedFs.unloadComplete]
    split
    · exact hfailed m rc _
    · exact tells_request (r := .callback 0) trivial fun _ =>
        tells_request (r := .appStop 0) trivial fun _ => trivial
  have hnil : Solvent [] := le_rfl
  refine tells_idle stable_solvent hnil (.spdkMalloc _) rfl fun writeBuff s hs => ?_
  refine tells_idle stable_solvent hs .mallocMdata rfl fun ok s hs => ?_
  change Bool at ok
  cases ok with
  | false => exact hfailed m (-enomem) s
  | true =>
      refine tells_ofOption fun items => tells_writeLoop stable_solvent (fun s hs => ?_) hs
      refine tells_idle stable_solvent hs (.setXattr _ .hts _) rfl fun _ s hs => ?_
      refine tells_idle stable_solvent hs (.setXattr _ .spbds _) rfl fun _ s hs => ?_
      exact tells_writeSuperBlob (fun rc u _ => hwritten _ rc _) hs _ _ _

end tasks

/-! ### What is held in a run -/

/-- A program that closes only what is open never holds less than nothing. -/
theorem nonneg_of_watched {P : Asked → Prop} {t : Asked} (h : ∀ t₁ r (x : Response r) t₂,
    t = t₁ ++ ⟨r, x⟩ :: t₂ → Watched P t₁ r) : 0 ≤ (held t).1 := by
  induction t using List.reverseRecOn with
  | nil => exact le_rfl
  | append_singleton t y ih =>
      obtain ⟨r, x⟩ := y
      have hbefore : 0 ≤ (held t).1 := by
        refine ih fun t₁ r' x' t₂ ht => h t₁ r' x' (t₂ ++ [⟨r, x⟩]) ?_
        rw [ht, List.append_assoc, List.cons_append]
      have hnext : (held (t ++ [⟨r, x⟩])).1 = (held t).1 + (r.holds x).1 := by
        rw [held_append, held_one, Prod.fst_add]
      rw [hnext]
      intro other
      cases r with
      | openBlob id =>
          refine add_nonneg (hbefore other) ?_
          have hsucceeded : 0 ≤ succeeded (Prod.snd x) := by
            unfold succeeded
            split <;> decide
          have hopened : (0 : BlobId → Int) ≤ Pi.single (Prod.fst x) (succeeded (Prod.snd x)) :=
            Pi.single_nonneg.mpr hsucceeded
          exact hopened other
      | closeBlob blob =>
          have hopen : 0 < (held t).1 blob := h t (.closeBlob blob) x [] rfl
          have hsucceeded : succeeded x ≤ 1 := by
            unfold succeeded
            split <;> decide
          change 0 ≤ (held t).1 other - (Pi.single blob (succeeded x) : BlobId → Int) other
          by_cases hother : other = blob
          · subst hother
            rw [Pi.single_eq_same]
            omega
          · rw [Pi.single_eq_of_ne hother, sub_zero]
            exact hbefore other
      | _ => exact (hbefore other).trans_eq (add_zero _).symm

/-- Nor does any part of its runs. -/
theorem nonneg_of_free {β : Type} {P : Asked → Prop} {post : β → Asked → Prop} {p : Async β}
    {t t' : Asked} {o : Option β} (h : Tells P post p []) (hrun : Free p (t ++ t') o) :
    0 ≤ (held t).1 := by
  refine nonneg_of_watched (P := P) fun t₁ r x t₂ ht => ?_
  refine (h.remembered hrun).1 t₁ r x (t₂ ++ t') ?_
  rw [ht, List.append_assoc, List.cons_append]

theorem nonneg_flatten {ts : List Asked} (h : ∀ t ∈ ts, 0 ≤ (held t).1) :
    0 ≤ (held ts.flatten).1 := by
  induction ts with
  | nil => exact le_rfl
  | cons t ts ih =>
      rw [List.flatten_cons, held_append, Prod.fst_add]
      exact add_nonneg (h t List.mem_cons_self) (ih fun t' ht' => h t' (List.mem_cons_of_mem t ht'))

/-- A task is called back holding nothing if and only if it opened nothing, or is no build and
no step of it failed.  After a build, whatever else was asked for and however far it has come,
the superblob is open where `spdk_bs_unload` is called. -/
theorem returns_iff (task : Task) (garbage : Nat → Ptr) (m m' : MountedFs)
    (buildMthd : FsBuildMethod) :
    (∀ (t₁ t₂ : Asked) (rc : Int) (o : Option Unit),
      Free task.run (t₁ ++ ⟨.callback rc, ()⟩ :: t₂) o →
        (held t₁ = 0 ↔ NoneOpened t₁ ∨ task.builds = false ∧ CheckedOk t₁)) ∧
    ∀ (t u u' : Asked) (others : List Asked) (rc : Int) (o : Option MountedFs),
      Free (Task.build garbage m buildMthd).run t (some ()) →
      (⟨.callback 0, ()⟩ : (r : Request) × Response r) ∈ t →
      (∀ v ∈ others, ∃ (task : Task) (v' : Asked) (o : Option Unit), Free task.run (v ++ v') o) →
      Free (nbfs2UnloadFs m') (u ++ ⟨.bsUnload, rc⟩ :: u') o →
        (∃ blob, 0 < (held (t ++ others.flatten ++ u)).1 blob) ∧
          (RefusesWhileOpen (t ++ others.flatten ++ u ++ ⟨.bsUnload, rc⟩ :: u') → rc = -ebusy) := by
  constructor
  · intro t₁ t₂ rc o hrun
    exact (task.tells.remembered hrun).1 t₁ (.callback rc) () t₂ rfl
  · intro t u u' others rc o hbuild htold hothers hunload
    have hmounts := ((Task.build garbage m buildMthd).tells.remembered hbuild).2 () rfl rfl
    have hopen : StillOpen t := hmounts.resolve_right fun hnone => hnone.untold () htold
    have hrest : 0 ≤ (held others.flatten).1 := nonneg_flatten fun v hv => by
      obtain ⟨task, v', o, hrun⟩ := hothers v hv
      exact nonneg_of_free task.tells hrun
    have hall := (hopen.append hrest).append (nonneg_of_free (tells_unload m') hunload)
    obtain ⟨blob, hblob⟩ := hall.kept
    exact ⟨⟨blob, hblob⟩, fun hrefuses => hrefuses _ u' rc blob rfl hblob⟩

/-- A block that `malloc` returned. -/
def freshWriteArgs : WriteArgs := ⟨0, 0, false, 0, 0, 0, 0, 0⟩

/-- Writing a unit of blob 1 as far as `spdk_blob_io_write`, which answers `rc`. -/
def writeTrace (rc : Int) : Asked :=
  [⟨.mallocWriteArgs, some freshWriteArgs⟩, ⟨.clusterSize, (1 : UInt64)⟩,
    ⟨.ioUnitSize, (1 : UInt64)⟩, ⟨.openBlob 1, ((1, 0) : BlobId × Int)⟩, ⟨.allocIoChannel, true⟩,
    ⟨.numClusters 1, (1 : UInt64)⟩, ⟨.numIoUnits 1, (1 : UInt64)⟩, ⟨.ioWrite 1 0 0 1, rc⟩]

theorem free_writeTrace {rc : Int} {t : Asked} {o : Option Unit}
    (h : Free (wsbWriteComplete { freshWriteArgs with blob := 1, channel := true } cbFn rc) t o) :
    Free (writeNormalBlob 1 0 0 1) (writeTrace rc ++ t) o :=
  Free.call (Free.call (Free.call (Free.call (Free.call (Free.call (Free.call (Free.call h)))))))

/-- Unloading an empty filesystem as far as `spdk_bs_unload`. -/
def unloadTrace : Asked :=
  [⟨.spdkMalloc 0, some (0 : Nat)⟩, ⟨.mallocMdata, true⟩, ⟨.setXattr 0 .hts 0, (0 : Int)⟩,
    ⟨.setXattr 0 .spbds 0, (0 : Int)⟩, ⟨.mallocWriteArgs, some freshWriteArgs⟩,
    ⟨.clusterSize, (1 : UInt64)⟩, ⟨.ioUnitSize, (1 : UInt64)⟩, ⟨.getSuper, ((0, 0) : BlobId × Int)⟩,
    ⟨.openBlob 0, ((0, 0) : BlobId × Int)⟩, ⟨.allocIoChannel, true⟩,
    ⟨.numClusters 0, (1 : UInt64)⟩, ⟨.numIoUnits 0, (1 : UInt64)⟩, ⟨.ioWrite 0 0 0 0, (0 : Int)⟩,
    ⟨.freeIoChannel, ()⟩, ⟨.closeBlob 0, (0 : Int)⟩]

theorem free_unloadTrace : Free (nbfs2UnloadFs ⟨⟨createTable 0, 0⟩, 0, 0⟩)
    (unloadTrace ++ [⟨.bsUnload, -ebusy⟩, ⟨.callback (-ebusy), ()⟩, ⟨.appStop (-1), ()⟩])
    (some ⟨⟨createTable 0, 0⟩, 0, 0⟩) := by
  refine Free.call (Free.call (Free.call (Free.call (Free.call (Free.call (Free.call (Free.call
    (Free.call (Free.call (Free.call (Free.call (Free.call (Free.call (Free.call (Free.call
      (Free.call (Free.call (Free.ret_iff.mpr ⟨rfl, rfl⟩))))))))))))))))))

/-- A write that succeeds gives everything back; the superblob stays open. -/
theorem returns_one :
    held (writeTrace 0 ++ [⟨.freeIoChannel, ()⟩, ⟨.closeBlob 1, (0 : Int)⟩]) = 0 ∧
      ∃ blob, 0 < (held (freshTrace ++ [].flatten ++ unloadTrace)).1 blob := by
  let m : MountedFs := ⟨⟨createTable 0, 0⟩, 0, 0⟩
  constructor
  · have hrun : Free (writeNormalBlob 1 0 0 1) (writeTrace 0 ++ [⟨.freeIoChannel, ()⟩,
        ⟨.closeBlob 1, (0 : Int)⟩] ++ ⟨.callback 0, ()⟩ :: []) (some ()) := by
      rw [List.append_assoc]
      exact free_writeTrace (Free.call (Free.call (Free.call (Free.ret_iff.mpr ⟨rfl, rfl⟩))))
    refine ((returns_iff (.writeNormalBlob 1 0 0 1) (fun _ => none) m m .init).1 _ _ 0 _ hrun).mpr
      (Or.inr ⟨rfl, ?_, rfl⟩)
    simp only [StepsOk, writeTrace, List.cons_append, List.nil_append, List.forall_mem_cons]
    exact ⟨fun _ => rfl, fun _ => trivial, fun _ => trivial, fun _ => rfl, fun _ => rfl,
      fun _ => trivial, fun _ => trivial, fun _ => rfl, fun _ => trivial, fun _ => rfl, by simp⟩
  · refine ((returns_iff (.writeNormalBlob 1 0 0 1) (fun _ => none) m m .init).2 freshTrace
      unloadTrace _ [] (-ebusy) _ ?_ (by simp [freshTrace]) (by simp) free_unloadTrace).1
    exact Free.bind_iff.mpr (Or.inl ⟨_, _, _, (List.append_nil _).symm, free_freshTrace,
      Free.ret_iff.mpr ⟨rfl, rfl⟩⟩)

/-- When the write fails, the blob and the channel are kept. -/
theorem returns_leaked : ¬ ∀ (task : Task) (t₁ t₂ : Asked) (rc : Int) (o : Option Unit),
    Free task.run (t₁ ++ ⟨.callback rc, ()⟩ :: t₂) o → held t₁ = 0 := by
  intro hall
  have hrun : Free (writeNormalBlob 1 0 0 1) (writeTrace (-5) ++ ⟨.callback (-5), ()⟩ :: [])
      (some ()) := free_writeTrace (Free.call (Free.ret_iff.mpr ⟨rfl, rfl⟩))
  have hheld := hall (.writeNormalBlob 1 0 0 1) _ _ _ _ hrun
  cases congrArg Prod.snd hheld

end Nbfs.Nbfs2
