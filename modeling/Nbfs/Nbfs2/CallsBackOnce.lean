import Nbfs.Nbfs2.Callbacks

set_option autoImplicit false

/-!
# When each request calls back once

Every chain of callbacks goes on with a good function.  What is left over are the
failures that the code does not check, and deleting, which does not call back.
-/

namespace Nbfs.Nbfs2

open Nbfs.Lib Conv

variable {β : Type}

/-- Opening a blob, and going on with it. -/
theorem ends_open {f : BlobId → Int → Async β} (hf : ∀ blb, Good (f blb)) (id : BlobId) :
    Ends (do
      let (blb, rc) ← spdkBsOpenBlob id
      f blb rc) := by
  refine ends_checked (.openBlob id) rfl rfl (fun x hx => ?_) fun x hx => ?_
  · obtain ⟨blb, rc⟩ := x
    obtain rfl : rc = 0 := hx
    exact (hf blb).ok
  · exact (hf _).failed _ hx

/-- Asking for the id of the superblob, and going on with it. -/
theorem ends_getSuper {f : BlobId → Int → Async β} (hf : ∀ blobid, Good (f blobid)) :
    Ends (do
      let (blobid, rc) ← spdkBsGetSuper
      f blobid rc) := by
  refine ends_checked .getSuper rfl rfl (fun x hx => ?_) fun x hx => ?_
  · obtain ⟨blobid, rc⟩ := x
    obtain rfl : rc = 0 := hx
    exact (hf blobid).ok
  · exact (hf _).failed _ hx

/-! ### The superblob, and a file's blob -/

section blobs

variable {cb : Int → Async β} (hcb : Good cb)

include hcb

/-- Closing the blob ends a request. -/
theorem ends_close (channel : Bool) (blob : BlobId) : Ends (do
    if channel then spdkBsFreeIoChannel
    let rc ← spdkBlobClose blob
    cb rc) := by
  have hclose : Ends (spdkBlobClose blob >>= fun rc => cb rc) :=
    hcb.after (.closeBlob blob) id rfl rfl fun _ => Iff.rfl
  cases channel with
  | false => exact hclose
  | true => exact ends_always .freeIoChannel rfl (fun _ => trivial) fun _ => hclose

theorem good_wsbWriteComplete (args : WriteArgs) : Good (wsbWriteComplete args cb) :=
  hcb.ite (ends_close hcb args.channel args.blob)

theorem ends_wsbWrite (args : WriteArgs) : Ends (wsbWrite args cb) :=
  (good_wsbWriteComplete hcb args).after (.ioWrite ..) id rfl rfl fun _ => Iff.rfl

theorem good_wsbSyncComplete (args : WriteArgs) : Good (wsbSyncComplete args cb) :=
  hcb.ite (ends_wsbWrite hcb args)

theorem good_wsbResizeComplete (args : WriteArgs) : Good (wsbResizeComplete args cb) := by
  refine hcb.ite (ends_always (.numClusters args.blob) rfl (fun _ => trivial) fun _ => ?_)
  exact (good_wsbSyncComplete hcb args).after (.syncMd args.blob) id rfl rfl fun _ => Iff.rfl

/-- Where the blob is too small, it is resized if there are enough free clusters. -/
theorem ends_resize (args : WriteArgs) (clusters more : UInt64) : Ends (do
    let free ← spdkBsFreeClusterCount
    if free < more then
      cb (-enospc)
    else
      let rc ← spdkBlobResize args.blob (clusters + more)
      wsbResizeComplete args cb rc) := by
  intro t o h
  obtain ⟨free, t₁, rfl, hrest⟩ := Free.request_iff.mp h
  change UInt64 at free
  split at hrest
  · obtain ⟨hends, hstops, hcrashes, hcount, bserrno, hcallback, hne⟩ :=
      hcb.failed (-enospc) (by decide) _ _ hrest
    refine Or.inr ⟨hends, stepsOk_cons.mpr ⟨nofun, hstops⟩, stepsOk_cons.mpr ⟨nofun, hcrashes⟩,
      bserrno, hcallback, iff_of_false hne fun hok => ?_⟩
    have hmore : resized t₁ = counted t₁ + 1 := hok.2
    omega
  · obtain ⟨rc, t₂, rfl, hnext⟩ := Free.request_iff.mp hrest
    change Int at rc
    have hgood := good_wsbResizeComplete hcb args
    by_cases hrc : rc = 0
    · subst hrc
      refine Outcome.append (t := [⟨.freeClusterCount, free⟩, ⟨.resize .., (0 : Int)⟩])
        (hgood.ok _ _ hnext) ⟨rfl, rfl, ?_, ?_, ?_⟩
      all_goals exact stepsOk_cons.mpr ⟨fun _ => trivial, stepsOk_cons.mpr ⟨fun _ => rfl, nofun⟩⟩
    · obtain ⟨hends, hstops, hcrashes, hcount, bserrno, hcallback, hne⟩ :=
        hgood.failed rc hrc _ _ hnext
      refine Or.inr ⟨hends, ?_, ?_, bserrno, hcallback, iff_of_false hne fun hok => ?_⟩
      · exact stepsOk_cons.mpr ⟨nofun, stepsOk_cons.mpr ⟨nofun, hstops⟩⟩
      · exact stepsOk_cons.mpr ⟨nofun, stepsOk_cons.mpr ⟨nofun, hcrashes⟩⟩
      · exact hrc ((stepsOk_cons.mp (stepsOk_cons.mp hok.1).2).1 rfl)

theorem good_wsbOpenComplete (args : WriteArgs) (blb : BlobId) :
    Good (wsbOpenComplete args cb blb) := by
  refine hcb.ite (ends_checked .allocIoChannel rfl rfl (fun x hx => ?_) fun x hx => ?_)
  · obtain rfl : x = true := hx
    refine ends_always (.numClusters _) rfl (fun _ => trivial) fun clusters => ?_
    refine ends_always (.numIoUnits _) rfl (fun _ => trivial) fun ioUnits => ?_
    exact ends_ite (ends_resize hcb _ _ _) (ends_wsbWrite hcb _)
  · obtain rfl : x = false := Bool.eq_false_of_not_eq_true hx
    exact hcb.failed _ (by decide)

theorem good_wsbSuperBlobidGot (args : WriteArgs) (blobid : BlobId) :
    Good (wsbSuperBlobidGot args cb blobid) :=
  hcb.ite (ends_open (good_wsbOpenComplete hcb _) blobid)

theorem ends_writeSuperBlob (payload : Address) (offset length : UInt64) :
    Ends (writeSuperBlob payload offset length cb) := by
  refine ends_checked .mallocWriteArgs rfl rfl (fun x hx => ?_) fun x hx => ?_
  · obtain ⟨args, rfl⟩ := Option.isSome_iff_exists.mp hx
    refine ends_always .clusterSize rfl (fun _ => trivial) fun clusterSize => ?_
    refine ends_always .ioUnitSize rfl (fun _ => trivial) fun ioUnitSize => ?_
    exact ends_getSuper (good_wsbSuperBlobidGot hcb _)
  · obtain rfl : x = none := Option.not_isSome_iff_eq_none.mp hx
    exact hcb.failed _ (by decide)

theorem good_rsbReadComplete (args : ReadArgs) : Good (rsbReadComplete args cb) :=
  hcb.ite (ends_close hcb args.channel args.blob)

theorem good_rsbOpenComplete (args : ReadArgs) (blb : BlobId) :
    Good (rsbOpenComplete args cb blb) := by
  refine hcb.ite (ends_checked .allocIoChannel rfl rfl (fun x hx => ?_) fun x hx => ?_)
  · obtain rfl : x = true := hx
    exact (good_rsbReadComplete hcb _).after (.ioRead ..) id rfl rfl fun _ => Iff.rfl
  · obtain rfl : x = false := Bool.eq_false_of_not_eq_true hx
    exact hcb.failed _ (by decide)

theorem good_rsbSuperBlobidGot (args : ReadArgs) (blobid : BlobId) :
    Good (rsbSuperBlobidGot args cb blobid) :=
  hcb.ite (ends_open (good_rsbOpenComplete hcb _) blobid)

theorem ends_readSuperBlob (payload : Address) (offset length : UInt64) :
    Ends (readSuperBlob payload offset length cb) := by
  refine ends_checked .mallocReadArgs rfl rfl (fun x hx => ?_) fun x hx => ?_
  · obtain ⟨args, rfl⟩ := Option.isSome_iff_exists.mp hx
    exact ends_getSuper (good_rsbSuperBlobidGot hcb _)
  · obtain rfl : x = none := Option.not_isSome_iff_eq_none.mp hx
    exact hcb.failed _ (by decide)

end blobs

/-- A new superblob goes to a function that takes its id. -/
theorem ends_createSuperBlob {cb : BlobId → Int → Async β} (hcb : ∀ id, Good (cb id)) :
    Ends (createSuperBlob cb) := by
  refine ends_checked .mallocCreateArgs rfl rfl (fun x hx => ?_) fun x hx => ?_
  · obtain rfl : x = true := hx
    refine ends_checked .createBlob rfl rfl (fun x hx => ?_) fun x hx => ?_
    · obtain ⟨blobid, bserrno⟩ := x
      obtain rfl : bserrno = 0 := hx
      exact (hcb blobid).after (.setSuper blobid) id rfl rfl fun _ => Iff.rfl
    · obtain ⟨blobid, bserrno⟩ := x
      have hne : bserrno ≠ 0 := hx
      intro t o h
      change Free (if bserrno ≠ 0 then cb 0 bserrno else _) t o at h
      rw [if_pos hne] at h
      exact (hcb 0).failed _ hne t o h
  · obtain rfl : x = false := Bool.eq_false_of_not_eq_true hx
    exact (hcb 0).failed _ (by decide)

/-! ### The filesystem -/

theorem good_return (a : β) : Good fun bserrno => do
    cbFn bserrno
    return a := by
  refine good_callback fun bserrno t o h => ?_
  obtain ⟨x, t₁, rfl, hret⟩ := Free.call_iff.mp h
  obtain ⟨rfl, rfl⟩ := Free.ret_iff.mp hret
  exact ⟨[], rfl, .nil, nofun⟩

theorem good_stop (rc : Int) (a : β) : Good fun bserrno => do
    cbFn bserrno
    spdkAppStop rc
    return a := by
  refine good_callback fun bserrno t o h => ?_
  obtain ⟨x, t₁, rfl, hrest⟩ := Free.call_iff.mp h
  obtain ⟨y, t₂, rfl, hret⟩ := Free.call_iff.mp hrest
  obtain ⟨rfl, rfl⟩ := Free.ret_iff.mp hret
  exact ⟨_, rfl, Quiet.nil.cons rfl (Or.inr trivial), nofun⟩

/-- An allocation that is not checked. -/
theorem ends_crashes (r : Request) (hr : r.plain = true) {k : Response r → Async β}
    (hok : ∀ x, r.succeeds x → Ends (k x)) (hfail : ∀ x, ¬ r.succeeds x → k x = .undefined) :
    Ends (.call r k) := by
  intro t o h
  obtain ⟨x, t₁, rfl, hrest⟩ := Free.call_iff.mp h
  by_cases hx : r.succeeds x
  · exact (hok x hx _ _ hrest).cons hr (Or.inr hx)
  · rw [hfail x hx] at hrest
    obtain ⟨rfl, rfl⟩ := Free.undefined_iff.mp hrest
    exact Or.inl ⟨callbacks_plain hr, Or.inl rfl⟩

/-- The loop over the records is quiet, or never comes to its end. -/
theorem buildLoop_quiet {garbage : Nat → Ptr} {readBuff : Option Address} (n : Nat) :
    ∀ {i : Nat} {table : HashTable} {t : Asked} {o : Option (Option HashTable)},
      Free (MountedFs.buildLoop garbage readBuff n i table) t o →
        callbacks t = [] ∧ (o = none ∨ o = some none ∧ ¬ StepsOk .stops t ∨
          (∃ table', o = some (some table')) ∧ Quiet t) := by
  induction n with
  | zero =>
      intro i table t o h
      obtain ⟨rfl, rfl⟩ := Free.ret_iff.mp h
      exact ⟨rfl, Or.inr (Or.inr ⟨⟨table, rfl⟩, .nil⟩)⟩
  | succ n ih =>
      intro i table t o h
      cases readBuff with
      | none =>
          obtain ⟨rfl, rfl⟩ := Free.undefined_iff.mp h
          exact ⟨rfl, Or.inl rfl⟩
      | some buffer =>
          obtain ⟨⟨name, blobid⟩, t₁, rfl, hgot⟩ := Free.request_iff.mp h
          obtain ⟨string, t₂, rfl, hstring⟩ := Free.request_iff.mp hgot
          change Bool at string
          cases string with
          | false =>
              obtain ⟨⟨⟩, t₃, rfl, hrest⟩ := Free.request_iff.mp hstring
              obtain ⟨rfl, rfl⟩ := Free.ret_iff.mp hrest
              refine ⟨rfl, Or.inr (Or.inl ⟨rfl, fun hok => ?_⟩)⟩
              cases (stepsOk_cons.mp (stepsOk_cons.mp hok).2).1 rfl
          | true =>
              obtain ⟨item, t₃, rfl, hrest⟩ := Free.request_iff.mp hstring
              change Bool at item
              cases item with
              | false =>
                  obtain ⟨rfl, rfl⟩ := Free.undefined_iff.mp hrest
                  exact ⟨rfl, Or.inl rfl⟩
              | true =>
                  change Free (ofOption _ >>= _) t₃ o at hrest
                  cases hinsert : htInsert (garbage i) table name (blobid2char blobid) with
                  | none =>
                      rw [hinsert] at hrest
                      obtain ⟨rfl, rfl⟩ := Free.undefined_iff.mp hrest
                      exact ⟨rfl, Or.inl rfl⟩
                  | some table' =>
                      rw [hinsert] at hrest
                      obtain ⟨hcallbacks, hends⟩ := ih hrest
                      refine ⟨hcallbacks, hends.imp_right (Or.imp ?_ ?_)⟩
                      · rintro ⟨ho, hstops⟩
                        refine ⟨ho, fun hok => hstops ?_⟩
                        exact (stepsOk_cons.mp (stepsOk_cons.mp (stepsOk_cons.mp hok).2).2).2
                      · rintro ⟨ho, hquiet⟩
                        refine ⟨ho, ((hquiet.cons rfl (Or.inr ?_)).cons rfl (Or.inr ?_)).cons rfl
                          (Or.inr ?_)⟩
                        all_goals first | rfl | trivial

/-- The loop over the items is quiet, or never comes to its end. -/
theorem writeLoop_quiet {writeBuff : Option Address} {size : UInt64} (items : List HtItem) :
    ∀ {i : Nat} {t : Asked} {o : Option Unit},
      Free (MountedFs.writeLoop writeBuff size i items) t o →
        callbacks t = [] ∧ (o = none ∨ o = some () ∧ Quiet t) := by
  induction items with
  | nil =>
      intro i t o h
      obtain ⟨rfl, rfl⟩ := Free.ret_iff.mp h
      exact ⟨rfl, Or.inr ⟨rfl, .nil⟩⟩
  | cons item items ih =>
      intro i t o h
      cases writeBuff with
      | none =>
          obtain ⟨rfl, rfl⟩ := Free.undefined_iff.mp h
          exact ⟨rfl, Or.inl rfl⟩
      | some buffer =>
          change Free (if _ then _ else _) t o at h
          split at h
          · obtain ⟨⟨⟩, t₁, rfl, hrest⟩ := Free.request_iff.mp h
            obtain ⟨hcallbacks, hends⟩ := ih hrest
            refine ⟨hcallbacks, hends.imp_right ?_⟩
            rintro ⟨ho, hquiet⟩
            exact ⟨ho, hquiet.cons rfl (Or.inr trivial)⟩
          · obtain ⟨rfl, rfl⟩ := Free.undefined_iff.mp h
            exact ⟨rfl, Or.inl rfl⟩

namespace MountedFs

variable (m : MountedFs)

theorem good_failed : Good m.failed := good_stop (-1) m

theorem good_superblobOpenedInit (blb : BlobId) : Good (m.superblobOpenedInit blb) := by
  refine m.good_failed.ite (ends_ignored (.setXattr ..) rfl rfl fun _ => ?_)
  refine ends_crashes .mallocTable rfl (fun x hx => ?_) fun x hx => ?_
  · obtain rfl : x = true := hx
    exact (good_return _).ok
  · obtain rfl : x = false := Bool.eq_false_of_not_eq_true hx
    rfl

theorem good_superblobCreated (blobid : BlobId) : Good (m.superblobCreated blobid) :=
  m.good_failed.ite (ends_open m.good_superblobOpenedInit blobid)

theorem good_bsInitComplete : Good m.bsInitComplete :=
  m.good_failed.ite (ends_createSuperBlob m.good_superblobCreated)

variable (garbage : Nat → Ptr)

theorem ends_buildHtable (readBuff : Option Address) : Ends (m.buildHtable garbage readBuff) := by
  refine ends_checked .mallocMdata rfl rfl (fun x hx => ?_) fun x hx => ?_
  · obtain rfl : x = true := hx
    intro t o h
    change Free (buildLoop .. >>= _) t o at h
    rcases Free.bind_iff.mp h with ⟨table, t₁, t₂, rfl, hloop, hrest⟩ | ⟨hloop, rfl⟩
    · obtain ⟨hcallbacks, hnone | ⟨hstopped, hstops⟩ | ⟨⟨table', htable⟩, hquiet⟩⟩ :=
        buildLoop_quiet _ hloop
      · cases hnone
      · obtain rfl := Option.some.inj hstopped
        obtain ⟨rfl, rfl⟩ := Free.ret_iff.mp hrest
        refine Or.inl ⟨?_, Or.inr fun hok => hstops (stepsOk_append.mp hok).1⟩
        rw [List.append_nil, hcallbacks]
      · obtain rfl := Option.some.inj htable
        exact ((good_return _).ok _ _ hrest).append hquiet
    · exact Or.inl ⟨(buildLoop_quiet _ hloop).1, Or.inl rfl⟩
  · obtain rfl : x = false := Bool.eq_false_of_not_eq_true hx
    exact m.good_failed.failed _ (by decide)

theorem good_superblobRead (readBuff : Option Address) : Good (m.superblobRead garbage readBuff) :=
  m.good_failed.ite (m.ends_buildHtable garbage readBuff)

theorem ends_loadData : Ends (m.loadData garbage) := by
  refine ends_ignored (.getXattr ..) rfl rfl fun _ => ?_
  refine ends_ignored (.spdkMalloc _) rfl rfl fun readBuff => ?_
  exact ends_readSuperBlob (good_superblobRead _ garbage readBuff) _ _ _

theorem good_superblobOpenedLoad (blb : BlobId) : Good (m.superblobOpenedLoad garbage blb) := by
  refine m.good_failed.ite (ends_ignored (.getXattr ..) rfl rfl fun _ => ?_)
  refine ends_crashes .mallocTable rfl (fun x hx => ?_) fun x hx => ?_
  · obtain rfl : x = true := hx
    exact ends_loadData _ garbage
  · obtain rfl : x = false := Bool.eq_false_of_not_eq_true hx
    rfl

theorem good_superblobIdGot (blobid : BlobId) : Good (m.superblobIdGot garbage blobid) :=
  m.good_failed.ite (ends_open (m.good_superblobOpenedLoad garbage) blobid)

theorem good_bsLoadComplete : Good (m.bsLoadComplete garbage) :=
  m.good_failed.ite (ends_getSuper (m.good_superblobIdGot garbage))

theorem good_unloadComplete : Good m.unloadComplete :=
  m.good_failed.ite (good_stop 0 m).ok

theorem good_superblobWritten : Good m.superblobWritten :=
  m.good_failed.ite (m.good_unloadComplete.after .bsUnload id rfl rfl fun _ => Iff.rfl)

theorem ends_writeData (writeBuff : Option Address) : Ends (m.writeData writeBuff) := by
  refine ends_ignored (.setXattr ..) rfl rfl fun _ => ?_
  refine ends_ignored (.setXattr ..) rfl rfl fun _ => ?_
  exact ends_writeSuperBlob m.good_superblobWritten _ _ _

theorem ends_writeHtable (writeBuff : Option Address) : Ends (m.writeHtable writeBuff) := by
  refine ends_checked .mallocMdata rfl rfl (fun x hx => ?_) fun x hx => ?_
  · obtain rfl : x = true := hx
    refine ends_ofOption fun items => ?_
    intro t o h
    change Free (writeLoop .. >>= _) t o at h
    rcases Free.bind_iff.mp h with ⟨⟨⟩, t₁, t₂, rfl, hloop, hrest⟩ | ⟨hloop, rfl⟩
    · obtain ⟨-, hnone | ⟨-, hquiet⟩⟩ := writeLoop_quiet _ hloop
      · cases hnone
      · exact (ends_writeData _ writeBuff _ _ hrest).append hquiet
    · exact Or.inl ⟨(writeLoop_quiet _ hloop).1, Or.inl rfl⟩
  · obtain rfl : x = false := Bool.eq_false_of_not_eq_true hx
    exact m.good_failed.failed _ (by decide)

end MountedFs

/-! ### The operations -/

theorem ends_readFile (blobid : BlobId) (buffer : Address) (length : UInt64) :
    Ends (nbfs2ReadFile blobid buffer length) := by
  refine ends_checked .mallocReadArgs rfl rfl (fun x hx => ?_) fun x hx => ?_
  · obtain ⟨args, rfl⟩ := Option.isSome_iff_exists.mp hx
    exact ends_open (fun blb => funext (rnbOpenComplete_eq _ blb) ▸
      good_rsbOpenComplete good_cbFn _ blb) _
  · obtain rfl : x = none := Option.not_isSome_iff_eq_none.mp hx
    exact good_cbFn.failed _ (by decide)

theorem ends_writeFile (blobid : BlobId) (buffer : Address) (length : UInt64) :
    Ends (nbfs2WriteFile blobid buffer length) := by
  refine ends_checked .mallocWriteArgs rfl rfl (fun x hx => ?_) fun x hx => ?_
  · obtain ⟨args, rfl⟩ := Option.isSome_iff_exists.mp hx
    refine ends_always .clusterSize rfl (fun _ => trivial) fun clusterSize => ?_
    refine ends_always .ioUnitSize rfl (fun _ => trivial) fun ioUnitSize => ?_
    exact ends_open (fun blb => funext (wnbOpenComplete_eq _ blb) ▸
      good_wsbOpenComplete good_cbFn _ blb) _
  · obtain rfl : x = none := Option.not_isSome_iff_eq_none.mp hx
    exact good_cbFn.failed _ (by decide)

theorem ends_createFile (garbage : Ptr) (fs : Filesystem) (filename : CString) :
    Ends (nbfs2CreateFile garbage fs filename) := by
  have hfailed : Good fun bserrno => do
      cbFn bserrno
      spdkAppStop (-1)
      return fs := good_stop (-1) fs
  refine ends_checked .mallocFile rfl rfl (fun x hx => ?_) fun x hx => ?_
  · obtain rfl : x = true := hx
    refine ends_checked .createBlob rfl rfl (fun x hx => ?_) fun x hx => ?_
    · obtain ⟨blobid, bserrno⟩ := x
      obtain rfl : bserrno = 0 := hx
      refine ends_crashes .mallocItem rfl (fun x hx => ?_) fun x hx => ?_
      · obtain rfl : x = true := hx
        exact ends_ofOption fun table => (good_return _).ok
      · obtain rfl : x = false := Bool.eq_false_of_not_eq_true hx
        rfl
    · obtain ⟨blobid, bserrno⟩ := x
      have hne : bserrno ≠ 0 := hx
      intro t o h
      change Free (nbfs2FileCreated garbage fs filename blobid bserrno) t o at h
      rw [nbfs2FileCreated, if_pos hne] at h
      exact hfailed.failed bserrno hne t o h
  · obtain rfl : x = false := Bool.eq_false_of_not_eq_true hx
    exact hfailed.failed _ (by decide)

/-- What an operation leaves does not matter. -/
theorem Ends.discard {p : Async β} (hp : Ends p) : Ends (do let _ ← p) := by
  intro t o h
  rcases Free.bind_iff.mp h with ⟨a, t₁, t₂, rfl, hfirst, hret⟩ | ⟨hfirst, rfl⟩
  · obtain ⟨rfl, rfl⟩ := Free.ret_iff.mp hret
    rw [List.append_nil]
    exact (hp _ _ hfirst).imp (And.imp_right (Or.imp_left nofun)) (And.imp_left fun _ => nofun)
  · exact (hp _ _ hfirst).imp (And.imp_right fun _ => Or.inl rfl) fun h => absurd rfl h.1

/-- The operation is to delete a file. -/
def Op.isDelete : Op → Bool
  | delete .. => true
  | _ => false

theorem Op.ends {op : Op} (h : op.isDelete = false) : Ends op.run := by
  cases op with
  | build garbage m buildMthd =>
      refine Ends.discard ?_
      cases buildMthd with
      | init => exact m.good_bsInitComplete.after .bsInit id rfl rfl fun _ => Iff.rfl
      | load => exact (m.good_bsLoadComplete garbage).after .bsLoad id rfl rfl fun _ => Iff.rfl
  | create garbage fs filename => exact (ends_createFile garbage fs filename).discard
  | delete fs filename => cases h
  | read blobid buffer length => exact ends_readFile blobid buffer length
  | write blobid buffer length => exact ends_writeFile blobid buffer length
  | unload m =>
      refine Ends.discard (ends_ignored (.spdkMalloc _) rfl rfl fun writeBuff => ?_)
      exact m.ends_writeHtable writeBuff

end Nbfs.Nbfs2
