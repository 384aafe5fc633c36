import Nbfs.Nbfs2.CallsBackOnce
import Mathlib.Algebra.BigOperators.Group.List.Basic
import Mathlib.Algebra.Group.Int.Defs
import Mathlib.Algebra.Group.Pi.Basic
import Mathlib.Algebra.Group.Prod
import Mathlib.Algebra.Order.Group.Int
import Mathlib.Algebra.Order.Pi

set_option autoImplicit false

/-!
# What is open when the caller is called back

Each request opens at most one blob and allocates one io channel for itself; building
opens the superblob for as long as the filesystem is used.  What a run holds is the sum
over its steps.
-/

namespace Nbfs.Nbfs2

open Nbfs.Lib Conv

/-- `EBUSY`. -/
def ebusy : Int := 16

/-- A call that succeeded counts. -/
def succeeded (rc : Int) : Int := if rc = 0 then 1 else 0

/-- The blobs and io channels that a step opens; it gives back what is negative. -/
def Request.holds : (r : Request) → Response r → (BlobId → Int) × Int
  | .openBlob _, x => (Pi.single (Prod.fst x) (succeeded (Prod.snd x)), 0)
  | .closeBlob blob, rc => (-Pi.single blob (succeeded rc), 0)
  | .allocIoChannel, channel => (0, Bool.toInt channel)
  | .freeIoChannel, _ => (0, -1)
  | _, _ => 0

/-- How often each blob is open, and how many io channels are allocated. -/
def held (t : Asked) : (BlobId → Int) × Int := (t.map fun x => x.1.holds x.2).sum

/-- No blob was opened. -/
def NoneOpened (t : Asked) : Prop :=
  ∀ (id blob : BlobId), (⟨.openBlob id, (blob, (0 : Int))⟩ : (r : Request) × Response r) ∉ t

/-- `spdk_bs_unload` refuses while a blob is open. -/
def RefusesWhileOpen (t : Asked) : Prop :=
  ∀ t₁ t₂ (rc : Int) (blob : BlobId), t = t₁ ++ ⟨.bsUnload, rc⟩ :: t₂ → 0 < (held t₁).1 blob →
    rc = -ebusy

/-! ### Traces piece by piece -/

section traces

variable {u v : Asked} {r : Request} {x : Response r}

theorem held_append : held (u ++ v) = held u + held v := by
  rw [held, List.map_append, List.sum_append]
  rfl

theorem held_one : held [⟨r, x⟩] = r.holds x := by
  simp [held]

theorem noneOpened_append : NoneOpened (u ++ v) ↔ NoneOpened u ∧ NoneOpened v := by
  simp only [NoneOpened, List.mem_append, not_or, forall_and]

/-- After steps that are checked and succeeded, it is the rest that counts. -/
theorem checkedOk_append (h : CheckedOk u) : CheckedOk (u ++ v) ↔ CheckedOk v := by
  unfold CheckedOk
  rw [stepsOk_append, resized_append, counted_append, h.2, Nat.add_left_cancel_iff]
  exact and_congr_left fun _ => and_iff_right h.1

theorem checkedOk_one (hr : r.plain = true) :
    CheckedOk [⟨r, x⟩] ↔ (r.check = .checked → r.succeeds x) := by
  unfold CheckedOk
  rw [stepsOk_cons, resized_plain hr, counted_plain hr]
  constructor
  · intro h
    exact h.1.1
  · intro h
    exact ⟨⟨h, nofun⟩, rfl⟩

end traces

/-! ### How far a request has come -/

section stages

variable {blob : BlobId} {channels more : Int} {u v : Asked}

/-- Nothing was opened. -/
structure Untouched (u : Asked) : Prop where
  held : held u = 0
  opened : NoneOpened u

/-- Nothing was opened, and nothing failed. -/
structure Ready (u : Asked) : Prop extends Untouched u where
  checked : CheckedOk u

/-- A blob was opened and is held, with so many io channels; nothing failed. -/
structure Holding (blob : BlobId) (channels : Int) (u : Asked) : Prop where
  held : held u = (Pi.single blob 1, channels)
  opened : ¬ NoneOpened u
  checked : CheckedOk u

/-- A request that ends gave its blob back if nothing failed, and keeps it otherwise. -/
def Exits (u : Asked) : Prop :=
  Untouched u ∨ ¬ NoneOpened u ∧ (held u = 0 ∧ CheckedOk u ∨
    ¬ CheckedOk u ∧ 0 ≤ (held u).1 ∧ ∃ blob, 0 < (held u).1 blob)

/-- Where a step came back with `rc`: an error is passed to the exit. -/
structure After (blob : BlobId) (channels : Int) (u : Asked) (rc : Int) : Prop where
  ok : rc = 0 → Holding blob channels u
  failed : rc ≠ 0 → Exits u

theorem Untouched.append (h : Untouched u) (hv : Untouched v) : Untouched (u ++ v) := by
  refine ⟨?_, noneOpened_append.mpr ⟨h.opened, hv.opened⟩⟩
  rw [held_append, h.held, hv.held, add_zero]

/-- A step that opens nothing. -/
theorem untouched_one {r : Request} {x : Response r} (hheld : r.holds x = 0)
    (hopen : ∀ id blob, (⟨r, x⟩ : (r : Request) × Response r) ≠ ⟨.openBlob id, (blob, (0 : Int))⟩) :
    Untouched [⟨r, x⟩] := by
  refine ⟨held_one.trans hheld, fun id blob hmem => ?_⟩
  exact hopen id blob (List.mem_singleton.mp hmem).symm

/-- A step that opens nothing and succeeds. -/
theorem Ready.next (h : Ready u) (r : Request) (x : Response r) (hheld : r.holds x = 0)
    (hopen : ∀ id blob, (⟨r, x⟩ : (r : Request) × Response r) ≠ ⟨.openBlob id, (blob, (0 : Int))⟩)
    (hr : r.plain = true) (hx : r.check = .checked → r.succeeds x) : Ready (u ++ [⟨r, x⟩]) :=
  ⟨h.toUntouched.append (untouched_one hheld hopen),
    (checkedOk_append h.checked).mpr ((checkedOk_one hr).mpr hx)⟩

/-- Steps that open no blob, and of which none failed. -/
theorem Holding.append (h : Holding blob channels u) (hheld : Nbfs2.held v = (0, more))
    (hv : CheckedOk v) : Holding blob (channels + more) (u ++ v) := by
  refine ⟨?_, fun hnone => h.opened (noneOpened_append.mp hnone).1,
    (checkedOk_append h.checked).mpr hv⟩
  rw [held_append, h.held, hheld, Prod.mk_add_mk, add_zero]

/-- A step that opens nothing and can not fail. -/
theorem Holding.next (h : Holding blob channels u) (r : Request) (x : Response r)
    (hheld : r.holds x = 0) (hr : r.plain = true) (hx : r.succeeds x) :
    Holding blob channels (u ++ [⟨r, x⟩]) := by
  rw [← add_zero channels]
  exact h.append (held_one.trans hheld) ((checkedOk_one hr).mpr fun _ => hx)

/-- Such steps when one of them failed. -/
theorem Holding.fails (h : Holding blob channels u) (hheld : (Nbfs2.held v).1 = 0)
    (hv : ¬ CheckedOk v) : Exits (u ++ v) := by
  have hblobs : (Nbfs2.held (u ++ v)).1 = Pi.single blob 1 := by
    rw [held_append, Prod.fst_add, hheld, add_zero, h.held]
  refine Or.inr ⟨fun hnone => h.opened (noneOpened_append.mp hnone).1, Or.inr ⟨?_, ?_, blob, ?_⟩⟩
  · exact mt (checkedOk_append h.checked).mp hv
  · rw [hblobs]
    exact Pi.single_nonneg.mpr zero_le_one
  · rw [hblobs, Pi.single_eq_same]
    exact one_pos

/-- A step that is checked. -/
theorem Holding.after (h : Holding blob channels u) {r : Request} {x : Response r} {rc : Int}
    (hheld : r.holds x = 0) (hr : r.plain = true) (hcheck : r.check = .checked)
    (hx : r.succeeds x ↔ rc = 0) : After blob channels (u ++ [⟨r, x⟩]) rc where
  ok hrc := h.next r x hheld hr (hx.mpr hrc)
  failed hrc := by
    refine h.fails (congrArg Prod.fst (held_one.trans hheld)) fun hok => hrc (hx.mp ?_)
    exact (checkedOk_one hr).mp hok hcheck

theorem untouched_refused {id : BlobId} {rc : Int} (hrc : rc ≠ 0) :
    Untouched [⟨.openBlob id, (blob, rc)⟩] := by
  refine untouched_one ?_ fun id' blob' heq => hrc ?_
  · have hzero : (Pi.single blob (succeeded rc) : BlobId → Int) = 0 := by
      rw [succeeded, if_neg hrc, Pi.single_zero]
    exact Prod.ext hzero rfl
  · cases heq
    rfl

theorem ready_nil : Ready [] := ⟨⟨rfl, nofun⟩, nofun, rfl⟩

/-- The blob is opened. -/
theorem Ready.opens (h : Ready u) (id : BlobId) (rc : Int) :
    After blob 0 (u ++ [⟨.openBlob id, (blob, rc)⟩]) rc := by
  have hheld : Request.holds (.openBlob id) (blob, rc) = (Pi.single blob (succeeded rc), 0) := rfl
  refine ⟨fun hrc => ⟨?_, fun hnone => ?_, ?_⟩, fun hrc =>
    Or.inl (h.toUntouched.append (untouched_refused hrc))⟩
  · rw [held_append, h.held, zero_add]
    refine held_one.trans ?_
    rw [hheld, hrc]
    rfl
  · exact (noneOpened_append.mp hnone).2 id blob (hrc ▸ List.mem_singleton_self _)
  · exact (checkedOk_append h.checked).mpr ((checkedOk_one rfl).mpr fun _ => hrc)

/-- The blob is closed. -/
theorem Holding.closes (h : Holding blob 0 u) (rc : Int) :
    Exits (u ++ [⟨.closeBlob blob, rc⟩]) := by
  have hheld : Request.holds (.closeBlob blob) rc = (-Pi.single blob (succeeded rc), 0) := rfl
  by_cases hrc : rc = 0
  · refine Or.inr ⟨fun hnone => h.opened (noneOpened_append.mp hnone).1, Or.inl ⟨?_, ?_⟩⟩
    · rw [held_append, h.held]
      refine (congrArg _ (held_one.trans hheld)).trans ?_
      rw [hrc]
      exact Prod.ext (add_neg_cancel _) rfl
    · exact (checkedOk_append h.checked).mpr ((checkedOk_one rfl).mpr fun _ => hrc)
  · refine h.fails ?_ fun hok => hrc ((checkedOk_one rfl).mp hok rfl)
    refine (congrArg Prod.fst (held_one.trans hheld)).trans ?_
    rw [succeeded, if_neg hrc, Pi.single_zero, neg_zero]

/-- What ends has not closed what it did not open. -/
theorem Exits.nonneg (h : Exits u) : 0 ≤ (held u).1 := by
  rcases h with h | ⟨-, ⟨h, -⟩ | ⟨-, h, -⟩⟩
  · exact (congrArg Prod.fst h.held).ge
  · exact (congrArg Prod.fst h).ge
  · exact h

end stages

/-! ### What the callbacks do -/

/-- The caller is called back where `P` holds, and only a blob that is open is closed. -/
def Watched (P : Asked → Prop) (s : Asked) : Request → Prop
  | .callback _ => P s
  | .closeBlob blob => 0 < (held s).1 blob
  | _ => True

/-- A request of which `Watched` says nothing. -/
def Request.silent : Request → Bool
  | callback _ | closeBlob _ => false
  | _ => true

section programs

variable {β : Type} {P : Asked → Prop} {post : β → Asked → Prop} {s u : Asked}

/-- Whatever is answered, the program calls back and closes blobs only as it should. -/
abbrev Tells (P : Asked → Prop) (post : β → Asked → Prop) (p : Async β) (s : Asked) : Prop :=
  Asks remembers (Watched P) post p s

theorem tells_request {r : Request} {k : Response r → Async β} (hr : Watched P s r)
    (hk : ∀ x, Tells P post (k x) (s ++ [⟨r, x⟩])) :
    Tells P post (Conv.request r >>= k) s :=
  Asks.request_iff.mpr ⟨hr, fun x _ h => h ▸ hk x⟩

theorem watched_silent {r : Request} (hr : r.silent = true) : Watched P s r := by
  cases r <;> trivial

/-- One more step of a request, after what it had done in `u`. -/
theorem tells_next (r : Request) {k : Response r → Async β} (hr : r.silent = true)
    (hk : ∀ x, Tells P post (k x) (s ++ (u ++ [⟨r, x⟩]))) :
    Tells P post (Conv.request r >>= k) (s ++ u) :=
  tells_request (watched_silent hr) fun x => List.append_assoc .. ▸ hk x

/-- Opening a blob, and going on with it. -/
theorem tells_openBlob (hu : Ready u) (id : BlobId) {f : BlobId → Int → Async β}
    (hf : ∀ blb rc u, After blb 0 u rc → Tells P post (f blb rc) (s ++ u)) :
    Tells P post (do
      let (blb, rc) ← spdkBsOpenBlob id
      f blb rc) (s ++ u) :=
  tells_next (.openBlob id) rfl fun x => hf x.1 x.2 _ (hu.opens id x.2)

/-- Asking for the superblob, and going on with it. -/
theorem tells_getSuper (hu : Ready u) {f : BlobId → Int → Async β}
    (hf : ∀ blobid rc u, (rc = 0 → Ready u) → (rc ≠ 0 → Untouched u) →
      Tells P post (f blobid rc) (s ++ u)) :
    Tells P post (do
      let (blobid, rc) ← spdkBsGetSuper
      f blobid rc) (s ++ u) := by
  refine tells_next .getSuper rfl fun x => hf x.1 x.2 _ (fun hrc => ?_) fun _ => ?_
  · exact hu.next .getSuper x rfl nofun rfl fun _ => hrc
  · exact hu.toUntouched.append (untouched_one rfl nofun)

variable {cb : Int → Async β} (hcb : ∀ rc u, Exits u → Tells P post (cb rc) (s ++ u))

include hcb

/-- Once the blob is open, a channel is allocated or the request ends. -/
theorem tells_allocIoChannel {blob : BlobId} (hu : Holding blob 0 u) {k : Bool → Async β}
    (hk : ∀ u, Holding blob 1 u → Tells P post (k true) (s ++ u)) :
    Tells P post (do
      let channel ← spdkBsAllocIoChannel
      if channel = false then
        cb (-enomem)
      else
        k channel) (s ++ u) := by
  refine tells_next .allocIoChannel rfl fun channel => ?_
  change Bool at channel
  cases channel with
  | false =>
      refine hcb _ _ (hu.fails (congrArg Prod.fst (held_one (r := .allocIoChannel))) fun hok => ?_)
      cases (checkedOk_one rfl).mp hok rfl
  | true =>
      exact hk _ (hu.append (held_one (r := .allocIoChannel))
        ((checkedOk_one rfl).mpr fun _ => rfl))

variable (hs : 0 ≤ (held s).1)

include hs

/-- Giving the channel back and closing the blob ends a request. -/
theorem tells_close {blob : BlobId} (hu : Holding blob 1 u) :
    Tells P post (do
      spdkBsFreeIoChannel
      let rc ← spdkBlobClose blob
      cb rc) (s ++ u) := by
  refine tells_next .freeIoChannel rfl fun x => ?_
  have hfree : Holding blob 0 (u ++ [⟨.freeIoChannel, x⟩]) :=
    hu.append (held_one (r := .freeIoChannel)) ((checkedOk_one rfl).mpr fun _ => trivial)
  refine tells_request ?_ fun rc => ?_
  · have hblobs : (held (s ++ (u ++ [⟨.freeIoChannel, x⟩]))).1 = (held s).1 + Pi.single blob 1 := by
      rw [held_append, Prod.fst_add, hfree.held]
    change 0 < (held _).1 blob
    rw [hblobs, Pi.add_apply, Pi.single_eq_same]
    exact Int.lt_add_one_of_le (hs blob)
  · rw [List.append_assoc]
    exact hcb rc _ (hfree.closes rc)

theorem tells_wsbWriteComplete {args : WriteArgs} {bserrno : Int} (hchannel : args.channel = true)
    (hu : After args.blob 1 u bserrno) :
    Tells P post (wsbWriteComplete args cb bserrno) (s ++ u) := by
  unfold wsbWriteComplete
  split
  next hfail => exact hcb _ _ (hu.failed hfail)
  next hok =>
    exact tells_close hcb hs (hu.ok (not_not.mp hok))

theorem tells_wsbWrite {args : WriteArgs} (hchannel : args.channel = true)
    (hu : Holding args.blob 1 u) : Tells P post (wsbWrite args cb) (s ++ u) := by
  refine tells_next (.ioWrite args.blob args.payload args.offset args.length) rfl fun rc => ?_
  exact tells_wsbWriteComplete hcb hs hchannel (hu.after rfl rfl rfl Iff.rfl)

theorem tells_wsbSyncComplete {args : WriteArgs} {bserrno : Int} (hchannel : args.channel = true)
    (hu : After args.blob 1 u bserrno) :
    Tells P post (wsbSyncComplete args cb bserrno) (s ++ u) := by
  unfold wsbSyncComplete
  split
  next hfail => exact hcb _ _ (hu.failed hfail)
  next hok => exact tells_wsbWrite hcb hs hchannel (hu.ok (not_not.mp hok))

theorem tells_wsbResizeComplete {args : WriteArgs} {bserrno : Int}
    (hchannel : args.channel = true) (hu : After args.blob 1 u bserrno) :
    Tells P post (wsbResizeComplete args cb bserrno) (s ++ u) := by
  unfold wsbResizeComplete
  split
  next hfail => exact hcb _ _ (hu.failed hfail)
  next hok =>
    refine tells_next (.numClusters args.blob) rfl fun clusters => ?_
    refine tells_next (.syncMd args.blob) rfl fun rc => ?_
    have hcounted := (hu.ok (not_not.mp hok)).next (.numClusters args.blob) clusters rfl rfl trivial
    exact tells_wsbSyncComplete hcb hs hchannel (hcounted.after rfl rfl rfl Iff.rfl)

/-- Where the blob is too small, it is resized if there are enough free clusters. -/
theorem tells_resize {args : WriteArgs} {clusters more : UInt64} (hchannel : args.channel = true)
    (hu : Holding args.blob 1 u) :
    Tells P post (do
      let free ← spdkBsFreeClusterCount
      if free < more then
        cb (-enospc)
      else
        let rc ← spdkBlobResize args.blob (clusters + more)
        wsbResizeComplete args cb rc) (s ++ u) := by
  refine tells_next .freeClusterCount rfl fun free => ?_
  split
  · refine hcb _ _ (hu.fails rfl fun hok => ?_)
    cases hok.2
  · refine tells_next (.resize args.blob (clusters + more)) rfl fun rc => ?_
    rw [List.append_assoc]
    refine tells_wsbResizeComplete hcb hs hchannel ⟨fun hrc => ?_, fun hrc => ?_⟩
    · refine hu.append (show Nbfs2.held _ = ((0 : BlobId → Int), (0 : Int)) from rfl) ⟨?_, rfl⟩
      exact stepsOk_cons.mpr ⟨fun _ => trivial, stepsOk_cons.mpr ⟨fun _ => hrc, nofun⟩⟩
    · refine hu.fails rfl fun hok => hrc ?_
      exact (stepsOk_cons.mp (stepsOk_cons.mp hok.1).2).1 rfl

theorem tells_wsbOpenComplete {args : WriteArgs} {blb : BlobId} {bserrno : Int}
    (hu : After blb 0 u bserrno) :
    Tells P post (wsbOpenComplete args cb blb bserrno) (s ++ u) := by
  unfold wsbOpenComplete
  split
  next hfail => exact hcb _ _ (hu.failed hfail)
  next hok =>
    refine tells_allocIoChannel hcb (hu.ok (not_not.mp hok)) fun u hu => ?_
    refine tells_next (.numClusters blb) rfl fun clusters => ?_
    refine tells_next (.numIoUnits blb) rfl fun ioUnits => ?_
    have hcounted := (hu.next (.numClusters blb) clusters rfl rfl trivial).next
      (.numIoUnits blb) ioUnits rfl rfl trivial
    split
    · exact tells_resize hcb hs rfl hcounted
    · exact tells_wsbWrite hcb hs rfl hcounted

theorem tells_rsbReadComplete {args : ReadArgs} {bserrno : Int} (hchannel : args.channel = true)
    (hu : After args.blob 1 u bserrno) :
    Tells P post (rsbReadComplete args cb bserrno) (s ++ u) := by
  unfold rsbReadComplete
  split
  next hfail => exact hcb _ _ (hu.failed hfail)
  next hok =>
    exact tells_close hcb hs (hu.ok (not_not.mp hok))

theorem tells_rsbOpenComplete {args : ReadArgs} {blb : BlobId} {bserrno : Int}
    (hu : After blb 0 u bserrno) :
    Tells P post (rsbOpenComplete args cb blb bserrno) (s ++ u) := by
  unfold rsbOpenComplete
  split
  next hfail => exact hcb _ _ (hu.failed hfail)
  next hok =>
    refine tells_allocIoChannel hcb (hu.ok (not_not.mp hok)) fun u hu => ?_
    refine tells_next (.ioRead blb args.payload args.offset args.length) rfl fun rc => ?_
    exact tells_rsbReadComplete hcb hs rfl (hu.after rfl rfl rfl Iff.rfl)

theorem tells_wsbSuperBlobidGot {args : WriteArgs} {blobid : BlobId} {bserrno : Int}
    (hok : bserrno = 0 → Ready u) (hfailed : bserrno ≠ 0 → Untouched u) :
    Tells P post (wsbSuperBlobidGot args cb blobid bserrno) (s ++ u) := by
  unfold wsbSuperBlobidGot
  split
  next hne => exact hcb _ _ (Or.inl (hfailed hne))
  next heq =>
    exact tells_openBlob (hok (not_not.mp heq)) blobid fun blb rc u hu =>
      tells_wsbOpenComplete hcb hs hu

theorem tells_writeSuperBlob (payload : Address) (offset length : UInt64) :
    Tells P post (writeSuperBlob payload offset length cb) s := by
  rw [← List.append_nil s]
  refine tells_next .mallocWriteArgs rfl fun block => ?_
  change Option WriteArgs at block
  cases block with
  | none => exact hcb _ _ (Or.inl (untouched_one rfl nofun))
  | some args =>
      refine tells_next .clusterSize rfl fun clusterSize => ?_
      refine tells_next .ioUnitSize rfl fun ioUnitSize => ?_
      refine tells_getSuper ?_ fun blobid rc u => tells_wsbSuperBlobidGot hcb hs
      have hmalloc := ready_nil.next .mallocWriteArgs (some args) rfl nofun rfl fun _ => rfl
      have hcluster := hmalloc.next .clusterSize clusterSize rfl nofun rfl fun _ => trivial
      exact hcluster.next .ioUnitSize ioUnitSize rfl nofun rfl fun _ => trivial

theorem tells_rsbSuperBlobidGot {args : ReadArgs} {blobid : BlobId} {bserrno : Int}
    (hok : bserrno = 0 → Ready u) (hfailed : bserrno ≠ 0 → Untouched u) :
    Tells P post (rsbSuperBlobidGot args cb blobid bserrno) (s ++ u) := by
  unfold rsbSuperBlobidGot
  split
  next hne => exact hcb _ _ (Or.inl (hfailed hne))
  next heq =>
    exact tells_openBlob (hok (not_not.mp heq)) blobid fun blb rc u hu =>
      tells_rsbOpenComplete hcb hs hu

theorem tells_readSuperBlob (payload : Address) (offset length : UInt64) :
    Tells P post (readSuperBlob payload offset length cb) s := by
  rw [← List.append_nil s]
  refine tells_next .mallocReadArgs rfl fun block => ?_
  change Option ReadArgs at block
  cases block with
  | none => exact hcb _ _ (Or.inl (untouched_one rfl nofun))
  | some args =>
      refine tells_getSuper ?_ fun blobid rc u => tells_rsbSuperBlobidGot hcb hs
      exact ready_nil.next .mallocReadArgs (some args) rfl nofun rfl fun _ => rfl

end programs

end Nbfs.Nbfs2
