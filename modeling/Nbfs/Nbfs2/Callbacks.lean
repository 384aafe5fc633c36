import Nbfs.Nbfs2.Mount

set_option autoImplicit false

/-!
# Each request calls back once

Every operation should call the caller's `cb_fn` exactly once, with 0 if and only if
every call of the blobstore and every allocation that it made succeeded.
-/

namespace Nbfs.Nbfs2

open Nbfs.Lib Conv

/-- An asynchronous operation, with the state it starts in. -/
inductive Op where
  | build (garbage : Nat → Ptr) (m : MountedFs) (buildMthd : FsBuildMethod)
  | create (garbage : Ptr) (fs : Filesystem) (filename : CString)
  | delete (fs : Filesystem) (filename : CString)
  | read (blobid : BlobId) (buffer : Address) (length : UInt64)
  | write (blobid : BlobId) (buffer : Address) (length : UInt64)
  | unload (m : MountedFs)

/-- Run the operation to its end; what it leaves does not matter here. -/
def Op.run : Op → Async Unit
  | build garbage m buildMthd => do let _ ← nbfs2BuildFs garbage m buildMthd
  | create garbage fs filename => do let _ ← nbfs2CreateFile garbage fs filename
  | delete fs filename => do let _ ← nbfs2DeleteFile fs filename
  | read blobid buffer length => nbfs2ReadFile blobid buffer length
  | write blobid buffer length => nbfs2WriteFile blobid buffer length
  | unload m => do let _ ← nbfs2UnloadFs m

/-- What the code does when a step fails. -/
inductive Check where
  /-- It goes to an error exit, which calls back. -/
  | checked
  /-- It goes on. -/
  | ignored
  /-- It uses NULL. -/
  | crashes
  /-- It stops the application. -/
  | stops
  deriving DecidableEq

def Request.check : Request → Check
  | setXattr .. | getXattr .. | spdkMalloc _ => .ignored
  | mallocTable | mallocItem => .crashes
  | mallocBlobidString => .stops
  | _ => .checked

/-- The step succeeded. -/
def Request.succeeds : (r : Request) → Response r → Prop
  | .bsInit, rc | .bsLoad, rc | .bsUnload, rc | .setSuper _, rc | .setXattr .., rc
  | .deleteBlob _, rc | .closeBlob _, rc | .syncMd _, rc | .resize .., rc | .ioWrite .., rc
  | .ioRead .., rc => rc = (0 : Int)
  | .getSuper, x | .createBlob, x | .openBlob _, x => Prod.snd x = (0 : Int)
  | .getXattr .., x => Prod.fst x = (0 : Int)
  | .allocIoChannel, b | .mallocFile, b | .mallocCreateArgs, b | .mallocMdata, b
  | .mallocBlobidString, b | .mallocTable, b | .mallocItem, b => b = true
  | .mallocWriteArgs, block => Option.isSome block = true
  | .mallocReadArgs, block => Option.isSome block = true
  | .spdkMalloc _, buffer => Option.isSome buffer = true
  | _, _ => True

abbrev Asked := Trace Response

/-- The errors the caller was called back with. -/
def callbacks : Asked → List Int :=
  Trace.asked fun | .callback bserrno => some bserrno | _ => none

/-- How often the free clusters were counted, and how often a blob was resized: not so
often where there were too few. -/
def counted (t : Asked) : Nat :=
  (Trace.asked (fun | .freeClusterCount => some () | _ => none) t).length

def resized (t : Asked) : Nat :=
  (Trace.asked (fun | .resize .. => some () | _ => none) t).length

/-- The steps that the code checks in this way succeeded. -/
def StepsOk (check : Check) (t : Asked) : Prop :=
  ∀ x ∈ t, x.1.check = check → x.1.succeeds x.2

/-- No step failed that has an error exit, and there were enough free clusters. -/
def CheckedOk (t : Asked) : Prop := StepsOk .checked t ∧ resized t = counted t

/-- Every step succeeded, and there were enough free clusters. -/
def AllSucceed (t : Asked) : Prop := (∀ x ∈ t, x.1.succeeds x.2) ∧ resized t = counted t

section traces

variable {t t' : Asked} {check : Check} {r : Request} {x : Response r}

theorem stepsOk_cons : StepsOk check (⟨r, x⟩ :: t) ↔
    (r.check = check → r.succeeds x) ∧ StepsOk check t :=
  List.forall_mem_cons

theorem stepsOk_append : StepsOk check (t ++ t') ↔ StepsOk check t ∧ StepsOk check t' :=
  List.forall_mem_append

theorem callbacks_append : callbacks (t ++ t') = callbacks t ++ callbacks t' := Trace.asked_append

theorem counted_append : counted (t ++ t') = counted t + counted t' := by
  simp [counted]

theorem resized_append : resized (t ++ t') = resized t + resized t' := by
  simp [resized]

/-- A request that neither calls back nor is counted. -/
def Request.plain : Request → Bool
  | callback _ | freeClusterCount | resize .. => false
  | _ => true

theorem callbacks_plain (h : r.plain = true) : callbacks (⟨r, x⟩ :: t) = callbacks t := by
  cases r <;> first | rfl | cases h

theorem counted_plain (h : r.plain = true) : counted (⟨r, x⟩ :: t) = counted t := by
  cases r <;> first | rfl | cases h

theorem resized_plain (h : r.plain = true) : resized (⟨r, x⟩ :: t) = resized t := by
  cases r <;> first | rfl | cases h

end traces

/-! ### The rest of an operation -/

section outcomes

variable {β : Type} {t t' : Asked} {o : Option β} {r : Request} {x : Response r}

/-- What the rest of an operation does: it comes to no callback, or it calls back once and
says whether a step failed that is checked. -/
def Outcome (t : Asked) (o : Option β) : Prop :=
  callbacks t = [] ∧ (o = none ∨ ¬ StepsOk .stops t) ∨
    o ≠ none ∧ StepsOk .stops t ∧ StepsOk .crashes t ∧
      ∃ bserrno, callbacks t = [bserrno] ∧ (bserrno = 0 ↔ CheckedOk t)

/-- What an error exit does. -/
structure Fails (t : Asked) (o : Option β) : Prop where
  ends : o ≠ none
  stops : StepsOk .stops t
  crashes : StepsOk .crashes t
  count : resized t = counted t
  callback : ∃ bserrno, callbacks t = [bserrno] ∧ bserrno ≠ 0

/-- A part without a callback, in which nothing failed that is checked. -/
structure Quiet (t : Asked) : Prop where
  callbacks : callbacks t = []
  count : resized t = counted t
  checked : StepsOk .checked t
  stops : StepsOk .stops t
  crashes : StepsOk .crashes t

theorem Quiet.nil : Quiet [] := ⟨rfl, rfl, nofun, nofun, nofun⟩

theorem Quiet.cons (h : Quiet t) (hr : r.plain = true) (hx : r.check = .ignored ∨ r.succeeds x) :
    Quiet (⟨r, x⟩ :: t) := by
  have hok : ∀ check, check ≠ .ignored → r.check = check → r.succeeds x := by
    intro check hcheck heq
    refine hx.resolve_left fun hignored => ?_
    exact hcheck (heq.symm.trans hignored)
  refine ⟨(callbacks_plain hr).trans h.callbacks, ?_, ?_, ?_, ?_⟩
  · rw [resized_plain hr, counted_plain hr, h.count]
  · exact stepsOk_cons.mpr ⟨hok _ nofun, h.checked⟩
  · exact stepsOk_cons.mpr ⟨hok _ nofun, h.stops⟩
  · exact stepsOk_cons.mpr ⟨hok _ nofun, h.crashes⟩

theorem Outcome.append (h : Outcome t' o) (hquiet : Quiet t) : Outcome (t ++ t') o := by
  unfold Outcome CheckedOk at *
  rw [callbacks_append, hquiet.callbacks, List.nil_append]
  simp only [stepsOk_append, hquiet.stops, hquiet.crashes, hquiet.checked, true_and,
    resized_append, counted_append, hquiet.count, Nat.add_left_cancel_iff]
  exact h

/-- A step that succeeds, or whose failure is ignored. -/
theorem Outcome.cons (h : Outcome t o) (hr : r.plain = true)
    (hx : r.check = .ignored ∨ r.succeeds x) : Outcome (⟨r, x⟩ :: t) o :=
  h.append (Quiet.nil.cons hr hx)

/-- A step that fails and is checked. -/
theorem Fails.cons (h : Fails t o) (hr : r.plain = true) (hcheck : r.check = .checked)
    (hx : ¬ r.succeeds x) : Outcome (⟨r, x⟩ :: t) o := by
  obtain ⟨bserrno, hcallback, hne⟩ := h.callback
  have hpass : ∀ check, check ≠ .checked → r.check = check → r.succeeds x :=
    fun check hne heq => absurd (heq.symm.trans hcheck) hne
  refine Or.inr ⟨h.ends, ?_, ?_, bserrno, (callbacks_plain hr).trans hcallback, ?_⟩
  · exact stepsOk_cons.mpr ⟨hpass _ nofun, h.stops⟩
  · exact stepsOk_cons.mpr ⟨hpass _ nofun, h.crashes⟩
  · exact iff_of_false hne fun hok => hx ((stepsOk_cons.mp hok.1).1 hcheck)

/-- Whatever is answered, the program comes to such an outcome. -/
def Ends (p : Async β) : Prop := ∀ t o, Free p t o → Outcome t o

/-- Whatever is answered, the program is an error exit. -/
def Aborts (p : Async β) : Prop := ∀ t o, Free p t o → Fails t o

/-- A function that goes on with a `bserrno`: with an error it goes to an error exit. -/
structure Good (f : Int → Async β) : Prop where
  ok : Ends (f 0)
  failed : ∀ bserrno, bserrno ≠ 0 → Aborts (f bserrno)

theorem ends_undefined : Ends (.undefined : Async β) := by
  intro t o h
  obtain ⟨rfl, rfl⟩ := Free.undefined_iff.mp h
  exact Or.inl ⟨rfl, Or.inl rfl⟩

theorem ends_ite {c : Prop} {_ : Decidable c} {p q : Async β} (hp : Ends p) (hq : Ends q) :
    Ends (if c then p else q) := by
  split
  · exact hp
  · exact hq

section steps

variable (r) {k : Response r → Async β}

/-- A step that is checked. -/
theorem ends_checked (hr : r.plain = true) (hcheck : r.check = .checked)
    (hok : ∀ x, r.succeeds x → Ends (k x)) (hfail : ∀ x, ¬ r.succeeds x → Aborts (k x)) :
    Ends (.call r k) := by
  intro t o h
  obtain ⟨x, t₁, rfl, hrest⟩ := Free.call_iff.mp h
  by_cases hx : r.succeeds x
  · exact (hok x hx _ _ hrest).cons hr (Or.inr hx)
  · exact (hfail x hx _ _ hrest).cons hr hcheck hx

/-- A step whose failure is ignored. -/
theorem ends_ignored (hr : r.plain = true) (hcheck : r.check = .ignored)
    (hnext : ∀ x, Ends (k x)) : Ends (.call r k) := by
  intro t o h
  obtain ⟨x, t₁, rfl, hrest⟩ := Free.call_iff.mp h
  exact (hnext x _ _ hrest).cons hr (Or.inl hcheck)

/-- A step that can not fail. -/
theorem ends_always (hr : r.plain = true) (hx : ∀ x, r.succeeds x) (hnext : ∀ x, Ends (k x)) :
    Ends (.call r k) := by
  intro t o h
  obtain ⟨x, t₁, rfl, hrest⟩ := Free.call_iff.mp h
  exact (hnext x _ _ hrest).cons hr (Or.inr (hx x))

end steps

/-- A value that is undefined is not gone on with. -/
theorem ends_ofOption {α : Type} {value : Option α} {f : α → Async β}
    (hnext : ∀ a, Ends (f a)) : Ends (ofOption value >>= f) := by
  cases value with
  | none => exact ends_undefined
  | some a => exact hnext a

/-- The shape of a callback: an error goes to `cb`, and the rest to `next`. -/
theorem Good.ite {cb : Int → Async β} (hcb : Good cb) {next : Async β} (hnext : Ends next) :
    Good fun bserrno => if bserrno ≠ 0 then cb bserrno else next where
  ok := by simpa using hnext
  failed bserrno hne := by
    rw [if_pos hne]
    exact hcb.failed bserrno hne

/-- A step with a `bserrno`, which goes to `f`. -/
theorem Good.after {f : Int → Async β} (hf : Good f) (r : Request) (bserrno : Response r → Int)
    (hr : r.plain = true) (hcheck : r.check = .checked)
    (hx : ∀ x, r.succeeds x ↔ bserrno x = 0) : Ends (.call r fun x => f (bserrno x)) := by
  refine ends_checked r hr hcheck (fun x hok => ?_) fun x hfail => ?_
  · rw [(hx x).mp hok]
    exact hf.ok
  · exact hf.failed _ (mt (hx x).mpr hfail)

/-- A callback of the caller, with the rest of its step. -/
theorem good_callback {p : Int → Async β} (hp : ∀ bserrno t o, Free (p bserrno) t o →
    ∃ t', t = ⟨.callback bserrno, ()⟩ :: t' ∧ Quiet t' ∧ o ≠ none) : Good p where
  ok t o h := by
    obtain ⟨t', rfl, hquiet, ho⟩ := hp 0 t o h
    have hcount : resized (⟨.callback 0, ()⟩ :: t') = counted (⟨.callback 0, ()⟩ :: t') :=
      hquiet.count
    refine Or.inr ⟨ho, stepsOk_cons.mpr ⟨fun _ => trivial, hquiet.stops⟩,
      stepsOk_cons.mpr ⟨fun _ => trivial, hquiet.crashes⟩, 0, ?_, iff_of_true rfl ⟨?_, hcount⟩⟩
    · exact congrArg (List.cons 0) hquiet.callbacks
    · exact stepsOk_cons.mpr ⟨fun _ => trivial, hquiet.checked⟩
  failed bserrno hne t o h := by
    obtain ⟨t', rfl, hquiet, ho⟩ := hp bserrno t o h
    exact ⟨ho, stepsOk_cons.mpr ⟨fun _ => trivial, hquiet.stops⟩,
      stepsOk_cons.mpr ⟨fun _ => trivial, hquiet.crashes⟩, hquiet.count, bserrno,
      congrArg (List.cons bserrno) hquiet.callbacks, hne⟩

end outcomes

/-- The client's own function. -/
theorem good_cbFn : Good cbFn := by
  refine good_callback fun bserrno t o h => ?_
  obtain ⟨x, t₁, rfl, hret⟩ := Free.call_iff.mp h
  obtain ⟨rfl, rfl⟩ := Free.ret_iff.mp hret
  exact ⟨[], rfl, .nil, nofun⟩

end Nbfs.Nbfs2
