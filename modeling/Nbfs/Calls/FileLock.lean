import Nbfs.Calls.Clients

set_option autoImplicit false

/-!
# The lock of a file while it is written (`lib/NBFS/NBFS.c`)

`spdk_file_write` takes `file->lock`, gives it up while the blob is extended, and should
hold it again for all it does afterwards.
-/

namespace Nbfs.Calls

open Nbfs.Lib Conv
open Nbfs.Fs (FileRef enomem)
open Nbfs.Cache (BufRef cacheBufferSize)

/-- What a client did. -/
abbrev Done := Trace Answer

/-- Whether the client holds the lock after an action. -/
def holds (held : Bool) : (r : Action) → Answer r → Bool
  | .lock, _ => true
  | .unlock, _ => false
  | _, _ => held

/-- The fields are used, and the lock is given up, by a client that holds it; it is not
taken twice. -/
def Action.Guarded (held : Bool) : Action → Prop
  | lock => held = false
  | unlock | get _ | set .. => held = true
  | _ => True

/-- From `held` on, every action was guarded. -/
def Disciplined (held : Bool) (t : Done) : Prop :=
  ∀ t₁ r x t₂, t = t₁ ++ ⟨r, x⟩ :: t₂ → r.Guarded (Trace.after holds held t₁)

/-- Every action was guarded, and a call that came back does not hold the lock. -/
structure KeepsLock (held : Bool) (t : Done) (o : Option Int) : Prop where
  guarded : Disciplined held t
  returned : ∀ rc, o = some rc → Trace.after holds held t = false

/-- The blob was extended, with success. -/
def Extended (t : Done) : Prop := (⟨.rc, (0 : Int)⟩ : (r : Action) × Answer r) ∈ t

/-! ### Traces piece by piece -/

section traces

variable {held : Bool} {t t' : Done} {o : Option Int}

theorem disciplined_one {r : Action} {x : Answer r} (hr : r.Guarded held) :
    Disciplined held [⟨r, x⟩] := by
  intro t₁ r' x' t₂ ht
  cases t₁ with
  | nil =>
      cases ht
      exact hr
  | cons y t₁ => exact absurd (List.cons.inj ht).2 (by simp)

theorem disciplined_append :
    Disciplined held (t ++ t') ↔ Disciplined held t ∧ Disciplined
      (Trace.after holds held t) t' := by
  constructor
  · intro h
    refine ⟨fun t₁ r x t₂ ht => h t₁ r x (t₂ ++ t') (by simp [ht]), fun t₁ r x t₂ ht => ?_⟩
    rw [← Trace.after_append]
    exact h (t ++ t₁) r x t₂ (by simp [ht])
  · rintro ⟨hfirst, hrest⟩ t₁ r x t₂ ht
    rcases List.append_eq_append_iff.mp ht with ⟨u, rfl, hu⟩ | ⟨u, rfl, hu⟩
    · rw [Trace.after_append]
      exact hrest u r x t₂ hu
    · cases u with
      | nil =>
          simpa using hrest [] r x t₂ hu.symm
      | cons y u =>
          obtain ⟨rfl, -⟩ := List.cons.inj hu
          exact hfirst t₁ r x u rfl

theorem extended_append : Extended (t ++ t') ↔ Extended t ∨ Extended t' := List.mem_append

/-- What comes before does not matter, if it was guarded and is no extension. -/
theorem keepsLock_append (hfirst : Disciplined held t) :
    KeepsLock held (t ++ t') o ↔ KeepsLock (Trace.after holds held t) t' o := by
  constructor
  · rintro ⟨hguarded, hreturned⟩
    exact ⟨(disciplined_append.mp hguarded).2, fun rc hrc => Trace.after_append ▸ hreturned rc hrc⟩
  · rintro ⟨hguarded, hreturned⟩
    exact ⟨disciplined_append.mpr ⟨hfirst, hguarded⟩, fun rc hrc =>
      Trace.after_append.trans (hreturned rc hrc)⟩

end traces

/-! ### Programs that keep the lock -/

section programs

variable {α β : Type} {held held' : Bool} {post : α → Bool → Prop} {t : Done}

/-- Every action is guarded, and none is the end of an extension. -/
abbrev Locked (post : α → Bool → Prop) (p : Client α) (held : Bool) : Prop :=
  Asks (follows holds) (fun held r => r.Guarded held ∧ r ≠ .rc) post p held

theorem Locked.run {p : Client α} {o : Option α} (h : Locked post p held) (hrun : Free p t o) :
    Disciplined held t ∧ ¬ Extended t ∧ ∀ a, o = some a → post a (Trace.after holds held t) := by
  obtain ⟨hallowed, hpost⟩ := h.followed hrun
  refine ⟨fun t₁ r x t₂ ht => (hallowed t₁ r x t₂ ht).1, fun hmem => ?_, hpost⟩
  obtain ⟨t₁, t₂, ht⟩ := List.append_of_mem hmem
  exact (hallowed t₁ _ _ t₂ ht).2 rfl

/-- An action that has nothing to do with the lock. -/
def Action.isFree : Action → Bool
  | lock | unlock | get _ | set .. | rc => false
  | _ => true

theorem Locked.free {r : Action} {k : Answer r → Client α} (hr : r.isFree = true)
    (hk : ∀ x, Locked post (k x) held) : Locked post (act r >>= k) held := by
  refine Asks.request_iff.mpr ⟨?_, fun x _ h => h ▸ ?_⟩
  · cases r <;> first | exact absurd hr Bool.false_ne_true | exact ⟨trivial, nofun⟩
  · cases r <;> first | exact absurd hr Bool.false_ne_true | exact hk x

theorem Locked.get {x : Field} {k : x.Value → Client α} (hk : ∀ v, Locked post (k v) true) :
    Locked post (act (.get x) >>= k) true :=
  Asks.request_iff.mpr ⟨⟨rfl, nofun⟩, fun v _ h => h ▸ hk v⟩

theorem Locked.set {x : Field} {v : x.Value} {k : Unit → Client α}
    (hk : Locked post (k ()) true) : Locked post (act (.set x v) >>= k) true :=
  Asks.request_iff.mpr ⟨⟨rfl, nofun⟩, fun _ _ h => h ▸ hk⟩

theorem Locked.unlock {k : Unit → Client α} (hk : Locked post (k ()) false) :
    Locked post (act .unlock >>= k) true :=
  Asks.request_iff.mpr ⟨⟨rfl, nofun⟩, fun _ _ h => h ▸ hk⟩

theorem Locked.bind {p : Client β} {f : β → Client α}
    (h : Locked (fun _ held => held = held') p held) (hf : ∀ b, Locked post (f b) held') :
    Locked post (p >>= f) held :=
  Asks.bind_iff.mpr (h.mono fun b _ heq => heq ▸ hf b)

/-- A test after which the lock is as before. -/
theorem Locked.ite {c : Prop} [Decidable c] {p q : Client α} (hp : c → Locked post p held)
    (hq : ¬c → Locked post q held) : Locked post (if c then p else q) held := by
  split
  · exact hp ‹_›
  · exact hq ‹_›

theorem locked_check {b : Bool} : Locked (fun _ held' => held' = held) (check b) held := by
  cases b
  · trivial
  · exact rfl

theorem locked_when {c : Prop} [Decidable c] {p : Client Unit}
    (h : Locked (fun _ held' => held' = held) p held) :
    Locked (fun _ held' => held' = held) (when c p) held :=
  .ite (fun _ => h) fun _ => rfl

theorem locked_assertLastFull : Locked (fun _ held => held = true) assertLastFull true := by
  refine .get fun last => ?_
  change Option BufRef at last
  cases last with
  | none => exact rfl
  | some b => exact .get fun bytesFilled => locked_check

theorem locked_cacheAppendBuffer :
    Locked (fun _ held => held = true) cacheAppendBuffer true := by
  refine .bind locked_assertLastFull fun _ => .get fun appendPos =>
    .bind locked_check fun _ => .get fun appendPos => .free rfl fun last => ?_
  change Option BufRef at last
  cases last with
  | none => exact rfl
  | some b => exact .set rfl

/-- The loop, and what comes after it, ends without the lock. -/
theorem locked_fillBuffers {file : FileRef} {rounds : Nat} {last : BufRef} {remLength : UInt64}
    {filled : UInt32} :
    Locked (fun _ held => held = false) (fillBuffers file rounds last remLength filled) true := by
  induction rounds generalizing last remLength filled with
  | zero => trivial
  | succ rounds ih =>
      refine .ite (fun _ => ?_) fun _ => ?_
      · refine .get fun bytesFilled => .get fun start => .free rfl fun _ => .get fun appendPos =>
          .set (.get fun length => .get fun appendPos => .bind (locked_when (.set rfl)) fun _ =>
            .get fun bytesFilled => .set (.get fun bytesFilled => .ite (fun _ => ?_) fun _ => ih))
        refine .bind locked_cacheAppendBuffer fun last => ?_
        cases last with
        | none => exact .free rfl fun _ => .unlock rfl
        | some last => exact ih
      · refine .unlock (.ite (fun _ => ?_) fun _ => ?_)
        · exact .free rfl fun _ => rfl
        · exact .free rfl fun _ => rfl

theorem locked_startFill {file : FileRef} {rounds : Nat} {length : UInt64} :
    Locked (fun _ held => held = false) (startFill rounds file length) true := by
  refine .free rfl fun flushReq => .ite (fun _ => .unlock rfl) fun _ => .get fun last => ?_
  change Option BufRef at last
  cases last with
  | none => trivial
  | some last => exact locked_fillBuffers

theorem locked_sendRwFromFile {file : FileRef} {offset length : UInt64} {isRead : Bool} :
    Locked (fun _ held' => held' = held) (sendRwFromFile file offset length isRead) held :=
  .free rfl fun _ => .ite (fun _ => .free rfl fun _ => rfl) fun _ => .free rfl fun _ => rfl

theorem locked_writeDirect {file : FileRef} {offset length : UInt64} :
    Locked (fun _ held => held = false) (writeDirect file offset length) true := by
  refine .get fun appendPos => .set (.unlock (.bind locked_sendRwFromFile fun rc =>
    .ite (fun _ => rfl) fun _ => .free rfl fun _ => ?_))
  exact .free (r := .rwerrno) rfl fun _ => rfl

theorem locked_openLast : Locked (fun _ held => held = true) openLast true :=
  .set (.get fun _ => .get fun _ => locked_when (.bind locked_cacheAppendBuffer fun _ => rfl))

end programs

/-! ### The whole call -/

/-- In every run the lock is kept unless the blob was extended. -/
def KeepsUnlessExtended (p : Client Int) (held : Bool) : Prop :=
  ∀ t o, Free p t o → (KeepsLock held t o ↔ ¬ Extended t)

section whole

variable {α : Type} {held held' : Bool} {p : Client Int}

theorem Locked.keeps (h : Locked (fun _ held => held = false) p held) :
    KeepsUnlessExtended p held := by
  intro t o hrun
  obtain ⟨hguarded, hextended, hpost⟩ := h.run hrun
  exact iff_of_true ⟨hguarded, hpost⟩ hextended

/-- After a part that keeps the lock it is the rest that counts. -/
theorem KeepsUnlessExtended.bind {q : Client α} {f : α → Client Int}
    (hq : Locked (fun _ held => held = held') q held)
    (hf : ∀ a, KeepsUnlessExtended (f a) held') : KeepsUnlessExtended (q >>= f) held := by
  intro t o hrun
  rcases Free.bind_iff.mp hrun with ⟨a, t₁, t₂, rfl, hfirst, hrest⟩ | ⟨hnone, rfl⟩
  · obtain ⟨hguarded, hextended, hpost⟩ := hq.run hfirst
    rw [keepsLock_append hguarded, hpost a rfl, extended_append, or_iff_right hextended]
    exact hf a t₂ o hrest
  · obtain ⟨hguarded, hextended, -⟩ := hq.run hnone
    exact iff_of_true ⟨hguarded, nofun⟩ hextended

theorem KeepsUnlessExtended.act {r : Action} {k : Answer r → Client Int} (hr : r.Guarded held)
    (hrc : r ≠ .rc) (hheld : ∀ x, holds held r x = held')
    (hk : ∀ x, KeepsUnlessExtended (k x) held') : KeepsUnlessExtended (act r >>= k) held :=
  .bind ⟨⟨hr, hrc⟩, fun x _ h => h.trans (hheld x)⟩ hk

/-- What comes after an extension is done without the lock. -/
theorem startFill_breaks {rounds : Nat} {file : FileRef} {length : UInt64} {t : Done}
    {o : Option Int} (hrun : Free (startFill rounds file length) t o) :
    ¬ Disciplined false t := by
  intro hguarded
  obtain ⟨flushReq, t₁, rfl, hrest⟩ := Free.request_iff.mp hrun
  by_cases hnone : flushReq = false
  · rw [if_pos hnone] at hrest
    obtain ⟨x, t₂, rfl, -⟩ := Free.request_iff.mp hrest
    cases hguarded [⟨.alloc 0, flushReq⟩] .unlock x t₂ rfl
  · rw [if_neg hnone] at hrest
    obtain ⟨last, t₂, rfl, -⟩ := Free.request_iff.mp hrest
    cases hguarded [⟨.alloc 0, flushReq⟩] (.get .last) last t₂ rfl

theorem keeps_extension {rounds : Nat} {file : FileRef} {length : UInt64} :
    KeepsUnlessExtended (do
      let rc ← act .rc
      if rc ≠ 0 then ret rc else startFill rounds file length) false := by
  intro t o hrun
  obtain ⟨rc, t₁, rfl, hrest⟩ := Free.request_iff.mp hrun
  change Int at rc
  by_cases hrc : rc = 0
  · subst hrc
    rw [if_neg (not_not.mpr rfl)] at hrest
    refine iff_of_false (fun hkeeps => startFill_breaks hrest ?_) (not_not.mpr List.mem_cons_self)
    exact (disciplined_append (t := [⟨.rc, (0 : Int)⟩])).mp hkeeps.guarded |>.2
  · rw [if_pos hrc] at hrest
    obtain ⟨rfl, rfl⟩ := Free.ret_iff.mp hrest
    refine iff_of_true ⟨?_, fun _ _ => rfl⟩ fun hextended => hrc ?_
    · exact disciplined_one trivial
    · cases List.mem_singleton.mp hextended
      rfl

/-- The lock of the file is kept if and only if the blob was not extended: after an extension
it is not taken again. -/
theorem keepsLock_iff (rounds : Nat) (file : FileRef) (offset length : UInt64) (t : Done)
    (o : Option Int) (hrun : Free (spdkFileWrite rounds file offset length) t o) :
    KeepsLock false t o ↔ ¬ Extended t := by
  suffices hkeeps : KeepsUnlessExtended (spdkFileWrite rounds file offset length) false from
    hkeeps t o hrun
  unfold spdkFileWrite
  split
  · exact Locked.keeps rfl
  refine .act trivial nofun (fun _ => rfl) fun appendPos => ?_
  split
  · exact Locked.keeps rfl
  refine .act rfl nofun (fun _ => rfl) fun _ => .bind locked_openLast fun _ =>
    .act rfl nofun (fun _ => rfl) fun last => ?_
  split
  · exact locked_writeDirect.keeps
  refine .act trivial nofun (fun _ => rfl) fun clusterSz => .act trivial nofun (fun _ => rfl)
    fun numClusters => ?_
  split
  · exact .act rfl nofun (fun _ => rfl) fun _ => .act trivial nofun (fun _ => rfl) fun _ =>
      .act trivial nofun (fun _ => rfl) fun _ => keeps_extension
  · exact locked_startFill.keeps

end whole

/-- `spdk_file_write` of a byte, as far as the size of the blob; the last buffer is empty. -/
def startTrace (numClusters : UInt64) : Done :=
  [⟨.testAppendPos, (0 : UInt64)⟩, ⟨.lock, ()⟩, ⟨.set .openForWriting true, ()⟩,
    ⟨.get .last, some (5 : BufRef)⟩, ⟨.get .appendPos, (0 : UInt64)⟩,
    ⟨.get .last, some (5 : BufRef)⟩, ⟨.clusterSz, (1048576 : UInt64)⟩,
    ⟨.numClusters, numClusters⟩]

theorem free_startTrace {numClusters : UInt64} {t : Done} {o : Option Int}
    (h : Free (if 1048576 * numClusters < 0 + 1 then do
        act .unlock
        act (.send (.fileExtendBlob 0 (bytesToClusters (0 + 1) 1048576)))
        act .semWait
        let rc ← act .rc
        if rc ≠ 0 then ret rc else startFill 2 0 1
      else startFill 2 0 1) t o) :
    Free (spdkFileWrite 2 0 0 1) (startTrace numClusters ++ t) o :=
  Free.call (Free.call (Free.call (Free.call (Free.call (Free.call (Free.call (Free.call h)))))))

/-- The byte is put into the buffer. -/
def fillTrace : Done :=
  [⟨.alloc 0, true⟩, ⟨.get .last, some (5 : BufRef)⟩, ⟨.get (.bytesFilled 5), (0 : UInt32)⟩,
    ⟨.get (.bytesFilled 5), (0 : UInt32)⟩, ⟨.copyIn 5 0 1, ()⟩, ⟨.get .appendPos, (0 : UInt64)⟩,
    ⟨.set .appendPos (1 : UInt64), ()⟩, ⟨.get .length, (0 : UInt64)⟩,
    ⟨.get .appendPos, (1 : UInt64)⟩, ⟨.set .length (1 : UInt64), ()⟩,
    ⟨.get (.bytesFilled 5), (0 : UInt32)⟩, ⟨.set (.bytesFilled 5) (1 : UInt32), ()⟩,
    ⟨.get (.bytesFilled 5), (1 : UInt32)⟩, ⟨.unlock, ()⟩, ⟨.freeRequest, ()⟩]

theorem free_fillTrace : Free (startFill 2 0 1) fillTrace (some 0) :=
  Free.call (Free.call (Free.call (Free.call (Free.call (Free.call (Free.call (Free.call
    (Free.call (Free.call (Free.call (Free.call (Free.call (Free.call (Free.call
      (Free.ret_iff.mpr ⟨rfl, rfl⟩)))))))))))))))

/-- A write into a blob that is large enough keeps the lock. -/
theorem keepsLock_iff_one : KeepsLock false (startTrace 1 ++ fillTrace) (some 0) := by
  have hrun : Free (spdkFileWrite 2 0 0 1) (startTrace 1 ++ fillTrace) (some 0) :=
    free_startTrace free_fillTrace
  refine (keepsLock_iff 2 0 0 1 _ _ hrun).mpr ?_
  simp [Extended, startTrace, fillTrace]

/-- A write into an empty blob does not. -/
theorem keepsLock_extended : ¬ ∀ (rounds : Nat) (file : FileRef) (offset length : UInt64)
    (t : Done) (o : Option Int), Free (spdkFileWrite rounds file offset length) t o →
      KeepsLock false t o := by
  intro h
  have hrun : Free (spdkFileWrite 2 0 0 1) (startTrace 0 ++ ([⟨.unlock, ()⟩,
      ⟨.send (.fileExtendBlob 0 1), ()⟩, ⟨.semWait, ()⟩, ⟨.rc, (0 : Int)⟩] ++ fillTrace))
        (some 0) :=
    free_startTrace (Free.call (Free.call (Free.call (Free.call free_fillTrace))))
  have hkeeps := (h 2 0 0 1 _ _ hrun).guarded
  cases hkeeps (startTrace 0 ++ [⟨.unlock, ()⟩, ⟨.send (.fileExtendBlob 0 1), ()⟩,
    ⟨.semWait, ()⟩, ⟨.rc, (0 : Int)⟩, ⟨.alloc 0, true⟩]) (.get .last) (some (5 : BufRef)) _ rfl

end Nbfs.Calls
