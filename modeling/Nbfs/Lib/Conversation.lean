set_option autoImplicit false

/-!
# Programs that go on in callbacks

An asynchronous function makes a request and goes on in a callback with the
answer.  Written down it is a tree: at each request, one continuation for each
answer.  A run follows the tree through the answers an environment may give, and
records what was asked and answered.
-/

namespace Nbfs.Lib

/-- A program that makes requests; `undefined` is where it has no defined behaviour. -/
inductive Conv (Req : Type) (Resp : Req → Type) (α : Type) where
  | ret (a : α)
  | undefined
  | call (r : Req) (k : Resp r → Conv Req Resp α)

namespace Conv

variable {Req : Type} {Resp : Req → Type} {α β : Type}

def bind : Conv Req Resp α → (α → Conv Req Resp β) → Conv Req Resp β
  | ret a, f => f a
  | undefined, _ => undefined
  | call r k, f => call r fun x => (k x).bind f

instance : Monad (Conv Req Resp) where
  pure := ret
  bind := bind

/-- A request with its answer as the result. -/
def request (r : Req) : Conv Req Resp (Resp r) := call r ret

/-- A value that may be undefined. -/
def ofOption : Option α → Conv Req Resp α
  | some a => ret a
  | none => undefined

@[simp] theorem pure_eq (a : α) : (pure a : Conv Req Resp α) = ret a := rfl

@[simp] theorem ret_bind (a : α) (f : α → Conv Req Resp β) : (ret a >>= f) = f a := rfl

@[simp] theorem undefined_bind (f : α → Conv Req Resp β) :
    ((undefined : Conv Req Resp α) >>= f) = undefined := rfl

@[simp] theorem call_bind (r : Req) (k : Resp r → Conv Req Resp α) (f : α → Conv Req Resp β) :
    (call r k >>= f) = call r fun x => k x >>= f := rfl

@[simp] theorem request_bind (r : Req) (f : Resp r → Conv Req Resp β) :
    (request r >>= f) = call r f := rfl

theorem bind_assoc {γ : Type} (p : Conv Req Resp α) (f : α → Conv Req Resp β)
    (g : β → Conv Req Resp γ) : (p >>= f) >>= g = p >>= fun a => f a >>= g := by
  induction p with
  | ret a => rfl
  | undefined => rfl
  | call r k ih => exact congrArg (call r) (funext ih)

/-- What was asked and what was answered. -/
abbrev Trace (Resp : Req → Type) : Type := List ((r : Req) × Resp r)

/-- A run from one state of the environment to another, with its trace and the result,
which is `none` where the program becomes undefined. -/
inductive Run {σ : Type} (respond : σ → (r : Req) → Resp r → σ → Prop) :
    σ → Conv Req Resp α → Trace Resp → σ → Option α → Prop where
  | ret {s : σ} {a : α} : Run respond s (ret a) [] s (some a)
  | undefined {s : σ} : Run respond s undefined [] s none
  | call {s s₁ s₂ : σ} {r : Req} {x : Resp r} {k : Resp r → Conv Req Resp α} {t : Trace Resp}
      {o : Option α} : respond s r x s₁ → Run respond s₁ (k x) t s₂ o →
      Run respond s (call r k) (⟨r, x⟩ :: t) s₂ o

namespace Run

variable {σ : Type} {respond : σ → (r : Req) → Resp r → σ → Prop} {s s' : σ} {t : Trace Resp}
  {o : Option α}

theorem ret_iff {a : α} : Run respond s (.ret a) t s' o ↔ t = [] ∧ s' = s ∧ o = some a := by
  constructor
  · intro h
    cases h
    exact ⟨rfl, rfl, rfl⟩
  · rintro ⟨rfl, rfl, rfl⟩
    exact .ret

theorem undefined_iff : Run respond s (.undefined : Conv Req Resp α) t s' o ↔
    t = [] ∧ s' = s ∧ o = none := by
  constructor
  · intro h
    cases h
    exact ⟨rfl, rfl, rfl⟩
  · rintro ⟨rfl, rfl, rfl⟩
    exact .undefined

theorem call_iff {r : Req} {k : Resp r → Conv Req Resp α} : Run respond s (.call r k) t s' o ↔
    ∃ x s₁ t₁, t = ⟨r, x⟩ :: t₁ ∧ respond s r x s₁ ∧ Run respond s₁ (k x) t₁ s' o := by
  constructor
  · intro h
    cases h with
    | call hrespond hrest => exact ⟨_, _, _, rfl, hrespond, hrest⟩
  · rintro ⟨x, s₁, t₁, rfl, hrespond, hrest⟩
    exact .call hrespond hrest

/-- A run of a sequence is a run of its first part, and of the rest if that has a result. -/
theorem bind_iff {p : Conv Req Resp α} {f : α → Conv Req Resp β} {o : Option β} :
    Run respond s (p >>= f) t s' o ↔
      (∃ a t₁ s₁ t₂, t = t₁ ++ t₂ ∧ Run respond s p t₁ s₁ (some a) ∧ Run respond s₁ (f a) t₂ s' o) ∨
        Run respond s p t s' none ∧ o = none := by
  induction p generalizing s t with
  | ret a =>
      constructor
      · intro h
        exact Or.inl ⟨a, [], s, t, rfl, .ret, h⟩
      · rintro (⟨b, t₁, s₁, t₂, rfl, hret, hrest⟩ | ⟨hret, -⟩)
        · obtain ⟨rfl, rfl, hab⟩ := ret_iff.mp hret
          exact Option.some.inj hab ▸ hrest
        · cases (ret_iff.mp hret).2.2
  | undefined =>
      constructor
      · intro h
        obtain ⟨rfl, rfl, rfl⟩ := undefined_iff.mp h
        exact Or.inr ⟨.undefined, rfl⟩
      · rintro (⟨b, t₁, s₁, t₂, rfl, hundef, -⟩ | ⟨hundef, rfl⟩)
        · cases (undefined_iff.mp hundef).2.2
        · obtain ⟨rfl, rfl, -⟩ := undefined_iff.mp hundef
          exact .undefined
  | call r k ih =>
      rw [call_bind, call_iff]
      constructor
      · rintro ⟨x, s₁, t₁, rfl, hrespond, hrest⟩
        rcases (ih x).mp hrest with ⟨a, t₂, s₂, t₃, rfl, hfirst, hnext⟩ | ⟨hfirst, rfl⟩
        · exact Or.inl ⟨a, _, s₂, t₃, rfl, .call hrespond hfirst, hnext⟩
        · exact Or.inr ⟨.call hrespond hfirst, rfl⟩
      · rintro (⟨a, t₁, s₁, t₂, rfl, hfirst, hnext⟩ | ⟨hfirst, rfl⟩)
        · obtain ⟨x, s₂, t₃, rfl, hrespond, hrest⟩ := call_iff.mp hfirst
          exact ⟨x, s₂, _, rfl, hrespond, (ih x).mpr (Or.inl ⟨a, t₃, s₁, t₂, rfl, hrest, hnext⟩)⟩
        · obtain ⟨x, s₂, t₃, rfl, hrespond, hrest⟩ := call_iff.mp hfirst
          exact ⟨x, s₂, _, rfl, hrespond, (ih x).mpr (Or.inr ⟨hrest, rfl⟩)⟩

theorem request_iff {r : Req} {f : Resp r → Conv Req Resp α} :
    Run respond s (request r >>= f) t s' o ↔
      ∃ x s₁ t₁, t = ⟨r, x⟩ :: t₁ ∧ respond s r x s₁ ∧ Run respond s₁ (f x) t₁ s' o :=
  call_iff

end Run

/-! ### Any answers -/

/-- A run in which any request may get any answer. -/
abbrev Free (p : Conv Req Resp α) (t : Trace Resp) (o : Option α) : Prop :=
  Run (fun (_ : Unit) _ _ _ => True) () p t () o

/-- What `f` takes from the requests of a trace. -/
def Trace.asked {γ : Type} (f : Req → Option γ) (t : Trace Resp) : List γ :=
  t.filterMap fun x => f x.1

section asked

variable {γ : Type} {f : Req → Option γ}

@[simp] theorem Trace.asked_nil : Trace.asked f ([] : Trace Resp) = [] := rfl

@[simp] theorem Trace.asked_cons {r : Req} {x : Resp r} {t : Trace Resp} :
    Trace.asked f (⟨r, x⟩ :: t) = (f r).toList ++ Trace.asked f t := by
  cases h : f r <;> simp [Trace.asked, h]

@[simp] theorem Trace.asked_append {t t' : Trace Resp} :
    Trace.asked f (t ++ t') = Trace.asked f t ++ Trace.asked f t' :=
  List.filterMap_append

end asked

namespace Free

variable {t : Trace Resp} {o : Option α}

theorem ret_iff {a : α} : Free (.ret a : Conv Req Resp α) t o ↔ t = [] ∧ o = some a := by
  simp [Run.ret_iff]

theorem undefined_iff : Free (.undefined : Conv Req Resp α) t o ↔ t = [] ∧ o = none := by
  simp [Run.undefined_iff]

theorem call_iff {r : Req} {k : Resp r → Conv Req Resp α} :
    Free (.call r k) t o ↔ ∃ x t₁, t = ⟨r, x⟩ :: t₁ ∧ Free (k x) t₁ o := by
  rw [Free, Run.call_iff]
  constructor
  · rintro ⟨x, ⟨⟩, t₁, rfl, -, hrest⟩
    exact ⟨x, t₁, rfl, hrest⟩
  · rintro ⟨x, t₁, rfl, hrest⟩
    exact ⟨x, (), t₁, rfl, trivial, hrest⟩

theorem call {r : Req} {k : Resp r → Conv Req Resp α} {x : Resp r} (h : Free (k x) t o) :
    Free (.call r k) (⟨r, x⟩ :: t) o :=
  call_iff.mpr ⟨x, t, rfl, h⟩

theorem request_iff {r : Req} {f : Resp r → Conv Req Resp α} :
    Free (request r >>= f) t o ↔ ∃ x t₁, t = ⟨r, x⟩ :: t₁ ∧ Free (f x) t₁ o :=
  call_iff

theorem bind_iff {p : Conv Req Resp α} {f : α → Conv Req Resp β} {o : Option β} :
    Free (p >>= f) t o ↔
      (∃ a t₁ t₂, t = t₁ ++ t₂ ∧ Free p t₁ (some a) ∧ Free (f a) t₂ o) ∨
        Free p t none ∧ o = none := by
  rw [Free, Run.bind_iff]
  constructor
  · rintro (⟨a, t₁, ⟨⟩, t₂, rfl, hfirst, hrest⟩ | hnone)
    · exact Or.inl ⟨a, t₁, t₂, rfl, hfirst, hrest⟩
    · exact Or.inr hnone
  · rintro (⟨a, t₁, t₂, rfl, hfirst, hrest⟩ | hnone)
    · exact Or.inl ⟨a, t₁, (), t₂, rfl, hfirst, hrest⟩
    · exact Or.inr hnone

end Free

/-! ### Answers that the state determines -/

/-- The run in which every answer, and the state after it, is a function of the state; it has
no result where the program becomes undefined. -/
def eval {σ : Type} (answer : σ → (r : Req) → Resp r × σ) : Conv Req Resp α → σ → Option (α × σ)
  | ret a, s => some (a, s)
  | undefined, _ => none
  | call r k, s => (k (answer s r).1).eval answer (answer s r).2

section eval

variable {σ : Type} {answer : σ → (r : Req) → Resp r × σ} {s : σ}

theorem eval_request {r : Req} {f : Resp r → Conv Req Resp α} :
    (request r >>= f).eval answer s = (f (answer s r).1).eval answer (answer s r).2 := rfl

theorem eval_bind {p : Conv Req Resp α} {f : α → Conv Req Resp β} :
    (p >>= f).eval answer s = (p.eval answer s).bind fun x => (f x.1).eval answer x.2 := by
  induction p generalizing s with
  | ret a => rfl
  | undefined => rfl
  | call r k ih => exact ih (answer s r).1

end eval

/-! ### What a program asks for -/

/-- Every request is allowed in the state it is made in, and the result is as it should. -/
def Asks {σ : Type} (respond : σ → (r : Req) → Resp r → σ → Prop) (allowed : σ → Req → Prop)
    (post : α → σ → Prop) : Conv Req Resp α → σ → Prop
  | ret a, s => post a s
  | undefined, _ => True
  | call r k, s => allowed s r ∧ ∀ x s', respond s r x s' → Asks respond allowed post (k x) s'

namespace Asks

variable {σ : Type} {respond : σ → (r : Req) → Resp r → σ → Prop} {allowed : σ → Req → Prop}
  {post : α → σ → Prop} {s s' : σ} {p : Conv Req Resp α} {t : Trace Resp} {o : Option α}

theorem request_iff {r : Req} {f : Resp r → Conv Req Resp α} :
    Asks respond allowed post (request r >>= f) s ↔
      allowed s r ∧ ∀ x s', respond s r x s' → Asks respond allowed post (f x) s' := Iff.rfl

theorem bind_iff {f : α → Conv Req Resp β} {post : β → σ → Prop} :
    Asks respond allowed post (p >>= f) s ↔
      Asks respond allowed (fun a s' => Asks respond allowed post (f a) s') p s := by
  induction p generalizing s with
  | ret a => exact Iff.rfl
  | undefined => exact Iff.rfl
  | call r k ih =>
      exact and_congr_right fun _ =>
        forall_congr' fun x => forall_congr' fun s' => imp_congr_right fun _ => ih x

theorem mono {post' : α → σ → Prop} (h : Asks respond allowed post p s)
    (himp : ∀ a s', post a s' → post' a s') : Asks respond allowed post' p s := by
  induction p generalizing s with
  | ret a => exact himp a s h
  | undefined => trivial
  | call r k ih => exact ⟨h.1, fun x s' hx => ih x (h.2 x s' hx)⟩

/-- What holds of every run: its requests were allowed and its result is right. -/
theorem run (h : Asks respond allowed post p s) (hrun : Run respond s p t s' o) :
    (∀ x ∈ t, ∃ s₁, allowed s₁ x.1) ∧ ∀ a, o = some a → post a s' := by
  induction hrun with
  | ret => exact ⟨fun x hx => absurd hx List.not_mem_nil, fun a ha => Option.some.inj ha ▸ h⟩
  | undefined => exact ⟨fun x hx => absurd hx List.not_mem_nil, fun a ha => nomatch ha⟩
  | call hrespond _ ih =>
      obtain ⟨hallowed, hpost⟩ := ih (h.2 _ _ hrespond)
      refine ⟨fun x hx => ?_, hpost⟩
      rcases List.mem_cons.mp hx with rfl | hx
      · exact ⟨_, h.1⟩
      · exact hallowed x hx

end Asks

/-- An environment whose state follows what is asked and answered. -/
def follows {σ : Type} (next : σ → (r : Req) → Resp r → σ) (s : σ) (r : Req) (x : Resp r)
    (s' : σ) : Prop := s' = next s r x

/-- Its state after a trace. -/
def Trace.after {σ : Type} (next : σ → (r : Req) → Resp r → σ) (s : σ) (t : Trace Resp) : σ :=
  t.foldl (fun s x => next s x.1 x.2) s

section follows

variable {σ : Type} {next : σ → (r : Req) → Resp r → σ} {s : σ} {t t' : Trace Resp}

@[simp] theorem Trace.after_nil : Trace.after next s ([] : Trace Resp) = s := rfl

@[simp] theorem Trace.after_cons {r : Req} {x : Resp r} :
    Trace.after next s (⟨r, x⟩ :: t) = Trace.after next (next s r x) t := rfl

theorem Trace.after_append :
    Trace.after next s (t ++ t') = Trace.after next (Trace.after next s t) t' :=
  List.foldl_append

/-- With such an environment a program is followed through all its runs at once: each request
was allowed after the ones before it. -/
theorem Asks.followed {allowed : σ → Req → Prop} {post : α → σ → Prop} {p : Conv Req Resp α}
    {o : Option α} (h : Asks (follows next) allowed post p s) (hrun : Free p t o) :
    (∀ t₁ r x t₂, t = t₁ ++ ⟨r, x⟩ :: t₂ → allowed (Trace.after next s t₁) r) ∧
      ∀ a, o = some a → post a (Trace.after next s t) := by
  induction p generalizing s t with
  | ret a =>
      obtain ⟨rfl, rfl⟩ := Free.ret_iff.mp hrun
      exact ⟨fun t₁ r x t₂ ht => absurd (congrArg List.length ht) (by simp),
        fun b hb => Option.some.inj hb ▸ h⟩
  | undefined =>
      obtain ⟨rfl, rfl⟩ := Free.undefined_iff.mp hrun
      refine ⟨fun t₁ r x t₂ ht => ?_, fun b hb => nomatch hb⟩
      exact absurd (congrArg List.length ht) (by simp)
  | call r k ih =>
      obtain ⟨x, t', rfl, hrest⟩ := Free.call_iff.mp hrun
      obtain ⟨hallowed, hpost⟩ := ih x (h.2 x _ rfl) hrest
      refine ⟨fun t₁ r' x' t₂ ht => ?_, hpost⟩
      cases t₁ with
      | nil =>
          obtain ⟨heq, -⟩ := List.cons.inj ht
          cases heq
          exact h.1
      | cons y t₁ =>
          obtain ⟨rfl, hrest'⟩ := List.cons.inj ht
          exact hallowed t₁ r' x' t₂ hrest'

end follows

/-- An environment that only remembers what was asked and answered. -/
def remembers (t : Trace Resp) (r : Req) (x : Resp r) (t' : Trace Resp) : Prop := t' = t ++ [⟨r, x⟩]

theorem Trace.after_remembers {s t : Trace Resp} :
    Trace.after (fun t r x => t ++ [⟨r, x⟩]) s t = s ++ t := by
  induction t generalizing s with
  | nil => exact (List.append_nil s).symm
  | cons x t ih => exact ih.trans (List.append_assoc ..)

theorem Asks.remembered {allowed : Trace Resp → Req → Prop} {post : α → Trace Resp → Prop}
    {p : Conv Req Resp α} {s t : Trace Resp} {o : Option α}
    (h : Asks remembers allowed post p s) (hrun : Free p t o) :
    (∀ t₁ r x t₂, t = t₁ ++ ⟨r, x⟩ :: t₂ → allowed (s ++ t₁) r) ∧
      ∀ a, o = some a → post a (s ++ t) := by
  have hfollows : Asks (follows fun (t : Trace Resp) r x => t ++ [⟨r, x⟩]) allowed post p s := h
  obtain ⟨hallowed, hpost⟩ := hfollows.followed hrun
  refine ⟨fun t₁ r x t₂ ht => ?_, fun a ha => ?_⟩
  · rw [← Trace.after_remembers]
    exact hallowed t₁ r x t₂ ht
  · rw [← Trace.after_remembers]
    exact hpost a ha

end Conv

end Nbfs.Lib
