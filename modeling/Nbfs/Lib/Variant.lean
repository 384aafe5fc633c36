import Nbfs.Lib.Runs

set_option autoImplicit false

/-!
# How long a machine can go on

Some of the events of a run count.  A variant goes down with each of them and up with no event,
so that there are at most as many of them as the variant was at first.
-/

namespace Nbfs.Lib

variable {σ ε : Type}

/-- A run with `n` events that count. -/
inductive Counted (step : σ → ε → σ → Prop) (ok : σ → ε → Prop) (counts : ε → Bool) :
    σ → Nat → σ → Prop where
  | refl {s : σ} : Counted step ok counts s 0 s
  | tail {s₁ s₂ s₃ : σ} {n : Nat} {e : ε} : Counted step ok counts s₁ n s₂ → ok s₂ e →
      step s₂ e s₃ → Counted step ok counts s₁ (n + if counts e then 1 else 0) s₃

namespace Counted

variable {step : σ → ε → σ → Prop} {ok : σ → ε → Prop} {counts : ε → Bool} {s s' : σ} {n : Nat}

/-- The rule of the variant, under an invariant. -/
theorem le_variant {P : σ → Prop} {variant : σ → Nat} (hrun : Counted step ok counts s n s')
    (hs : P s) (hstep : ∀ {s₁ e s₂}, P s₁ → ok s₁ e → step s₁ e s₂ →
      P s₂ ∧ variant s₂ + (if counts e then 1 else 0) ≤ variant s₁) :
    P s' ∧ n + variant s' ≤ variant s := by
  induction hrun with
  | refl => exact ⟨hs, Nat.le_of_eq (Nat.zero_add _)⟩
  | tail _ hok he ih =>
      obtain ⟨hkept, hle⟩ := hstep ih.1 hok he
      exact ⟨hkept, by omega⟩

/-- A run goes on with given events, where the step is a function. -/
theorem foldlM {φ : Type} {act : σ → ε → Except φ σ} {es : List ε} {s₁ : σ}
    (hrun : Counted (fun s e s' => act s e = .ok s') ok counts s n s₁)
    (hok : ∀ e ∈ es, ∀ s, ok s e) (h : es.foldlM act s₁ = .ok s') :
    Counted (fun s e s' => act s e = .ok s') ok counts s (n + es.countP counts) s' := by
  induction es generalizing s₁ n with
  | nil =>
      obtain rfl := Except.ok.inj h
      exact hrun
  | cons e es ih =>
      rw [List.foldlM_cons] at h
      cases he : act s₁ e with
      | error fault =>
          rw [he] at h
          cases h
      | ok s₂ =>
          rw [he] at h
          have hnext := ih (hrun.tail (hok e List.mem_cons_self s₁) he)
            (fun e' he' => hok e' (List.mem_cons_of_mem _ he')) h
          rwa [Nat.add_assoc, Nat.add_comm (if counts e then 1 else 0), ← List.countP_cons] at hnext

end Counted

end Nbfs.Lib
