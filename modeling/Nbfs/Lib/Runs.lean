import Mathlib.Data.List.Count
import Mathlib.Data.List.Perm.Basic
import Nbfs.Lib.Fallible

set_option autoImplicit false

/-!
# Runs of a machine

A machine makes one step for each event; a run is any sequence of steps whose
events all meet a condition on the state they come in.  Work that was begun and
is still to be completed waits in a list, from which any item may come next.
-/

namespace Nbfs.Lib

variable {σ ε : Type}

/-- A run whose events meet `ok`. -/
inductive Runs (step : σ → ε → σ → Prop) (ok : σ → ε → Prop) : σ → σ → Prop where
  | refl {s : σ} : Runs step ok s s
  | tail {s₁ s₂ s₃ : σ} {e : ε} : Runs step ok s₁ s₂ → ok s₂ e → step s₂ e s₃ → Runs step ok s₁ s₃

namespace Runs

variable {step : σ → ε → σ → Prop} {ok ok' : σ → ε → Prop} {s s' : σ}

/-- What every step keeps, a run keeps. -/
theorem keeps {P : σ → Prop} (hrun : Runs step ok s s') (hs : P s)
    (hstep : ∀ {s₁ e s₂}, P s₁ → ok s₁ e → step s₁ e s₂ → P s₂) : P s' := by
  induction hrun with
  | refl => exact hs
  | tail _ hok he ih => exact hstep ih hok he

theorem mono (hrun : Runs step ok s s') (h : ∀ s e, ok s e → ok' s e) : Runs step ok' s s' := by
  induction hrun with
  | refl => exact .refl
  | tail _ hok he ih => exact .tail ih (h _ _ hok) he

theorem trans {s'' : σ} (hrun : Runs step ok s s') (hnext : Runs step ok s' s'') :
    Runs step ok s s'' := by
  induction hnext with
  | refl => exact hrun
  | tail _ hok he ih => exact .tail ih hok he

/-- A single step. -/
theorem one {e : ε} (hok : ok s e) (he : step s e s') : Runs step ok s s' := .tail .refl hok he

/-- The run of given events, of a machine whose step is a function. -/
theorem of_events {φ : Type} {step : σ → ε → Except φ σ} [∀ s e, Decidable (ok s e)] {stop : φ} :
    ∀ {es : List ε} {s : σ},
      es.foldlM (fun s e => if ok s e then step s e else .error stop) s = .ok s' →
        Runs (fun s e s' => step s e = .ok s') ok s s'
  | [], s, h => by
      obtain rfl := Except.ok.inj h
      exact .refl
  | e :: es, s, h => by
      rw [List.foldlM_cons] at h
      obtain ⟨s₁, he, hes⟩ := bind_ok.mp h
      split at he
      · exact (one ‹_› he).trans (of_events hes)
      · cases he

/-- The run of given events, on which there is no condition. -/
theorem of_foldlM {φ : Type} {step : σ → ε → Except φ σ} {es : List ε}
    (h : es.foldlM step s = .ok s') :
    Runs (fun s e s' => step s e = .ok s') (fun _ _ => True) s s' := by
  induction es generalizing s with
  | nil =>
      obtain rfl := Except.ok.inj h
      exact .refl
  | cons e es ih =>
      rw [List.foldlM_cons] at h
      cases he : step s e with
      | error fault =>
          rw [he] at h
          cases h
      | ok s₁ =>
          rw [he] at h
          exact (one trivial he).trans (ih h)

end Runs

section waiting

variable {α : Type} {waiting : List α} {i : Nat} {a : α} (p : α → Bool)

/-- An item taken from the waiting ones. -/
theorem taken_perm (h : waiting[i]? = some a) : waiting.Perm (a :: waiting.eraseIdx i) := by
  obtain ⟨hi, rfl⟩ := List.getElem?_eq_some_iff.mp h
  exact (List.getElem_cons_eraseIdx_perm hi).symm

theorem countP_taken (h : waiting[i]? = some a) :
    waiting.countP p = (waiting.eraseIdx i).countP p + if p a then 1 else 0 := by
  rw [(taken_perm h).countP_eq, List.countP_cons]

/-- What is taken from the items does not change where the item gives nothing. -/
theorem filterMap_taken {γ : Type} {f : α → Option γ} (h : waiting[i]? = some a) (hf : f a = none) :
    (waiting.eraseIdx i).filterMap f = waiting.filterMap f := by
  obtain ⟨hi, rfl⟩ := List.getElem?_eq_some_iff.mp h
  conv_rhs => rw [← List.take_append_drop i waiting, List.drop_eq_getElem_cons hi]
  rw [List.eraseIdx_eq_take_drop_succ, List.filterMap_append, List.filterMap_append,
    List.filterMap_cons_none hf]

theorem mem_of_taken {b : α} (h : b ∈ waiting.eraseIdx i) : b ∈ waiting :=
  List.mem_of_mem_eraseIdx h

theorem mem_taken (h : waiting[i]? = some a) : a ∈ waiting := List.mem_of_getElem? h

end waiting

end Nbfs.Lib
