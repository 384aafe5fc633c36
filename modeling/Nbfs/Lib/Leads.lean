import Nbfs.Lib.Runs

set_option autoImplicit false

/-!
# What a machine comes to

A machine comes to a state, whichever of the events that are allowed are next.
-/

namespace Nbfs.Lib

variable {σ ε : Type}

/-- Every allowed event has a step, and after some of them `P` holds. -/
inductive Leads (step : σ → ε → σ → Prop) (ok : ε → Prop) (P : σ → Prop) : σ → Prop where
  | here {s : σ} : P s → Leads step ok P s
  | next {s : σ} (after : ε → σ) : (∀ e, ok e → step s e (after e)) →
      (∀ e, ok e → Leads step ok P (after e)) → Leads step ok P s

namespace Leads

variable {step : σ → ε → σ → Prop} {ok : ε → Prop} {P Q : σ → Prop} {s s' : σ}

theorem bind (h : Leads step ok P s) (hnext : ∀ s', P s' → Leads step ok Q s') :
    Leads step ok Q s := by
  induction h with
  | here hP => exact hnext _ hP
  | next after hstep _ ih => exact .next after hstep ih

theorem mono (h : Leads step ok P s) (hPQ : ∀ s', P s' → Q s') : Leads step ok Q s :=
  h.bind fun s' hP => .here (hPQ s' hP)

/-- A step that goes to a state by any event. -/
theorem one (hstep : ∀ e, ok e → step s e s') (h : Leads step ok P s') : Leads step ok P s :=
  .next (fun _ => s') hstep fun _ _ => h

/-- A step whose state depends on the event. -/
theorem of_step (h : ∀ e, ok e → ∃ s', step s e s' ∧ Leads step ok P s') : Leads step ok P s := by
  classical
  refine .next (fun e => if he : ok e then (h e he).choose else s) (fun e he => ?_) fun e he => ?_
  · rw [dif_pos he]
    exact (h e he).choose_spec.1
  · rw [dif_pos he]
    exact (h e he).choose_spec.2

/-- There is a run to such a state. -/
theorem exists_run {e : ε} (h : Leads step ok P s) (he : ok e) :
    ∃ s', Runs step (fun _ e => ok e) s s' ∧ P s' := by
  induction h with
  | here hP => exact ⟨_, .refl, hP⟩
  | next after hstep _ ih =>
      obtain ⟨s', hrun, hP⟩ := ih e he
      exact ⟨s', (Runs.one he (hstep e he)).trans hrun, hP⟩

end Leads

end Nbfs.Lib
