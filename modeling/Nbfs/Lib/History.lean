import Mathlib.Data.List.Infix

set_option autoImplicit false

/-!
# Histories

A history grows at its end, and an entry is judged by what came before it.
-/

namespace Nbfs.Lib

variable {α : Type}

/-- Every entry is right where it came. -/
def Justified (right : List α → α → Prop) (history : List α) : Prop :=
  ∀ earlier e, earlier ++ [e] <+: history → right earlier e

namespace Justified

variable {right : List α → α → Prop} {history : List α} {e : α}

theorem nil : Justified right [] := by
  intro earlier e h
  exact absurd (List.prefix_nil.mp h) (List.append_ne_nil_of_right_ne_nil _ (List.cons_ne_nil _ _))

theorem concat (h : Justified right history) (he : right history e) :
    Justified right (history ++ [e]) := by
  intro earlier e' hpre
  rcases List.prefix_concat_iff.mp hpre with heq | hpre
  · obtain ⟨rfl, hlast⟩ := List.append_inj' heq rfl
    exact List.singleton_inj.mp hlast ▸ he
  · exact h earlier e' hpre

/-- Entries that are right anywhere. -/
theorem append {l : List α} (h : Justified right history)
    (hl : ∀ e ∈ l, ∀ earlier, right earlier e) : Justified right (history ++ l) := by
  induction l generalizing history with
  | nil => rwa [List.append_nil]
  | cons e l ih =>
      rw [List.append_cons]
      exact ih (h.concat (hl e List.mem_cons_self history)) fun e' he' =>
        hl e' (List.mem_cons_of_mem _ he')

end Justified

end Nbfs.Lib
