set_option autoImplicit false

/-!
# Functions that may fail

A sequence has a result where both of its parts have one, and fails as one of them does.
-/

namespace Nbfs.Lib

variable {ε α β : Type} {x : Except ε α} {k : α → Except ε β}

theorem bind_ok {b : β} : (x >>= k) = .ok b ↔ ∃ a, x = .ok a ∧ k a = .ok b := by
  cases x with
  | error e => simp [bind, Except.bind]
  | ok a => simp [bind, Except.bind]

theorem bind_ne {fault : ε} (hx : x ≠ .error fault) (hk : ∀ a, x = .ok a → k a ≠ .error fault) :
    x >>= k ≠ .error fault := by
  cases x with
  | error e =>
      rintro heq
      exact hx (congrArg Except.error (Except.error.inj heq))
  | ok a => exact hk a rfl

/-- What only puts the result into place fails as before. -/
theorem bind_pure_error {f : α → β} {fault : ε} :
    (do let a ← x; return f a) = .error fault ↔ x = .error fault := by
  cases x with
  | error e => exact ⟨fun h => congrArg Except.error (Except.error.inj h), fun h =>
      congrArg Except.error (Except.error.inj h)⟩
  | ok a => exact iff_of_false nofun nofun

end Nbfs.Lib
