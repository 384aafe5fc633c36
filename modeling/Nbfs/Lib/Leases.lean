import Mathlib.Data.List.Nodup
import Mathlib.Data.List.Perm.Basic

set_option autoImplicit false

/-!
# What is held by work under way

Items under way may each hold one resource; a resource is held by at most one of them.
While a resource is there it is marked as busy or idle, and it is busy while it is held.
-/

namespace Nbfs.Lib

variable {α ρ : Type}

/-- The busy resources are those that are held, each by one item. -/
structure Leases (holds : α → Option ρ) (items : List α) (mark : ρ → Option Bool) : Prop where
  single : (items.filterMap holds).Nodup
  busy_iff : ∀ r busy, mark r = some busy → (busy = true ↔ r ∈ items.filterMap holds)

namespace Leases

variable {holds : α → Option ρ} {items items' : List α} {mark mark' : ρ → Option Bool} {a : α}
  {r : ρ}

theorem nil (h : ∀ r, mark r = none) : Leases holds [] mark :=
  ⟨List.nodup_nil, fun r _ hr => nomatch (h r).symm.trans hr⟩

/-- Resources may go, but not come. -/
theorem congr (h : Leases holds items mark)
    (hmark : ∀ r busy, mark' r = some busy → mark r = some busy) : Leases holds items mark' :=
  ⟨h.single, fun r busy hr => h.busy_iff r busy (hmark r busy hr)⟩

theorem perm (h : Leases holds items mark) (hperm : items.Perm items') :
    Leases holds items' mark where
  single := (hperm.filterMap holds).nodup_iff.mp h.single
  busy_iff := fun r busy hr => (h.busy_iff r busy hr).trans (hperm.filterMap holds).mem_iff

/-- An item that holds nothing. -/
theorem cons_none (ha : holds a = none) :
    Leases holds (a :: items) mark ↔ Leases holds items mark := by
  constructor
  · rintro ⟨hsingle, hbusy⟩
    rw [List.filterMap_cons_none ha] at hsingle
    exact ⟨hsingle, fun r => List.filterMap_cons_none ha ▸ hbusy r⟩
  · rintro ⟨hsingle, hbusy⟩
    exact ⟨(List.filterMap_cons_none ha).symm ▸ hsingle,
      fun r => (List.filterMap_cons_none ha).symm ▸ hbusy r⟩

/-- A resource comes that no item holds. -/
theorem come (h : Leases holds items mark) (hfree : r ∉ items.filterMap holds)
    (hmark : ∀ q busy, mark' q = some busy → q = r ∧ busy = false ∨ mark q = some busy) :
    Leases holds items mark' where
  single := h.single
  busy_iff := fun q busy hq => by
    rcases hmark q busy hq with ⟨rfl, rfl⟩ | hold
    · exact iff_of_false Bool.false_ne_true hfree
    · exact h.busy_iff q busy hold

/-- An item takes hold of a resource that no item holds. -/
theorem hold (h : Leases holds items mark) (ha : holds a = some r)
    (hfree : r ∉ items.filterMap holds)
    (hmark : ∀ q busy, mark' q = some busy → q = r ∧ busy = true ∨ q ≠ r ∧ mark q = some busy) :
    Leases holds (a :: items) mark' where
  single := by
    rw [List.filterMap_cons_some ha]
    exact h.single.cons hfree
  busy_iff := fun q busy hq => by
    rw [List.filterMap_cons_some ha, List.mem_cons]
    rcases hmark q busy hq with ⟨rfl, rfl⟩ | ⟨hne, hold⟩
    · exact iff_of_true rfl (Or.inl rfl)
    · rw [h.busy_iff q busy hold]
      exact (or_iff_right hne).symm

/-- What an item holds, no other item holds. -/
theorem held (h : Leases holds (a :: items) mark) (ha : holds a = some r) :
    r ∉ items.filterMap holds := by
  have hsingle := h.single
  rw [List.filterMap_cons_some ha, List.nodup_cons] at hsingle
  exact hsingle.1

/-- The item that holds a resource lets go of it. -/
theorem release (h : Leases holds (a :: items) mark) (ha : holds a = some r)
    (hmark : ∀ q busy, mark' q = some busy → q = r ∧ busy = false ∨ q ≠ r ∧ mark q = some busy) :
    Leases holds items mark' where
  single := by
    have hsingle := h.single
    rw [List.filterMap_cons_some ha] at hsingle
    exact hsingle.of_cons
  busy_iff := fun q busy hq => by
    rcases hmark q busy hq with ⟨rfl, rfl⟩ | ⟨hne, hold⟩
    · exact iff_of_false Bool.false_ne_true (h.held ha)
    · rw [h.busy_iff q busy hold, List.filterMap_cons_some ha, List.mem_cons]
      exact or_iff_right hne

end Leases

end Nbfs.Lib
