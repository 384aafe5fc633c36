import Mathlib.Data.List.Nodup
import Mathlib.Logic.Function.Basic

set_option autoImplicit false

/-!
# Singly linked lists in a heap

A segment is the run of links met by following `next` from one pointer up to
another.  When the last pointer leads to no link (it is NULL, or the link it
named is gone) the segment is determined by its first pointer, and no link
occurs in it twice.
-/

namespace Nbfs.Lib

/-- A link of a list: what it holds and the pointer to the next one. -/
structure Link (α β : Type) where
  item : β
  next : Option α

variable {α β : Type}

/-- The links from `p` up to the pointer `e`, each with its address. -/
def Segment (mem : α → Option (Link α β)) : Option α → List (α × β) → Option α → Prop
  | p, [], e => p = e
  | p, (a, b) :: rest, e => p = some a ∧ ∃ next, mem a = some ⟨b, next⟩ ∧ Segment mem next rest e

/-- The pointer leads to no link. -/
def Stops (mem : α → Option (Link α β)) (e : Option α) : Prop := ∀ a, e = some a → mem a = none

theorem Stops.null (mem : α → Option (Link α β)) : Stops mem none := fun _ h => nomatch h

namespace Segment

variable {mem mem' : α → Option (Link α β)} {p e e' : Option α} {xs ys : List (α × β)}

@[simp] theorem nil_iff : Segment mem p [] e ↔ p = e := Iff.rfl

@[simp] theorem cons_iff {a : α} {b : β} : Segment mem p ((a, b) :: xs) e ↔
    p = some a ∧ ∃ next, mem a = some ⟨b, next⟩ ∧ Segment mem next xs e := Iff.rfl

/-- A segment splits at any of its pointers. -/
theorem append_iff : Segment mem p (xs ++ ys) e ↔
    ∃ m, Segment mem p xs m ∧ Segment mem m ys e := by
  induction xs generalizing p with
  | nil => simp
  | cons x xs ih =>
      obtain ⟨a, b⟩ := x
      simp only [List.cons_append, cons_iff, ih]
      constructor
      · rintro ⟨hp, next, hnext, m, hxs, hys⟩
        exact ⟨m, ⟨hp, next, hnext, hxs⟩, hys⟩
      · rintro ⟨m, ⟨hp, next, hnext, hxs⟩, hys⟩
        exact ⟨hp, next, hnext, m, hxs, hys⟩

/-- A segment with a link starts at it. -/
theorem start (h : Segment mem p xs e) (hne : xs ≠ []) : ∃ a, p = some a := by
  cases xs with
  | nil => exact absurd rfl hne
  | cons x xs => exact ⟨x.1, h.1⟩

/-- From NULL there is nothing to follow. -/
theorem null (h : Segment mem none xs e) : xs = [] ∧ e = none := by
  cases xs with
  | nil => exact ⟨rfl, h.symm⟩
  | cons x xs => cases h.1

/-- Every link of a segment is there. -/
theorem link (h : Segment mem p xs e) : ∀ x ∈ xs, ∃ next, mem x.1 = some ⟨x.2, next⟩ := by
  induction xs generalizing p with
  | nil =>
      intro x hx
      exact absurd hx List.not_mem_nil
  | cons y ys ih =>
      obtain ⟨-, next, hnext, hrest⟩ := h
      intro x hx
      rcases List.mem_cons.mp hx with rfl | hx
      · exact ⟨next, hnext⟩
      · exact ih hrest x hx

/-- Only the links of a segment matter to it. -/
theorem frame (h : Segment mem p xs e) (heq : ∀ x ∈ xs, mem' x.1 = mem x.1) :
    Segment mem' p xs e := by
  induction xs generalizing p with
  | nil => exact h
  | cons y ys ih =>
      obtain ⟨hp, next, hnext, hrest⟩ := h
      refine ⟨hp, next, ?_, ih hrest fun x hx => heq x (List.mem_cons_of_mem _ hx)⟩
      rw [heq y List.mem_cons_self, hnext]

/-- Two segments that start together and run as far as there are links are the same. -/
theorem unique (h : Segment mem p xs e) (he : Stops mem e) (h' : Segment mem p ys e')
    (he' : Stops mem e') : xs = ys ∧ e = e' := by
  induction xs generalizing p ys with
  | nil =>
      obtain rfl := nil_iff.mp h
      cases ys with
      | nil => exact ⟨rfl, h'⟩
      | cons y ys =>
          obtain ⟨hp, next, hnext, -⟩ := h'
          exact absurd (he _ hp) (by simp [hnext])
  | cons x xs ih =>
      obtain ⟨hp, next, hnext, hrest⟩ := h
      cases ys with
      | nil =>
          obtain rfl := nil_iff.mp h'
          exact absurd (he' _ hp) (by simp [hnext])
      | cons y ys =>
          obtain ⟨hp', next', hnext', hrest'⟩ := h'
          have haddr : x.1 = y.1 := Option.some.inj (hp.symm.trans hp')
          rw [haddr, hnext'] at hnext
          obtain ⟨hitem, rfl⟩ := Link.mk.inj (Option.some.inj hnext)
          obtain ⟨rfl, rfl⟩ := ih hrest hrest'
          exact ⟨by rw [Prod.ext haddr hitem.symm], rfl⟩

/-- A link that occurred twice would make the segment go on for ever. -/
theorem nodup (h : Segment mem p xs e) (he : Stops mem e) : (xs.map Prod.fst).Nodup := by
  induction xs generalizing p with
  | nil => exact List.nodup_nil
  | cons x xs ih =>
      obtain ⟨a, b⟩ := x
      obtain ⟨-, next, hnext, hrest⟩ := id h
      refine List.nodup_cons.mpr ⟨?_, ih hrest⟩
      intro hmem
      obtain ⟨y, hy, hya⟩ := List.mem_map.mp hmem
      obtain ⟨front, back, rfl⟩ := List.append_of_mem hy
      obtain ⟨m, -, hback⟩ := append_iff.mp hrest
      have hstart : p = m := h.1.trans (by rw [hback.1]; exact congrArg some hya.symm)
      have hsame := (unique h he (hstart ▸ hback) he).1
      have hlength := congrArg List.length hsame
      simp only [List.length_cons, List.length_append] at hlength
      omega

/-- The last link of a segment can be made to point elsewhere. -/
theorem redirect {a : α} {b : β} (h : Segment mem p (xs ++ [(a, b)]) e) (e' : Option α)
    (mem' : α → Option (Link α β))
    (heq : ∀ x ∈ xs, mem' x.1 = mem x.1) (ha : mem' a = some ⟨b, e'⟩) :
    Segment mem' p (xs ++ [(a, b)]) e' := by
  obtain ⟨m, hfront, hlast⟩ := append_iff.mp h
  exact append_iff.mpr ⟨m, hfront.frame heq, hlast.1, e', ha, rfl⟩

end Segment

end Nbfs.Lib
