import Mathlib.Data.List.Basic
import Mathlib.Data.List.Pairwise
import Mathlib.Order.WithBot
import Mathlib.Logic.Function.Basic

set_option autoImplicit false

/-!
# Sorted entries over a key range

A leaf of a search tree holds the part of a map whose keys lie in its range
`[lo, hi)`.  The lemmas say how that part splits, joins, grows and shrinks.
-/

namespace Nbfs.Lib

variable {K V : Type} [LinearOrder K]

/-- The key lies in the half-open range `[lo, hi)`. -/
def InRange (lo : WithBot K) (hi : WithTop K) (q : K) : Prop :=
  lo ≤ (q : WithBot K) ∧ (q : WithTop K) < hi

@[simp] theorem inRange_bot_top (q : K) : InRange (⊥ : WithBot K) (⊤ : WithTop K) q :=
  ⟨bot_le, WithTop.coe_lt_top q⟩

theorem InRange.of_lt {lo : WithBot K} {hi : WithTop K} {k q : K} (h : InRange lo hi q)
    (hq : q < k) : InRange lo (k : WithTop K) q :=
  ⟨h.1, WithTop.coe_lt_coe.mpr hq⟩

theorem InRange.of_le {lo : WithBot K} {hi : WithTop K} {k q : K} (h : InRange lo hi q)
    (hq : k ≤ q) : InRange (k : WithBot K) hi q :=
  ⟨WithBot.coe_le_coe.mpr hq, h.2⟩

theorem InRange.lt_upper {lo : WithBot K} {k q : K} (h : InRange lo (k : WithTop K) q) : q < k :=
  WithTop.coe_lt_coe.mp h.2

theorem InRange.lower_le {hi : WithTop K} {k q : K} (h : InRange (k : WithBot K) hi q) : k ≤ q :=
  WithBot.coe_le_coe.mp h.1

/-- The entries are the part of `content` inside `[lo, hi)`, in key order. -/
structure Holds (content : K → Option V) (lo : WithBot K) (hi : WithTop K)
    (es : List (K × V)) : Prop where
  sorted : (es.map Prod.fst).Pairwise (· < ·)
  range : ∀ k ∈ es.map Prod.fst, InRange lo hi k
  lookup : ∀ q, InRange lo hi q → content q = es.lookup q

theorem lookup_eq_none_of_forall_ne {es : List (K × V)} {q : K}
    (h : ∀ k ∈ es.map Prod.fst, k ≠ q) : es.lookup q = none := by
  rw [List.lookup_eq_none_iff]
  intro e he
  simpa using (h e.1 (List.mem_map_of_mem he)).symm

theorem lookup_append_left {es fs : List (K × V)} {q : K}
    (h : ∀ k ∈ fs.map Prod.fst, k ≠ q) : (es ++ fs).lookup q = es.lookup q := by
  rw [List.lookup_append, lookup_eq_none_of_forall_ne h, Option.or_none]

theorem lookup_append_right {es fs : List (K × V)} {q : K}
    (h : ∀ k ∈ es.map Prod.fst, k ≠ q) : (es ++ fs).lookup q = fs.lookup q := by
  rw [List.lookup_append, lookup_eq_none_of_forall_ne h, Option.none_or]

/-- Pairs read off a position are found under their key. -/
theorem lookup_of_sorted {es : List (K × V)} (hs : (es.map Prod.fst).Pairwise (· < ·))
    {e : K × V} (he : e ∈ es) : es.lookup e.1 = some e.2 := by
  induction es with
  | nil => simp at he
  | cons f fs ih =>
      rw [List.map_cons, List.pairwise_cons] at hs
      rw [List.lookup_cons]
      rcases List.mem_cons.mp he with rfl | hmem
      · simp
      · have hlt : f.1 < e.1 := hs.1 e.1 (List.mem_map_of_mem hmem)
        have hne : (e.1 == f.1) = false := by simpa using hlt.ne'
        rw [hne]
        exact ih hs.2 hmem

theorem mem_iff_lookup {es : List (K × V)} (hs : (es.map Prod.fst).Pairwise (· < ·)) {e : K × V} :
    e ∈ es ↔ es.lookup e.1 = some e.2 := by
  refine ⟨lookup_of_sorted hs, fun h => ?_⟩
  obtain ⟨before, after, heq, -⟩ := List.lookup_eq_some_iff.mp h
  rw [heq]
  exact List.mem_append_right _ List.mem_cons_self

/-- Entries in key order are determined by what they look up. -/
theorem eq_of_lookup {es fs : List (K × V)} (hes : (es.map Prod.fst).Pairwise (· < ·))
    (hfs : (fs.map Prod.fst).Pairwise (· < ·)) (h : ∀ q, es.lookup q = fs.lookup q) : es = fs := by
  have hes' := List.pairwise_map.mp hes
  have hfs' := List.pairwise_map.mp hfs
  have hperm : es.Perm fs := by
    refine (List.perm_ext_iff_of_nodup ?_ ?_).mpr fun e => ?_
    · exact hes'.imp fun hlt heq => absurd (congrArg Prod.fst heq) hlt.ne
    · exact hfs'.imp fun hlt heq => absurd (congrArg Prod.fst heq) hlt.ne
    · rw [mem_iff_lookup hes, mem_iff_lookup hfs, h]
  exact hperm.eq_of_pairwise (fun a b _ _ hab hba => absurd hab hba.asymm) hes' hfs'

namespace Holds

variable {content : K → Option V} {lo : WithBot K} {hi : WithTop K} {k : K}
  {es fs : List (K × V)}

/-- Two neighbouring ranges join. -/
theorem join (hl : Holds content lo (k : WithTop K) es) (hr : Holds content (k : WithBot K) hi fs)
    (hlo : lo ≤ (k : WithBot K)) (hhi : (k : WithTop K) ≤ hi) :
    Holds content lo hi (es ++ fs) where
  sorted := by
    rw [List.map_append, List.pairwise_append]
    refine ⟨hl.sorted, hr.sorted, fun a ha b hb => ?_⟩
    exact lt_of_lt_of_le (hl.range a ha).lt_upper (hr.range b hb).lower_le
  range := by
    intro q hq
    rw [List.map_append, List.mem_append] at hq
    rcases hq with hq | hq
    · exact ⟨(hl.range q hq).1, lt_of_lt_of_le (hl.range q hq).2 hhi⟩
    · exact ⟨le_trans hlo (hr.range q hq).1, (hr.range q hq).2⟩
  lookup := by
    intro q hq
    rcases lt_or_ge q k with hlt | hge
    · rw [lookup_append_left fun a ha => (lt_of_lt_of_le hlt (hr.range a ha).lower_le).ne']
      exact hl.lookup q (hq.of_lt hlt)
    · rw [lookup_append_right fun a ha => (lt_of_lt_of_le (hl.range a ha).lt_upper hge).ne]
      exact hr.lookup q (hq.of_le hge)

/-- A range splits at the first key of its second part. -/
theorem cut {v : V} (h : Holds content lo hi (es ++ (k, v) :: fs)) :
    Holds content lo (k : WithTop K) es ∧ Holds content (k : WithBot K) hi ((k, v) :: fs) := by
  have hs := h.sorted
  rw [List.map_append, List.pairwise_append] at hs
  obtain ⟨hes, hfs, hcross⟩ := hs
  have hk : InRange lo hi k := h.range k (by simp)
  have hleft : ∀ a ∈ es.map Prod.fst, a < k := fun a ha => hcross a ha k (by simp)
  have hright : ∀ a ∈ ((k, v) :: fs).map Prod.fst, k ≤ a := by
    intro a ha
    rw [List.map_cons, List.mem_cons] at ha
    rcases ha with rfl | ha
    · exact le_rfl
    · exact ((List.pairwise_cons.mp hfs).1 a ha).le
  constructor
  · refine ⟨hes, fun a ha => ?_, fun q hq => ?_⟩
    · exact (h.range a (by simp only [List.map_append, List.mem_append]; exact .inl ha)).of_lt
        (hleft a ha)
    · rw [h.lookup q ⟨hq.1, lt_trans hq.2 hk.2⟩]
      exact lookup_append_left fun a ha => (lt_of_lt_of_le hq.lt_upper (hright a ha)).ne'
  · refine ⟨hfs, fun a ha => ?_, fun q hq => ?_⟩
    · exact (h.range a (by simp only [List.map_append, List.mem_append]; exact .inr ha)).of_le
        (hright a ha)
    · rw [h.lookup q ⟨le_trans hk.1 hq.1, hq.2⟩]
      exact lookup_append_right fun a ha => (lt_of_lt_of_le (hleft a ha) hq.lower_le).ne

/-- A key that is absent is inserted at its place. -/
theorem insert {v : V} (h : Holds content lo hi (es ++ fs)) (hk : InRange lo hi k)
    (hes : ∀ a ∈ es.map Prod.fst, a < k) (hfs : ∀ a ∈ fs.map Prod.fst, k < a) :
    Holds (Function.update content k (some v)) lo hi (es ++ (k, v) :: fs) where
  sorted := by
    have hs := h.sorted
    rw [List.map_append, List.pairwise_append] at hs
    rw [List.map_append, List.map_cons, List.pairwise_append, List.pairwise_cons]
    refine ⟨hs.1, ⟨hfs, hs.2.1⟩, fun a ha b hb => ?_⟩
    rcases List.mem_cons.mp hb with rfl | hb
    · exact hes a ha
    · exact hs.2.2 a ha b hb
  range := by
    intro q hq
    rw [List.map_append, List.map_cons, List.mem_append, List.mem_cons] at hq
    rcases hq with hq | rfl | hq
    · exact h.range q (by simp only [List.map_append, List.mem_append]; exact .inl hq)
    · exact hk
    · exact h.range q (by simp only [List.map_append, List.mem_append]; exact .inr hq)
  lookup := by
    intro q hq
    by_cases hqk : q = k
    · subst hqk
      rw [Function.update_self, lookup_append_right fun a ha => (hes a ha).ne]
      simp
    · have hbeq : (q == k) = false := by simpa using hqk
      rw [Function.update_of_ne hqk, h.lookup q hq, List.lookup_append, List.lookup_append,
        List.lookup_cons, hbeq]

/-- A key that is present is erased. -/
theorem erase {v : V} (h : Holds content lo hi (es ++ (k, v) :: fs)) :
    Holds (Function.update content k none) lo hi (es ++ fs) where
  sorted := by
    have hs := h.sorted
    rw [List.map_append, List.map_cons, List.pairwise_append, List.pairwise_cons] at hs
    rw [List.map_append, List.pairwise_append]
    exact ⟨hs.1, hs.2.1.2, fun a ha b hb => hs.2.2 a ha b (List.mem_cons_of_mem _ hb)⟩
  range := by
    intro q hq
    refine h.range q ?_
    rw [List.map_append, List.mem_append] at hq
    rw [List.map_append, List.map_cons, List.mem_append, List.mem_cons]
    rcases hq with hq | hq
    · exact .inl hq
    · exact .inr (.inr hq)
  lookup := by
    intro q hq
    have hs := h.sorted
    rw [List.map_append, List.map_cons, List.pairwise_append, List.pairwise_cons] at hs
    by_cases hqk : q = k
    · subst hqk
      rw [Function.update_self]
      refine (lookup_eq_none_of_forall_ne fun a ha => ?_).symm
      rw [List.map_append, List.mem_append] at ha
      rcases ha with ha | ha
      · exact (hs.2.2 a ha q (by simp)).ne
      · exact (hs.2.1.1 a ha).ne'
    · have hbeq : (q == k) = false := by simpa using hqk
      rw [Function.update_of_ne hqk, h.lookup q hq, List.lookup_append, List.lookup_append,
        List.lookup_cons, hbeq]

/-- No entries hold the empty map. -/
theorem nil (hnone : ∀ q, InRange lo hi q → content q = none) : Holds content lo hi [] :=
  ⟨List.Pairwise.nil, by simp, fun q hq => hnone q hq⟩

/-- Only the part of the map inside the range matters. -/
theorem congr {content' : K → Option V} (h : Holds content lo hi es)
    (heq : ∀ q, InRange lo hi q → content' q = content q) : Holds content' lo hi es :=
  ⟨h.sorted, h.range, fun q hq => (heq q hq).trans (h.lookup q hq)⟩

end Holds

end Nbfs.Lib
