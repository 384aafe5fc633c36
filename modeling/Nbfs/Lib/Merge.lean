import Nbfs.Lib.Split

set_option autoImplicit false

/-!
# Merging siblings and moving keys between them

A cell with too few keys either joins the sibling next to it, which costs their
parent a key, or takes over keys from it, which changes the separator between
the two.  A root that is left with a single child gives way to it.
-/

namespace Nbfs.Lib.Forest

variable {K V : Type} [LinearOrder K]

/-- `l` and `r` are neighbouring children of `p`, separated by `s`. -/
structure Siblings (F : Forest K V) (root p l r : Ref) (s : K) (m n₁ n₂ : Cell K V) : Prop where
  left : F l = some n₁
  right : F r = some n₂
  par : n₁.par = some p ∧ n₂.par = some p
  level : n₁.level + 1 = m.level ∧ n₂.level + 1 = m.level
  boundary : n₁.hi = (s : WithTop K) ∧ n₂.lo = (s : WithBot K)
  mem : l ∈ m.kids ∧ r ∈ m.kids
  ne : l ≠ r
  ne_parent : l ≠ p ∧ r ≠ p
  ne_root : l ≠ root ∧ r ≠ root

namespace WF

variable {lower upper : Nat} {F F' : Forest K V} {root p l r : Ref} {content : K → Option V}
  {weak fat weak' fat' : Option Ref} {m n₁ n₂ : Cell K V} {s s' : K} {ks₁ ks₂ : List K}
  {cs₁ cs₂ : List Ref}

theorem siblings (h : WF lower upper F root content weak fat) (hp : F p = some m)
    (hbody : m.body = .inner (ks₁ ++ s :: ks₂) (cs₁ ++ l :: r :: cs₂))
    (hlen : cs₁.length = ks₁.length) :
    ∃ n₁ n₂, Siblings F root p l r s m n₁ n₂ := by
  have hspans : Spans F p m.level m.lo (ks₁ ++ ([s] ++ ks₂)) (cs₁ ++ ([l, r] ++ cs₂)) m.hi :=
    h.spans hp hbody
  obtain ⟨lo, hi, ⟨⟨n₁, hl, hpar₁, hlevel₁, -, hhi⟩, ⟨n₂, hr, hpar₂, hlevel₂, hlo, -⟩⟩, -⟩ :=
    Spans.focus hlen rfl hspans
  have hkids : m.kids = cs₁ ++ l :: r :: cs₂ := Cell.kids_inner hbody
  have hlm : l ∈ m.kids := by rw [hkids]; simp
  have hrm : r ∈ m.kids := by rw [hkids]; simp
  refine ⟨n₁, n₂, hl, hr, ⟨hpar₁, hpar₂⟩, ⟨hlevel₁, hlevel₂⟩, ⟨hhi, hlo⟩, ⟨hlm, hrm⟩, ?_, ⟨?_, ?_⟩,
    h.kid_ne_root hp hlm, h.kid_ne_root hp hrm⟩
  · have hnd := h.kids_nodup hp
    rw [hkids, List.nodup_append, List.nodup_cons] at hnd
    exact fun heq => hnd.2.1.1 (by simp [heq])
  · rintro rfl
    rw [hp] at hl
    cases hl
    omega
  · rintro rfl
    rw [hp] at hr
    cases hr
    omega

/-- An inner cell is above its children. -/
theorem level_pos (h : WF lower upper F root content weak fat) (hp : F p = some m) {ks : List K}
    {cs : List Ref} (hbody : m.body = .inner ks cs) : 0 < m.level := by
  have hlen := (h.spans hp hbody).length
  obtain ⟨c, hc⟩ : ∃ c, c ∈ cs := List.exists_mem_of_length_pos (by omega)
  obtain ⟨n, -, -, hlevel⟩ := h.kid hp (by rw [Cell.kids_inner hbody]; exact hc)
  omega

/-- Siblings are both leaves or both inner cells. -/
theorem sibling_bodies (h : WF lower upper F root content weak fat)
    (hs : Siblings F root p l r s m n₁ n₂) :
    (∃ es₁ nx₁ es₂ nx₂, n₁.body = .leaf es₁ nx₁ ∧ n₂.body = .leaf es₂ nx₂) ∨
      ∃ ksl csl ksr csr, n₁.body = .inner ksl csl ∧ n₂.body = .inner ksr csr := by
  have hlevel := hs.level
  cases hb₁ : n₁.body with
  | leaf es₁ nx₁ =>
      have hzero := (h.holds hs.left hb₁).1
      cases hb₂ : n₂.body with
      | leaf es₂ nx₂ => exact .inl ⟨es₁, nx₁, es₂, nx₂, rfl, rfl⟩
      | inner ksr csr =>
          have := h.level_pos hs.right hb₂
          omega
  | inner ksl csl =>
      have hpos := h.level_pos hs.left hb₁
      cases hb₂ : n₂.body with
      | leaf es₂ nx₂ =>
          have := (h.holds hs.right hb₂).1
          omega
      | inner ksr csr => exact .inr ⟨ksl, csl, ksr, csr, rfl, rfl⟩

/-- A cell other than the root has a neighbour: the one on its left, or the one on
its right where it is the first child. -/
theorem neighbour (h : WF lower upper F root content weak fat) (hlower : 0 < lower) {a : Ref}
    {n : Cell K V} (ha : F a = some n) (hne : a ≠ root)
    (hweak : ∀ p, n.par = some p → weak ≠ some p) :
    ∃ p m ks₁ s ks₂ cs₁ l r cs₂, n.par = some p ∧ F p = some m ∧
      m.body = .inner (ks₁ ++ s :: ks₂) (cs₁ ++ l :: r :: cs₂) ∧ cs₁.length = ks₁.length ∧
        (a = l ∧ ks₁ = [] ∨ a = r) := by
  obtain ⟨p, -, hpar, -, -⟩ := h.link a n ha hne
  obtain ⟨m, ks₁, ks₂, cs₁, cs₂, hp, hbody, hlen, -, -⟩ := h.parent_place ha hpar
  have hcount := (h.spans hp hbody).length
  have hmin := (h.sound p m hp).min
  rw [Cell.keys_inner hbody, minOf, if_neg (hweak p hpar)] at hmin
  have hpos : 0 < (ks₁ ++ ks₂).length := lt_of_lt_of_le (by split <;> omega) hmin
  simp only [List.length_append, List.length_cons] at hcount hpos
  rcases List.eq_nil_or_concat ks₁ with rfl | ⟨ks₁, s, rfl⟩
  · obtain rfl : cs₁ = [] := List.eq_nil_of_length_eq_zero hlen
    obtain ⟨s, ks₂, rfl⟩ := List.exists_cons_of_length_pos (by simpa using hpos : 0 < ks₂.length)
    obtain ⟨r, cs₂, rfl⟩ := List.exists_cons_of_length_pos
      (by simp at hcount; omega : 0 < cs₂.length)
    exact ⟨p, m, [], s, ks₂, [], a, r, cs₂, hpar, hp, hbody, rfl, .inl ⟨rfl, rfl⟩⟩
  · rcases List.eq_nil_or_concat cs₁ with rfl | ⟨cs₁, l, rfl⟩
    · simp at hlen
    · refine ⟨p, m, ks₁, s, ks₂, cs₁, l, a, cs₂, hpar, hp, ?_, by simpa using hlen, .inr rfl⟩
      rw [hbody]
      simp

/-- A child of a sibling is neither of the siblings nor their parent. -/
theorem grandkid_ne (h : WF lower upper F root content weak fat)
    (hs : Siblings F root p l r s m n₁ n₂) (hp : F p = some m) {g : Ref}
    (hg : g ∈ n₁.kids ∨ g ∈ n₂.kids) : g ≠ p ∧ g ≠ l ∧ g ≠ r := by
  have hlv : ∃ n, F g = some n ∧ n.level + 2 = m.level := by
    have hlevel := hs.level
    rcases hg with hg | hg
    · obtain ⟨n, hn, -, hlv⟩ := h.kid hs.left hg
      exact ⟨n, hn, by omega⟩
    · obtain ⟨n, hn, -, hlv⟩ := h.kid hs.right hg
      exact ⟨n, hn, by omega⟩
  obtain ⟨n, hn, hlv⟩ := hlv
  have hlevel := hs.level
  refine ⟨?_, ?_, ?_⟩
  · rintro rfl
    rw [hp] at hn
    cases hn
    omega
  · rintro rfl
    rw [hs.left] at hn
    cases hn
    omega
  · rintro rfl
    rw [hs.right] at hn
    cases hn
    omega

/-! ## Merging -/

/-- Two siblings become one, with their parent a key short. -/
theorem merge (h : WF lower upper F root content weak none) (hlower : 0 < lower)
    (hp : F p = some m) (hbody : m.body = .inner (ks₁ ++ s :: ks₂) (cs₁ ++ l :: r :: cs₂))
    (hlen : cs₁.length = ks₁.length) (hs : Siblings F root p l r s m n₁ n₂)
    (hweak : ∀ a, weak = some a → a = l ∨ a = r) {body : Body K V}
    (hl' : F' l = some { n₁ with hi := n₂.hi, body := body }) (hr' : F' r = none)
    (hp' : F' p = some { m with body := .inner (ks₁ ++ ks₂) (cs₁ ++ l :: cs₂) })
    (hkids : ∀ g, g ∈ (⟨n₁.par, n₁.level, n₁.lo, n₂.hi, body⟩ : Cell K V).kids ↔
      g ∈ n₁.kids ∨ g ∈ n₂.kids)
    (hmoved : ∀ g, g ∈ n₁.kids ∨ g ∈ n₂.kids → ∀ n, F g = some n →
      F' g = some { n with par := some l })
    (hother : ∀ a, a ≠ p → a ≠ l → a ≠ r → a ∉ n₁.kids → a ∉ n₂.kids → F' a = F a)
    (hleaf : ∀ es nx, n₁.body = .leaf es nx → ∃ es' nx', body = .leaf es' nx')
    (hkeys : lower ≤ (⟨n₁.par, n₁.level, n₁.lo, n₂.hi, body⟩ : Cell K V).keys.length ∧
      (⟨n₁.par, n₁.level, n₁.lo, n₂.hi, body⟩ : Cell K V).keys.length ≤ upper)
    (hbodyOK : BodyOK F' content l { n₁ with hi := n₂.hi, body := body }) :
    WF lower upper F' root content (some p) none := by
  have hinh : ∃ q, InRange n₁.lo n₂.hi q := by
    have hspans : Spans F p m.level m.lo (ks₁ ++ ([s] ++ ks₂)) (cs₁ ++ ([l, r] ++ cs₂)) m.hi :=
      h.spans hp hbody
    obtain ⟨lo, hi, hspan, -⟩ := Spans.focus hlen rfl hspans
    have hne : KidsInhabited F [l, r] := by
      intro c hc n hn
      refine (h.sound c n hn).inhabited ?_
      rcases List.mem_cons.mp hc with rfl | hc
      · exact hs.ne_root.1
      · rw [List.mem_singleton.mp hc]
        exact hs.ne_root.2
    obtain ⟨⟨nl, hnl, -, -, rfl, -⟩, ⟨nr, hnr, -, -, -, rfl⟩⟩ := id hspan
    rw [hs.left] at hnl
    rw [hs.right] at hnr
    cases hnl
    cases hnr
    exact (hspan.bounds hne).1
  refine h.window hlower p l m ks₁ [s] ks₂ [] cs₁ cs₂ [r] [] hp hbody hlen rfl ?_ ?_ ?_ hp' ?_
    ?_ ?_ ?_ ?_ ?_ ?_ ?_
  · intro c hc
    cases hc
  · intro a ha
    rcases hweak a ha with rfl | rfl
    · exact .inl (by simp)
    · exact .inl (by simp)
  · intro a ha
    cases ha
  · intro c hc _
    rw [List.mem_singleton.mp hc]
    exact hr'
  · intro c hc n hn g hg
    have hor : g ∈ n₁.kids ∨ g ∈ n₂.kids := by
      rcases List.mem_cons.mp hc with rfl | hc
      · rw [hs.left] at hn
        cases hn
        exact .inl hg
      · rw [List.mem_singleton.mp hc, hs.right] at hn
        cases hn
        exact .inr hg
    obtain ⟨gn, hgn⟩ : ∃ gn, F g = some gn := by
      obtain ⟨gn, hgn, -⟩ := h.kid hn hg
      exact ⟨gn, hgn⟩
    exact ⟨l, by simp, _, gn, hl', (hkids g).mpr hor, hgn, hmoved g hor gn hgn⟩
  · intro a hap hal _ hak
    simp only [List.mem_cons, List.not_mem_nil, or_false, not_or] at hal
    exact hother a hap hal.1 hal.2 (hak l (by simp) n₁ hs.left) (hak r (by simp) n₂ hs.right)
  · intro n hn
    rw [hs.left] at hn
    cases hn
    exact ⟨_, hl', rfl, hleaf⟩
  · intro lo hi hspan
    obtain ⟨⟨nl, hnl, -, -, rfl, -⟩, ⟨nr, hnr, -, -, -, rfl⟩⟩ := hspan
    rw [hs.left] at hnl
    rw [hs.right] at hnr
    cases hnl
    cases hnr
    exact ⟨_, hl', hs.par.1, hs.level.1, rfl, rfl⟩
  · intro c hc n hn
    rw [List.mem_singleton.mp hc] at hn ⊢
    rw [hl'] at hn
    cases hn
    refine ⟨fun _ => hinh, ?_, ?_, hbodyOK⟩
    · have hpl : some p ≠ some l := fun heq => hs.ne_parent.1 (Option.some.inj heq).symm
      rw [minOf, if_neg hpl, if_neg hs.ne_root.1]
      exact hkeys.1
    · rw [maxOf_none]
      exact hkeys.2
  · have hmin := (h.sound p m hp).min
    have hpw : weak ≠ some p := fun heq => (hweak p heq).elim
      (fun heq => hs.ne_parent.1 heq.symm) (fun heq => hs.ne_parent.2 heq.symm)
    rw [Cell.keys_inner hbody, minOf, if_neg hpw] at hmin
    rw [minOf, if_pos rfl]
    simp only [List.length_append, List.length_cons, List.length_nil] at hmin ⊢
    split at hmin <;> rename_i hroot
    · rw [if_pos hroot]
      omega
    · rw [if_neg hroot]
      omega
  · have hmax := (h.sound p m hp).max
    rw [Cell.keys_inner hbody, maxOf_none] at hmax
    rw [maxOf_none]
    simp only [List.length_append, List.length_cons, List.length_nil] at hmax ⊢
    omega

/-- A leaf is not its own successor. -/
theorem next_ne_self {a b : Ref} {n : Cell K V} (ha : F a = some n)
    (hinh : ∃ q, InRange n.lo n.hi q) (hnext : NextOK F n.hi (some b)) : b ≠ a := by
  rintro rfl
  obtain ⟨nb, es, nx, k, hnb, -, hhi, hlo⟩ := hnext
  rw [ha] at hnb
  cases hnb
  -- the range would start where it ends
  obtain ⟨q, hq⟩ := hinh
  rw [hlo, hhi] at hq
  exact absurd hq.lt_upper (not_lt.mpr hq.lower_le)

/-- Siblings are not the root, so their ranges have keys. -/
theorem sibling_ranges (h : WF lower upper F root content weak fat)
    (hs : Siblings F root p l r s m n₁ n₂) :
    (∃ q, InRange n₁.lo (s : WithTop K) q) ∧ ∃ q, InRange (s : WithBot K) n₂.hi q :=
  ⟨hs.boundary.1 ▸ (h.sound l n₁ hs.left).inhabited hs.ne_root.1,
    hs.boundary.2 ▸ (h.sound r n₂ hs.right).inhabited hs.ne_root.2⟩

/-- Two leaves become one. -/
theorem mergeLeaves (h : WF lower upper F root content weak none) (hlower : 0 < lower)
    (hp : F p = some m) (hbody : m.body = .inner (ks₁ ++ s :: ks₂) (cs₁ ++ l :: r :: cs₂))
    (hlen : cs₁.length = ks₁.length) (hs : Siblings F root p l r s m n₁ n₂)
    (hweak : ∀ a, weak = some a → a = l ∨ a = r) {es₁ es₂ : List (K × V)} {nx₁ nx₂ : Option Ref}
    (hb₁ : n₁.body = .leaf es₁ nx₁) (hb₂ : n₂.body = .leaf es₂ nx₂)
    (hl' : F' l = some { n₁ with hi := n₂.hi, body := .leaf (es₁ ++ es₂) nx₂ })
    (hr' : F' r = none)
    (hp' : F' p = some { m with body := .inner (ks₁ ++ ks₂) (cs₁ ++ l :: cs₂) })
    (hother : ∀ a, a ≠ p → a ≠ l → a ≠ r → F' a = F a)
    (hkeys : lower ≤ es₁.length + es₂.length ∧ es₁.length + es₂.length ≤ upper) :
    WF lower upper F' root content (some p) none := by
  obtain ⟨hlevel, hholds₁, -⟩ := h.holds hs.left hb₁
  obtain ⟨-, hholds₂, hnext⟩ := h.holds hs.right hb₂
  obtain ⟨⟨q₁, hq₁⟩, ⟨q₂, hq₂⟩⟩ := h.sibling_ranges hs
  rw [hs.boundary.1] at hholds₁
  rw [hs.boundary.2] at hholds₂
  have hlo : n₁.lo ≤ (s : WithBot K) := hq₁.1.trans (WithBot.coe_le_coe.mpr hq₁.lt_upper.le)
  have hhi : (s : WithTop K) ≤ n₂.hi := (WithTop.coe_le_coe.mpr hq₂.lower_le).trans hq₂.2.le
  have hnext' : NextOK F' n₂.hi nx₂ := by
    cases nx₂ with
    | none => exact hnext
    | some b =>
        obtain ⟨mb, es, nx, k, hmb, hes, hhik, hlok⟩ := hnext
        have hbr : b ≠ r := next_ne_self hs.right ⟨q₂, hs.boundary.2 ▸ hq₂⟩
          ⟨mb, es, nx, k, hmb, hes, hhik, hlok⟩
        have hbp : b ≠ p := by
          rintro rfl
          rw [hp] at hmb
          cases hmb
          rw [hbody] at hes
          cases hes
        by_cases hbl : b = l
        · subst hbl
          rw [hs.left] at hmb
          cases hmb
          exact ⟨_, _, _, k, hl', rfl, hhik, hlok⟩
        · exact ⟨mb, es, nx, k, (hother b hbp hbl hbr).trans hmb, hes, hhik, hlok⟩
  refine h.merge hlower hp hbody hlen hs hweak hl' hr' hp' ?_ ?_ ?_ ?_ ?_ ?_
  · intro g
    rw [Cell.kids_leaf rfl, Cell.kids_leaf hb₁, Cell.kids_leaf hb₂]
    simp
  · intro g hg
    rw [Cell.kids_leaf hb₁, Cell.kids_leaf hb₂] at hg
    simp at hg
  · exact fun a hap hal har _ _ => hother a hap hal har
  · exact fun _ _ _ => ⟨_, _, rfl⟩
  · rw [Cell.keys_leaf rfl, List.length_map, List.length_append]
    exact hkeys
  · exact (bodyOK_leaf rfl).mpr ⟨hlevel, hholds₁.join hholds₂ hlo hhi, hnext'⟩

/-- Two inner cells become one, with the separator between their keys. -/
theorem mergeInner (h : WF lower upper F root content weak none) (hlower : 0 < lower)
    (hp : F p = some m) (hbody : m.body = .inner (ks₁ ++ s :: ks₂) (cs₁ ++ l :: r :: cs₂))
    (hlen : cs₁.length = ks₁.length) (hs : Siblings F root p l r s m n₁ n₂)
    (hweak : ∀ a, weak = some a → a = l ∨ a = r) {ksl ksr : List K} {csl csr : List Ref}
    (hb₁ : n₁.body = .inner ksl csl) (hb₂ : n₂.body = .inner ksr csr)
    (hl' : F' l = some { n₁ with hi := n₂.hi, body := .inner (ksl ++ s :: ksr) (csl ++ csr) })
    (hr' : F' r = none)
    (hp' : F' p = some { m with body := .inner (ks₁ ++ ks₂) (cs₁ ++ l :: cs₂) })
    (hmoved : ∀ g ∈ csl ++ csr, ∀ n, F g = some n → F' g = some { n with par := some l })
    (hother : ∀ a, a ≠ p → a ≠ l → a ≠ r → a ∉ csl ++ csr → F' a = F a)
    (hkeys : lower ≤ ksl.length + ksr.length + 1 ∧ ksl.length + ksr.length + 1 ≤ upper) :
    WF lower upper F' root content (some p) none := by
  have hspan₁ := h.spans hs.left hb₁
  have hspan₂ := h.spans hs.right hb₂
  rw [hs.boundary.1] at hspan₁
  have hlevel : n₂.level = n₁.level := by have := hs.level; omega
  rw [hs.boundary.2, hlevel] at hspan₂
  refine h.merge hlower hp hbody hlen hs hweak hl' hr' hp' ?_ ?_ ?_ ?_ ?_ ?_
  · intro g
    rw [Cell.kids_inner rfl, Cell.kids_inner hb₁, Cell.kids_inner hb₂, List.mem_append]
  · intro g hg
    rw [Cell.kids_inner hb₁, Cell.kids_inner hb₂, ← List.mem_append] at hg
    exact hmoved g hg
  · intro a hap hal har ha₁ ha₂
    rw [Cell.kids_inner hb₁] at ha₁
    rw [Cell.kids_inner hb₂] at ha₂
    exact hother a hap hal har fun hmem => (List.mem_append.mp hmem).elim ha₁ ha₂
  · intro es nx hleaf
    rw [hb₁] at hleaf
    cases hleaf
  · rw [Cell.keys_inner rfl, List.length_append, List.length_cons]
    omega
  · refine (bodyOK_inner rfl).mpr ((spans_append hspan₁.length).mpr ⟨?_, ?_⟩)
    · exact hspan₁.reparent fun c hc => hmoved c (List.mem_append_left _ hc)
    · exact hspan₂.reparent fun c hc => hmoved c (List.mem_append_right _ hc)

/-! ## Moving keys -/

/-- Two siblings divide their contents anew, at another separator. -/
theorem rebalance (h : WF lower upper F root content weak none) (hlower : 0 < lower)
    (hp : F p = some m) (hbody : m.body = .inner (ks₁ ++ s :: ks₂) (cs₁ ++ l :: r :: cs₂))
    (hlen : cs₁.length = ks₁.length) (hs : Siblings F root p l r s m n₁ n₂)
    (hweak : ∀ a, weak = some a → a = l ∨ a = r) {n₁' n₂' : Cell K V}
    (hl' : F' l = some n₁') (hr' : F' r = some n₂')
    (hview₁ : n₁'.par = n₁.par ∧ n₁'.level = n₁.level ∧ n₁'.lo = n₁.lo ∧ n₁'.hi = (s' : WithTop K))
    (hview₂ : n₂'.par = n₂.par ∧ n₂'.level = n₂.level ∧ n₂'.lo = (s' : WithBot K) ∧ n₂'.hi = n₂.hi)
    (hp' : F' p = some { m with body := .inner (ks₁ ++ s' :: ks₂) (cs₁ ++ l :: r :: cs₂) })
    (hkids : ∀ g, g ∈ n₁.kids ∨ g ∈ n₂.kids → g ∈ n₁'.kids ∨ g ∈ n₂'.kids)
    (hmoved₁ : ∀ g ∈ n₁'.kids, ∀ n, F g = some n → F' g = some { n with par := some l })
    (hmoved₂ : ∀ g ∈ n₂'.kids, ∀ n, F g = some n → F' g = some { n with par := some r })
    (hother : ∀ a, a ≠ p → a ≠ l → a ≠ r → a ∉ n₁.kids → a ∉ n₂.kids → F' a = F a)
    (hleaf : ∀ es nx, n₁.body = .leaf es nx → ∃ es' nx', n₁'.body = .leaf es' nx')
    (hinh : (∃ q, InRange n₁'.lo n₁'.hi q) ∧ ∃ q, InRange n₂'.lo n₂'.hi q)
    (hkeys₁ : lower ≤ n₁'.keys.length ∧ n₁'.keys.length ≤ upper)
    (hkeys₂ : lower ≤ n₂'.keys.length ∧ n₂'.keys.length ≤ upper)
    (hbody₁ : BodyOK F' content l n₁') (hbody₂ : BodyOK F' content r n₂') :
    WF lower upper F' root content none none := by
  refine h.window hlower p l m ks₁ [s] ks₂ [s'] cs₁ cs₂ [r] [r] hp hbody hlen rfl ?_ ?_ ?_ hp' ?_
    ?_ ?_ ?_ ?_ ?_ ?_ ?_
  · exact fun c hc => .inl hc
  · intro a ha
    rcases hweak a ha with rfl | rfl
    · exact .inl (by simp)
    · exact .inl (by simp)
  · intro a ha
    cases ha
  · exact fun c hc hno => absurd hc hno
  · intro c hc n hn g hg
    have hor : g ∈ n₁.kids ∨ g ∈ n₂.kids := by
      rcases List.mem_cons.mp hc with rfl | hc
      · rw [hs.left] at hn
        cases hn
        exact .inl hg
      · rw [List.mem_singleton.mp hc, hs.right] at hn
        cases hn
        exact .inr hg
    obtain ⟨gn, hgn⟩ : ∃ gn, F g = some gn := by
      obtain ⟨gn, hgn, -⟩ := h.kid hn hg
      exact ⟨gn, hgn⟩
    rcases hkids g hor with hg' | hg'
    · exact ⟨l, by simp, _, gn, hl', hg', hgn, hmoved₁ g hg' gn hgn⟩
    · exact ⟨r, by simp, _, gn, hr', hg', hgn, hmoved₂ g hg' gn hgn⟩
  · intro a hap hal _ hak
    simp only [List.mem_cons, List.not_mem_nil, or_false, not_or] at hal
    exact hother a hap hal.1 hal.2 (hak l (by simp) n₁ hs.left) (hak r (by simp) n₂ hs.right)
  · intro n hn
    rw [hs.left] at hn
    cases hn
    exact ⟨_, hl', hview₁.2.2.1, hleaf⟩
  · intro lo hi hspan
    obtain ⟨⟨nl, hnl, -, -, rfl, -⟩, ⟨nr, hnr, -, -, -, rfl⟩⟩ := hspan
    rw [hs.left] at hnl
    rw [hs.right] at hnr
    cases hnl
    cases hnr
    exact ⟨⟨n₁', hl', hview₁.1.trans hs.par.1, by rw [hview₁.2.1, hs.level.1], hview₁.2.2.1,
        hview₁.2.2.2⟩,
      ⟨n₂', hr', hview₂.1.trans hs.par.2, by rw [hview₂.2.1, hs.level.2], hview₂.2.2.1,
        hview₂.2.2.2⟩⟩
  · intro c hc n hn
    rcases List.mem_cons.mp hc with rfl | hc
    · rw [hl'] at hn
      cases hn
      exact sound_of_parts hlower hinh.1 hkeys₁ hbody₁
    · rw [List.mem_singleton.mp hc] at hn ⊢
      rw [hr'] at hn
      cases hn
      exact sound_of_parts hlower hinh.2 hkeys₂ hbody₂
  · have hmin := (h.sound p m hp).min
    have hpw : weak ≠ some p := fun heq => (hweak p heq).elim
      (fun heq => hs.ne_parent.1 heq.symm) (fun heq => hs.ne_parent.2 heq.symm)
    rw [Cell.keys_inner hbody, minOf, if_neg hpw] at hmin
    rw [minOf_none]
    simpa using hmin
  · have hmax := (h.sound p m hp).max
    rw [Cell.keys_inner hbody, maxOf_none] at hmax
    rw [maxOf_none]
    simpa using hmax

/-- Two leaves divide their entries anew. -/
theorem rebalanceLeaves (h : WF lower upper F root content weak none) (hlower : 0 < lower)
    (hp : F p = some m) (hbody : m.body = .inner (ks₁ ++ s :: ks₂) (cs₁ ++ l :: r :: cs₂))
    (hlen : cs₁.length = ks₁.length) (hs : Siblings F root p l r s m n₁ n₂)
    (hweak : ∀ a, weak = some a → a = l ∨ a = r) {es₁ es₂ es₁' es₂' : List (K × V)}
    {nx₁ nx₂ : Option Ref} {v : V}
    (hb₁ : n₁.body = .leaf es₁ nx₁) (hb₂ : n₂.body = .leaf es₂ nx₂)
    (hes : es₁ ++ es₂ = es₁' ++ (s', v) :: es₂')
    (hl' : F' l = some { n₁ with hi := (s' : WithTop K), body := .leaf es₁' nx₁ })
    (hr' : F' r = some { n₂ with lo := (s' : WithBot K), body := .leaf ((s', v) :: es₂') nx₂ })
    (hp' : F' p = some { m with body := .inner (ks₁ ++ s' :: ks₂) (cs₁ ++ l :: r :: cs₂) })
    (hother : ∀ a, a ≠ p → a ≠ l → a ≠ r → F' a = F a)
    (hkeys₁ : lower ≤ es₁'.length ∧ es₁'.length ≤ upper)
    (hkeys₂ : lower ≤ es₂'.length + 1 ∧ es₂'.length + 1 ≤ upper) :
    WF lower upper F' root content none none := by
  obtain ⟨hlevel₁, hholds₁, hnext₁⟩ := h.holds hs.left hb₁
  obtain ⟨hlevel₂, hholds₂, hnext₂⟩ := h.holds hs.right hb₂
  obtain ⟨⟨q₁, hq₁⟩, ⟨q₂, hq₂⟩⟩ := h.sibling_ranges hs
  have hlo : n₁.lo ≤ (s : WithBot K) := hq₁.1.trans (WithBot.coe_le_coe.mpr hq₁.lt_upper.le)
  have hhi : (s : WithTop K) ≤ n₂.hi := (WithTop.coe_le_coe.mpr hq₂.lower_le).trans hq₂.2.le
  have hall : Holds content n₁.lo n₂.hi (es₁' ++ (s', v) :: es₂') := by
    rw [← hes]
    rw [hs.boundary.1] at hholds₁
    rw [hs.boundary.2] at hholds₂
    exact hholds₁.join hholds₂ hlo hhi
  obtain ⟨hcut₁, hcut₂⟩ := hall.cut
  have hleafne : ∀ b mb es nx, F b = some mb → mb.body = .leaf es nx → b ≠ p := by
    rintro b mb es nx hmb hes rfl
    rw [hp] at hmb
    cases hmb
    rw [hbody] at hes
    cases hes
  have hnext₁' : NextOK F' (s' : WithTop K) nx₁ := by
    cases nx₁ with
    | none =>
        have htop : n₁.hi = ⊤ := hnext₁
        rw [hs.boundary.1] at htop
        exact absurd htop WithTop.coe_ne_top
    | some b =>
        obtain ⟨mb, es, nx, k, hmb, hbes, hhik, hlok⟩ := hnext₁
        rw [hs.boundary.1] at hhik
        have hsk : s = k := WithTop.coe_inj.mp hhik
        have hbr : b = r := h.unique_start hmb hs.right (h.holds hmb hbes).1 hlevel₂ hlok
          (hsk ▸ hs.boundary.2)
        exact ⟨_, _, _, s', hbr ▸ hr', rfl, rfl, rfl⟩
  have hnext₂' : NextOK F' n₂.hi nx₂ := by
    cases nx₂ with
    | none => exact hnext₂
    | some b =>
        have hbr : b ≠ r := next_ne_self hs.right ⟨q₂, hs.boundary.2 ▸ hq₂⟩ hnext₂
        obtain ⟨mb, es, nx, k, hmb, hbes, hhik, hlok⟩ := hnext₂
        by_cases hbl : b = l
        · subst hbl
          rw [hs.left] at hmb
          cases hmb
          exact ⟨_, _, _, k, hl', rfl, hhik, hlok⟩
        · exact ⟨mb, es, nx, k, (hother b (hleafne b mb es nx hmb hbes) hbl hbr).trans hmb, hbes,
            hhik, hlok⟩
  refine h.rebalance hlower hp hbody hlen hs hweak hl' hr' ⟨rfl, rfl, rfl, rfl⟩
    ⟨rfl, rfl, rfl, rfl⟩ hp' ?_ ?_ ?_ ?_ ?_ ⟨?_, ?_⟩ ?_ ?_ ?_ ?_
  · intro g hg
    rw [Cell.kids_leaf hb₁, Cell.kids_leaf hb₂] at hg
    simp at hg
  · intro g hg
    simp [Cell.kids] at hg
  · intro g hg
    simp [Cell.kids] at hg
  · exact fun a hap hal har _ _ => hother a hap hal har
  · exact fun _ _ _ => ⟨_, _, rfl⟩
  · cases es₁' with
    | nil => simp at hkeys₁; omega
    | cons e es₁' => exact ⟨e.1, hcut₁.range e.1 (by simp)⟩
  · exact ⟨s', hcut₂.range s' (by simp)⟩
  · rw [Cell.keys_leaf rfl, List.length_map]
    exact hkeys₁
  · rw [Cell.keys_leaf rfl, List.length_map]
    exact hkeys₂
  · exact (bodyOK_leaf rfl).mpr ⟨hlevel₁, hcut₁, hnext₁'⟩
  · exact (bodyOK_leaf rfl).mpr ⟨hlevel₂, hcut₂, hnext₂'⟩

/-- Two inner cells divide their children anew; the old separator comes down
between their keys and the new one goes up. -/
theorem rebalanceInner (h : WF lower upper F root content weak none) (hlower : 0 < lower)
    (hp : F p = some m) (hbody : m.body = .inner (ks₁ ++ s :: ks₂) (cs₁ ++ l :: r :: cs₂))
    (hlen : cs₁.length = ks₁.length) (hs : Siblings F root p l r s m n₁ n₂)
    (hweak : ∀ a, weak = some a → a = l ∨ a = r) {ksl ksr ksl' ksr' : List K}
    {csl csr csl' csr' : List Ref}
    (hb₁ : n₁.body = .inner ksl csl) (hb₂ : n₂.body = .inner ksr csr)
    (hks : ksl ++ s :: ksr = ksl' ++ s' :: ksr') (hcs : csl ++ csr = csl' ++ csr')
    (hcsl : csl'.length = ksl'.length + 1)
    (hl' : F' l = some { n₁ with hi := (s' : WithTop K), body := .inner ksl' csl' })
    (hr' : F' r = some { n₂ with lo := (s' : WithBot K), body := .inner ksr' csr' })
    (hp' : F' p = some { m with body := .inner (ks₁ ++ s' :: ks₂) (cs₁ ++ l :: r :: cs₂) })
    (hmoved₁ : ∀ g ∈ csl', ∀ n, F g = some n → F' g = some { n with par := some l })
    (hmoved₂ : ∀ g ∈ csr', ∀ n, F g = some n → F' g = some { n with par := some r })
    (hother : ∀ a, a ≠ p → a ≠ l → a ≠ r → a ∉ csl ++ csr → F' a = F a)
    (hkeys₁ : lower ≤ ksl'.length ∧ ksl'.length ≤ upper)
    (hkeys₂ : lower ≤ ksr'.length ∧ ksr'.length ≤ upper) :
    WF lower upper F' root content none none := by
  have hspan₁ := h.spans hs.left hb₁
  have hspan₂ := h.spans hs.right hb₂
  rw [hs.boundary.1] at hspan₁
  have hlevel : n₂.level = n₁.level := by have := hs.level; omega
  rw [hs.boundary.2, hlevel] at hspan₂
  -- all children side by side, as if the left sibling had them all
  have hjoined : Spans (adopt F (csl ++ csr) l) l n₁.level n₁.lo (ksl ++ s :: ksr) (csl ++ csr)
      n₂.hi := by
    refine (spans_append hspan₁.length).mpr ⟨hspan₁.reparent fun c hc n hn => ?_,
      hspan₂.reparent fun c hc n hn => ?_⟩
    · exact adopt_of_mem (List.mem_append_left _ hc) hn
    · exact adopt_of_mem (List.mem_append_right _ hc) hn
  have hinh : KidsInhabited (adopt F (csl ++ csr) l) (csl ++ csr) := by
    intro c hc n hn
    have hkid : ∃ nc, F c = some nc ∧ ∃ q, InRange nc.lo nc.hi q := by
      rcases List.mem_append.mp hc with hc | hc
      · rw [← Cell.kids_inner hb₁] at hc
        obtain ⟨nc, hnc, -⟩ := h.kid hs.left hc
        exact ⟨nc, hnc, h.kidsInhabited hs.left c hc nc hnc⟩
      · rw [← Cell.kids_inner hb₂] at hc
        obtain ⟨nc, hnc, -⟩ := h.kid hs.right hc
        exact ⟨nc, hnc, h.kidsInhabited hs.right c hc nc hnc⟩
    obtain ⟨nc, hnc, hq⟩ := hkid
    rw [adopt_of_mem hc hnc] at hn
    cases hn
    exact hq
  have hbounds := hjoined.bounds hinh
  have hs' : n₁.lo < (s' : WithBot K) ∧ InRange n₁.lo n₂.hi s' :=
    hbounds.2.1 s' (by rw [hks]; simp)
  rw [hks, hcs] at hjoined
  rw [hcs] at hinh
  obtain ⟨hcut₁, hcut₂⟩ := (spans_append hcsl).mp hjoined
  have hadopted : ∀ c ∈ csl' ++ csr', ∀ n, adopt F (csl' ++ csr') l c = some n →
      ∃ nc, F c = some nc ∧ n = { nc with par := some l } := by
    intro c hc n hn
    cases hF : F c with
    | none => simp [adopt, hF] at hn
    | some nc =>
        rw [adopt_of_mem hc hF] at hn
        cases hn
        exact ⟨nc, rfl, rfl⟩
  have hmv₁ : ∀ c ∈ csl', ∀ n, adopt F (csl' ++ csr') l c = some n →
      F' c = some { n with par := some l } := by
    intro c hc n hn
    obtain ⟨nc, hnc, rfl⟩ := hadopted c (List.mem_append_left _ hc) n hn
    exact hmoved₁ c hc nc hnc
  have hmv₂ : ∀ c ∈ csr', ∀ n, adopt F (csl' ++ csr') l c = some n →
      F' c = some { n with par := some r } := by
    intro c hc n hn
    obtain ⟨nc, hnc, rfl⟩ := hadopted c (List.mem_append_right _ hc) n hn
    exact hmoved₂ c hc nc hnc
  refine h.rebalance hlower hp hbody hlen hs hweak hl' hr' ⟨rfl, rfl, rfl, rfl⟩
    ⟨rfl, rfl, rfl, rfl⟩ hp' ?_ ?_ ?_ ?_ ?_ ⟨?_, ?_⟩ ?_ ?_ ?_ ?_
  · intro g hg
    rw [Cell.kids_inner hb₁, Cell.kids_inner hb₂, ← List.mem_append, hcs] at hg
    rw [Cell.kids_inner rfl, Cell.kids_inner rfl]
    exact List.mem_append.mp hg
  · exact hmoved₁
  · exact hmoved₂
  · intro a hap hal har ha₁ ha₂
    rw [Cell.kids_inner hb₁] at ha₁
    rw [Cell.kids_inner hb₂] at ha₂
    exact hother a hap hal har fun hmem => (List.mem_append.mp hmem).elim ha₁ ha₂
  · intro es nx hleaf
    rw [hb₁] at hleaf
    cases hleaf
  · cases ksl' with
    | nil => simp at hkeys₁; omega
    | cons k ksl' =>
        have hk := (hbounds.2.1 k (by rw [hks]; simp)).2
        have hsorted := hjoined.sorted hinh
        rw [List.cons_append, List.pairwise_cons] at hsorted
        exact ⟨k, hk.of_lt (hsorted.1 s' (by simp))⟩
  · exact ⟨s', le_rfl, hs'.2.2⟩
  · rw [Cell.keys_inner rfl]
    exact hkeys₁
  · rw [Cell.keys_inner rfl]
    exact hkeys₂
  · exact (bodyOK_inner rfl).mpr (hcut₁.reparent hmv₁)
  · refine (bodyOK_inner rfl).mpr ?_
    have hspan := hcut₂.reparent hmv₂
    rw [← hlevel] at hspan
    exact hspan

/-! ## Losing the root -/

/-- A root with a single child gives way to it. -/
theorem shrink {c : Ref} {n r : Cell K V} (h : WF lower upper F root content (some root) none)
    (hlower : 0 < lower) (hr : F root = some r) (hbody : r.body = .inner [] [c])
    (hc : F c = some n) (hroot' : F' root = none) (hc' : F' c = some { n with par := none })
    (hother : ∀ a, a ≠ root → a ≠ c → F' a = F a) :
    WF lower upper F' c content none none := by
  obtain ⟨r', hr', -, hlo, hhi, hmaxlv⟩ := h.root_cell
  rw [hr] at hr'
  cases hr'
  have hspan : Spans F root r.level r.lo [] [c] r.hi := h.spans hr hbody
  obtain ⟨nc, hnc, -, hlevel, hclo, hchi⟩ := hspan
  rw [hc] at hnc
  cases hnc
  have hcm : c ∈ r.kids := by rw [Cell.kids_inner hbody]; simp
  have hcr : c ≠ root := h.kid_ne_root hr hcm
  -- every other cell is unchanged, and hangs from a cell other than the root
  have hold : ∀ a na, F' a = some na → a ≠ c → F a = some na ∧ a ≠ root := by
    intro a na ha hac
    have har : a ≠ root := by rintro rfl; rw [hroot'] at ha; cases ha
    exact ⟨(hother a har hac) ▸ ha, har⟩
  have hup : ∀ a na, F a = some na → a ≠ root → a ≠ c → ∃ p m m', na.par = some p ∧ p ≠ root ∧
      F p = some m ∧ F' p = some m' ∧ m'.kids = m.kids ∧ a ∈ m.kids := by
    intro a na ha har hac
    obtain ⟨p, m, hp, hFp, hmem⟩ := h.link a na ha har
    have hpr : p ≠ root := by
      rintro rfl
      rw [hr] at hFp
      cases hFp
      rw [Cell.kids_inner hbody, List.mem_singleton] at hmem
      exact hac hmem
    by_cases hpc : p = c
    · subst hpc
      rw [hc] at hFp
      cases hFp
      exact ⟨p, n, _, hp, hpr, hc, hc', rfl, hmem⟩
    · exact ⟨p, m, m, hp, hpr, hFp, (hother p hpr hpc).trans hFp, rfl, hmem⟩
  have hbelow : ∀ a na, F a = some na → a ≠ root → na.level ≤ n.level := by
    intro a na ha har
    obtain ⟨p, m, -, hFp, hmem⟩ := h.link a na ha har
    obtain ⟨na', hna', -, hlv⟩ := h.kid hFp hmem
    rw [ha] at hna'
    cases hna'
    have := hmaxlv p m hFp
    omega
  have hsame : ∀ b, SameLeaf F F' b := by
    intro b nb es nx hnb hes
    have hbr : b ≠ root := by
      rintro rfl
      rw [hr] at hnb
      cases hnb
      rw [hbody] at hes
      cases hes
    by_cases hbc : b = c
    · subst hbc
      rw [hc] at hnb
      cases hnb
      exact ⟨_, es, nx, hc', hes, rfl⟩
    · exact sameLeaf_of_eq (hother b hbr hbc) nb es nx hnb hes
  have hbodyOK : ∀ a na, F a = some na → a ≠ root → BodyOK F' content a na := by
    intro a na ha har
    refine (h.sound a na ha).body.mono (fun g hg => ?_) hsame
    have hgc : g ≠ c := by
      rintro rfl
      exact har (h.kid_parent ha hg hr hcm)
    exact sameView_of_eq (hother g (h.kid_ne_root ha hg) hgc)
  have hkeys : ∀ a na, F a = some na → a ≠ root →
      lower ≤ na.keys.length ∧ na.keys.length ≤ upper := by
    intro a na ha har
    have hs := h.sound a na ha
    have hmin := hs.min
    have hmax := hs.max
    have hne : some root ≠ some a := fun heq => har (Option.some.inj heq).symm
    rw [minOf, if_neg hne, if_neg har] at hmin
    rw [maxOf_none] at hmax
    exact ⟨hmin, hmax⟩
  refine ⟨?_, ?_, ?_⟩
  · refine ⟨_, hc', rfl, hclo.trans hlo, hchi.trans hhi, fun a na ha => ?_⟩
    by_cases hac : a = c
    · subst hac
      rw [hc'] at ha
      cases ha
      exact le_rfl
    · exact hbelow a na (hold a na ha hac).1 (hold a na ha hac).2
  · intro a na ha hac
    obtain ⟨hFa, har⟩ := hold a na ha hac
    obtain ⟨p, m, m', hp, -, -, hp', hkids, hmem⟩ := hup a na hFa har hac
    exact ⟨p, m', hp, hp', hkids ▸ hmem⟩
  · intro a na ha
    by_cases hac : a = c
    · subst hac
      rw [hc'] at ha
      cases ha
      exact sound_of_parts hlower ((h.sound a n hc).inhabited hcr) (hkeys a n hc hcr)
        ((hbodyOK a n hc hcr).setPar none)
    · obtain ⟨hFa, har⟩ := hold a na ha hac
      exact sound_of_parts hlower ((h.sound a na hFa).inhabited har) (hkeys a na hFa har)
        (hbodyOK a na hFa har)

end WF

end Nbfs.Lib.Forest
