import Nbfs.Lib.Forest

set_option autoImplicit false

/-!
# Well-formed search trees

`WF` says that a forest is one B+ tree that holds a given map: every cell but
the root hangs from a cell that names it, ranges fit together, leaves hold their
part of the map and every cell has an admissible number of keys.  One cell may
be `weak` (a key short) and one `fat` (a key too many); that is how the tree
looks between two steps of an insertion or a removal.

Four changes keep a tree well formed: new entries in one leaf, a new run of
siblings in place of an old one (this covers splitting, merging and borrowing),
a new root above the old one, and the removal of a root with a single child.
-/

namespace Nbfs.Lib.Forest

variable {K V : Type} [LinearOrder K]

/-- The least number of keys of a cell. -/
def minOf (lower : Nat) (root : Ref) (weak : Option Ref) (a : Ref) : Nat :=
  if weak = some a then (if a = root then 0 else lower - 1)
  else if a = root then 1 else lower

/-- The greatest number of keys of a cell. -/
def maxOf (upper : Nat) (fat : Option Ref) (a : Ref) : Nat :=
  if fat = some a then upper + 1 else upper

/-- The contents of a cell fit its range. -/
def BodyOK (F : Forest K V) (content : K → Option V) (a : Ref) (n : Cell K V) : Prop :=
  match n.body with
  | .leaf es next => n.level = 0 ∧ Holds content n.lo n.hi es ∧ NextOK F n.hi next
  | .inner ks cs => Spans F a n.level n.lo ks cs n.hi

/-- What holds of every cell by itself. -/
structure Sound (lower upper : Nat) (F : Forest K V) (root : Ref) (content : K → Option V)
    (weak fat : Option Ref) (a : Ref) (n : Cell K V) : Prop where
  inhabited : a ≠ root → ∃ q, InRange n.lo n.hi q
  min : minOf lower root weak a ≤ n.keys.length
  max : n.keys.length ≤ maxOf upper fat a
  body : BodyOK F content a n

/-- The forest is one tree with the given root that holds `content`. -/
structure WF (lower upper : Nat) (F : Forest K V) (root : Ref) (content : K → Option V)
    (weak fat : Option Ref) : Prop where
  root_cell : ∃ r, F root = some r ∧ r.par = none ∧ r.lo = ⊥ ∧ r.hi = ⊤ ∧
    ∀ a n, F a = some n → n.level ≤ r.level
  link : ∀ a n, F a = some n → a ≠ root → ∃ p m, n.par = some p ∧ F p = some m ∧ a ∈ m.kids
  sound : ∀ a n, F a = some n → Sound lower upper F root content weak fat a n

section Bounds

variable {lower upper : Nat} {root a : Ref} {weak fat : Option Ref}

theorem minOf_none : minOf lower root none a = if a = root then 1 else lower := by
  simp [minOf]

theorem maxOf_none : maxOf upper none a = upper := by
  simp [maxOf]

theorem minOf_le (weak' : Option Ref) (h : weak ≠ some a) (hlower : 0 < lower) :
    minOf lower root weak' a ≤ minOf lower root weak a := by
  unfold minOf
  rw [if_neg h]
  split <;> split <;> omega

theorem maxOf_le (fat' : Option Ref) (h : fat ≠ some a) :
    maxOf upper fat a ≤ maxOf upper fat' a := by
  unfold maxOf
  rw [if_neg h]
  split <;> omega

end Bounds

theorem bodyOK_leaf {F : Forest K V} {content : K → Option V} {a : Ref} {n : Cell K V}
    {es : List (K × V)} {next : Option Ref} (hb : n.body = .leaf es next) :
    BodyOK F content a n ↔ n.level = 0 ∧ Holds content n.lo n.hi es ∧ NextOK F n.hi next := by
  simp [BodyOK, hb]

theorem bodyOK_inner {F : Forest K V} {content : K → Option V} {a : Ref} {n : Cell K V}
    {ks : List K} {cs : List Ref} (hb : n.body = .inner ks cs) :
    BodyOK F content a n ↔ Spans F a n.level n.lo ks cs n.hi := by
  simp [BodyOK, hb]

/-- Contents keep fitting while the children keep their ranges and the next leaf
its start. -/
theorem BodyOK.mono {F F' : Forest K V} {content : K → Option V} {a : Ref} {n : Cell K V}
    (h : BodyOK F content a n) (hkids : ∀ c ∈ n.kids, SameView F F' c)
    (hnext : ∀ b, SameLeaf F F' b) : BodyOK F' content a n := by
  cases hb : n.body with
  | leaf es next =>
      obtain ⟨hlevel, hes, hok⟩ := (bodyOK_leaf hb).mp h
      exact (bodyOK_leaf hb).mpr ⟨hlevel, hes, hok.mono fun b _ => hnext b⟩
  | inner ks cs =>
      rw [Cell.kids_inner hb] at hkids
      exact (bodyOK_inner hb).mpr (((bodyOK_inner hb).mp h).mono hkids)

/-- The name of the parent is not looked at. -/
theorem BodyOK.setPar {F : Forest K V} {content : K → Option V} {a : Ref} {n : Cell K V}
    (h : BodyOK F content a n) (par : Option Ref) : BodyOK F content a { n with par := par } := h

namespace WF

variable {lower upper : Nat} {F F' : Forest K V} {root : Ref} {content content' : K → Option V}
  {weak fat weak' fat' : Option Ref}

/-! ## What well-formedness says about parents, children and leaves -/

theorem spans (h : WF lower upper F root content weak fat) {p : Ref} {m : Cell K V} {ks : List K}
    {cs : List Ref} (hp : F p = some m) (hb : m.body = .inner ks cs) :
    Spans F p m.level m.lo ks cs m.hi :=
  (bodyOK_inner hb).mp (h.sound p m hp).body

theorem holds (h : WF lower upper F root content weak fat) {a : Ref} {n : Cell K V}
    {es : List (K × V)} {next : Option Ref} (ha : F a = some n) (hb : n.body = .leaf es next) :
    n.level = 0 ∧ Holds content n.lo n.hi es ∧ NextOK F n.hi next :=
  (bodyOK_leaf hb).mp (h.sound a n ha).body

/-- A child names its parent and is one level below it. -/
theorem kid (h : WF lower upper F root content weak fat) {p c : Ref} {m : Cell K V}
    (hp : F p = some m) (hc : c ∈ m.kids) :
    ∃ n, F c = some n ∧ n.par = some p ∧ n.level + 1 = m.level := by
  cases hb : m.body with
  | leaf es next => simp [Cell.kids_leaf hb] at hc
  | inner ks cs =>
      rw [Cell.kids_inner hb] at hc
      obtain ⟨lo, hi, n, hn, hpar, hlevel, -, -⟩ := (h.spans hp hb).exists_childAt c hc
      exact ⟨n, hn, hpar, hlevel⟩

theorem kid_ne_root (h : WF lower upper F root content weak fat) {p c : Ref} {m : Cell K V}
    (hp : F p = some m) (hc : c ∈ m.kids) : c ≠ root := by
  rintro rfl
  obtain ⟨n, hn, hpar, -⟩ := h.kid hp hc
  obtain ⟨r, hr, hrpar, -⟩ := h.root_cell
  rw [hr] at hn
  cases hn
  rw [hrpar] at hpar
  cases hpar

/-- A child has one parent. -/
theorem kid_parent (h : WF lower upper F root content weak fat) {p p' c : Ref} {m m' : Cell K V}
    (hp : F p = some m) (hc : c ∈ m.kids) (hp' : F p' = some m') (hc' : c ∈ m'.kids) :
    p = p' := by
  obtain ⟨n, hn, hpar, -⟩ := h.kid hp hc
  obtain ⟨n', hn', hpar', -⟩ := h.kid hp' hc'
  rw [hn] at hn'
  cases hn'
  rw [hpar] at hpar'
  exact Option.some.inj hpar'

theorem kidsInhabited (h : WF lower upper F root content weak fat) {p : Ref} {m : Cell K V}
    (hp : F p = some m) : KidsInhabited F m.kids := fun c hc n hn =>
  (h.sound c n hn).inhabited (h.kid_ne_root hp hc)

theorem kids_nodup (h : WF lower upper F root content weak fat) {p : Ref} {m : Cell K V}
    (hp : F p = some m) : m.kids.Nodup := by
  cases hb : m.body with
  | leaf es next => simp [Cell.kids_leaf hb]
  | inner ks cs =>
      have hne := h.kidsInhabited hp
      rw [Cell.kids_inner hb] at hne ⊢
      exact (h.spans hp hb).nodup hne

/-- The range of a child is part of its parent's. -/
theorem kid_range (h : WF lower upper F root content weak fat) {p c : Ref} {m n : Cell K V}
    (hp : F p = some m) (hc : c ∈ m.kids) (hn : F c = some n) : m.lo ≤ n.lo ∧ n.hi ≤ m.hi := by
  cases hb : m.body with
  | leaf es next => simp [Cell.kids_leaf hb] at hc
  | inner ks cs =>
      have hne := h.kidsInhabited hp
      rw [Cell.kids_inner hb] at hc hne
      exact ((h.spans hp hb).bounds hne).2.2 c hc n hn

/-- A cell that names a parent hangs from it at one place. -/
theorem parent_place (h : WF lower upper F root content weak fat) {l p : Ref} {n : Cell K V}
    (hl : F l = some n) (hp : n.par = some p) :
    ∃ m ks₁ ks₂ cs₁ cs₂, F p = some m ∧ m.body = .inner (ks₁ ++ ks₂) (cs₁ ++ l :: cs₂) ∧
      cs₁.length = ks₁.length ∧ l ∉ cs₁ ∧ m.level = n.level + 1 := by
  have hne : l ≠ root := by
    rintro rfl
    obtain ⟨r, hr, hpar, -⟩ := h.root_cell
    rw [hl] at hr
    cases hr
    rw [hpar] at hp
    cases hp
  obtain ⟨p', m, hp', hF, hmem⟩ := h.link l n hl hne
  rw [hp] at hp'
  cases hp'
  obtain ⟨nl, hnl, -, hlevel⟩ := h.kid hF hmem
  rw [hl] at hnl
  cases hnl
  cases hb : m.body with
  | leaf es next => simp [Cell.kids_leaf hb] at hmem
  | inner ks cs =>
      rw [Cell.kids_inner hb] at hmem
      obtain ⟨cs₁, cs₂, rfl⟩ := List.append_of_mem hmem
      have hlen := (h.spans hF hb).length
      have hnd := h.kids_nodup hF
      rw [Cell.kids_inner hb, List.nodup_append] at hnd
      refine ⟨m, ks.take cs₁.length, ks.drop cs₁.length, cs₁, cs₂, hF, ?_, ?_, ?_, hlevel.symm⟩
      · rw [List.take_append_drop, hb]
      · rw [List.length_append, List.length_cons] at hlen
        rw [List.length_take]
        omega
      · exact fun hmem₁ => hnd.2.2 l hmem₁ l (by simp) rfl

/-- Only the root names no parent. -/
theorem eq_root_of_par (h : WF lower upper F root content weak fat) {l : Ref} {n : Cell K V}
    (hl : F l = some n) (hp : n.par = none) : l = root := by
  by_contra hne
  obtain ⟨p, m, hp', -⟩ := h.link l n hl hne
  rw [hp] at hp'
  cases hp'

/-- A root at height zero is the only cell. -/
theorem only_root (h : WF lower upper F root content weak fat) {r : Cell K V}
    (hr : F root = some r) (hlevel : r.level = 0) {a : Ref} {n : Cell K V} (ha : F a = some n) :
    a = root := by
  by_contra hne
  obtain ⟨p, m, -, hp, hmem⟩ := h.link a n ha hne
  obtain ⟨n', -, -, hlv⟩ := h.kid hp hmem
  obtain ⟨r', hr', -, -, -, hmax⟩ := h.root_cell
  rw [hr] at hr'
  cases hr'
  have := hmax p m hp
  omega

/-- The keys of a cell increase and lie in its range. -/
theorem keys_sorted (h : WF lower upper F root content weak fat) {a : Ref} {n : Cell K V}
    (ha : F a = some n) :
    n.keys.Pairwise (· < ·) ∧ ∀ k ∈ n.keys, InRange n.lo n.hi k := by
  cases hb : n.body with
  | leaf es next =>
      rw [Cell.keys_leaf hb]
      exact ⟨(h.holds ha hb).2.1.sorted, (h.holds ha hb).2.1.range⟩
  | inner ks cs =>
      have hne := h.kidsInhabited ha
      rw [Cell.kids_inner hb] at hne
      rw [Cell.keys_inner hb]
      exact ⟨(h.spans ha hb).sorted hne, fun k hk => (((h.spans ha hb).bounds hne).2.1 k hk).2⟩

/-- Two cells of one height never share a key of their ranges. -/
theorem unique (h : WF lower upper F root content weak fat) {q : K} :
    ∀ (d : Nat) {a b : Ref} {na nb : Cell K V}, F a = some na → F b = some nb →
      na.level = nb.level → (∀ r, F root = some r → r.level ≤ na.level + d) →
      InRange na.lo na.hi q → InRange nb.lo nb.hi q → a = b := by
  intro d
  induction d with
  | zero =>
      intro a b na nb ha hb hlevel htop _ _
      obtain ⟨r, hr, -, -, -, -⟩ := h.root_cell
      -- at the root's own height there is only the root
      have honly : ∀ x nx, F x = some nx → r.level ≤ nx.level → x = root := by
        intro x nx hx hle
        by_contra hne
        obtain ⟨p, m, -, hp, hmem⟩ := h.link x nx hx hne
        obtain ⟨n, hn, -, hlv⟩ := h.kid hp hmem
        rw [hx] at hn
        cases hn
        obtain ⟨r', hr', -, -, -, hmax⟩ := h.root_cell
        rw [hr] at hr'
        cases hr'
        have := hmax p m hp
        omega
      have hle := htop r hr
      rw [honly a na ha (by omega), honly b nb hb (by omega)]
  | succ d ih =>
      intro a b na nb ha hb hlevel htop hqa hqb
      obtain ⟨r, hr, -, -, -, hmax⟩ := h.root_cell
      by_cases htop' : r.level ≤ na.level + d
      · exact ih ha hb hlevel (fun r' hr' => by rw [hr] at hr'; cases hr'; exact htop') hqa hqb
      have hra : a ≠ root := by rintro rfl; rw [ha] at hr; cases hr; omega
      have hrb : b ≠ root := by rintro rfl; rw [hb] at hr; cases hr; omega
      obtain ⟨pa, ma, -, hpa, hmema⟩ := h.link a na ha hra
      obtain ⟨pb, mb, -, hpb, hmemb⟩ := h.link b nb hb hrb
      -- both parents are responsible for the key, so they are one
      have hparent : ∀ {p x : Ref} {m n : Cell K V}, F p = some m → x ∈ m.kids → F x = some n →
          InRange n.lo n.hi q → n.level + 1 = m.level ∧ InRange m.lo m.hi q := by
        intro p x m n hp hx hn hq
        obtain ⟨n', hn', -, hlv⟩ := h.kid hp hx
        rw [hn] at hn'
        cases hn'
        refine ⟨hlv, ?_⟩
        cases hbody : m.body with
        | leaf es next => simp [Cell.kids_leaf hbody] at hx
        | inner ks cs =>
            have hne := h.kidsInhabited hp
            rw [Cell.kids_inner hbody] at hx hne
            have hb' := ((h.spans hp hbody).bounds hne).2.2 x hx n hn
            exact ⟨hb'.1.trans hq.1, lt_of_lt_of_le hq.2 hb'.2⟩
      obtain ⟨hla, hqa'⟩ := hparent hpa hmema ha hqa
      obtain ⟨hlb, hqb'⟩ := hparent hpb hmemb hb hqb
      have hpp : pa = pb := ih hpa hpb (by omega)
        (fun r' hr' => by have := htop r' hr'; omega) hqa' hqb'
      subst hpp
      rw [hpa] at hpb
      cases hpb
      cases hbody : ma.body with
      | leaf es next => simp [Cell.kids_leaf hbody] at hmema
      | inner ks cs =>
          have hne := h.kidsInhabited hpa
          rw [Cell.kids_inner hbody] at hmema hmemb hne
          exact (h.spans hpa hbody).unique hne a hmema b hmemb na nb ha hb hqa hqb

/-- A key belongs to the range of one leaf. -/
theorem unique_leaf (h : WF lower upper F root content weak fat) {q : K} {a b : Ref}
    {na nb : Cell K V} (ha : F a = some na) (hb : F b = some nb) (hla : na.level = 0)
    (hlb : nb.level = 0) (hqa : InRange na.lo na.hi q) (hqb : InRange nb.lo nb.hi q) : a = b := by
  obtain ⟨r, hr, -, -, -, -⟩ := h.root_cell
  refine h.unique r.level ha hb (hla.trans hlb.symm) (fun r' hr' => ?_) hqa hqb
  rw [hr] at hr'
  cases hr'
  omega

/-- A boundary between leaves ends one leaf only. -/
theorem unique_end (h : WF lower upper F root content weak fat) {k : K} {a b : Ref}
    {na nb : Cell K V} (ha : F a = some na) (hb : F b = some nb) (hla : na.level = 0)
    (hlb : nb.level = 0) (hka : na.hi = (k : WithTop K)) (hkb : nb.hi = (k : WithTop K)) :
    a = b := by
  obtain ⟨r, hr, -, -, hrhi, -⟩ := h.root_cell
  have hne : ∀ x nx, F x = some nx → nx.hi = (k : WithTop K) → x ≠ root := by
    rintro x nx hx hk rfl
    rw [hr] at hx
    cases hx
    rw [hrhi] at hk
    exact WithTop.top_ne_coe hk
  obtain ⟨q₁, hq₁⟩ := (h.sound a na ha).inhabited (hne a na ha hka)
  obtain ⟨q₂, hq₂⟩ := (h.sound b nb hb).inhabited (hne b nb hb hkb)
  -- the greater of the two keys is in both ranges
  rcases le_total q₁ q₂ with hle | hle
  · exact h.unique_leaf ha hb hla hlb
      ⟨hq₁.1.trans (WithBot.coe_le_coe.mpr hle), hka ▸ hkb ▸ hq₂.2⟩ hq₂
  · exact h.unique_leaf ha hb hla hlb hq₁
      ⟨hq₂.1.trans (WithBot.coe_le_coe.mpr hle), hkb ▸ hka ▸ hq₁.2⟩

/-- A key starts one leaf other than the root only. -/
theorem unique_start (h : WF lower upper F root content weak fat) {k : K} {a b : Ref}
    {na nb : Cell K V} (ha : F a = some na) (hb : F b = some nb) (hla : na.level = 0)
    (hlb : nb.level = 0) (hka : na.lo = (k : WithBot K)) (hkb : nb.lo = (k : WithBot K)) :
    a = b := by
  obtain ⟨r, hr, -, hrlo, -, -⟩ := h.root_cell
  have hne : ∀ x nx, F x = some nx → nx.lo = (k : WithBot K) → x ≠ root := by
    rintro x nx hx hk rfl
    rw [hr] at hx
    cases hx
    rw [hrlo] at hk
    exact WithBot.bot_ne_coe hk
  obtain ⟨q₁, hq₁⟩ := (h.sound a na ha).inhabited (hne a na ha hka)
  obtain ⟨q₂, hq₂⟩ := (h.sound b nb hb).inhabited (hne b nb hb hkb)
  -- the smaller of the two keys is in both ranges
  rcases le_total q₁ q₂ with hle | hle
  · exact h.unique_leaf ha hb hla hlb hq₁
      ⟨hkb ▸ hka ▸ hq₁.1, lt_of_le_of_lt (WithTop.coe_le_coe.mpr hle) hq₂.2⟩
  · exact h.unique_leaf ha hb hla hlb
      ⟨hka ▸ hkb ▸ hq₂.1, lt_of_le_of_lt (WithTop.coe_le_coe.mpr hle) hq₁.2⟩ hq₂

/-- A single leaf is a tree. -/
theorem singleton {a : Ref} {es : List (K × V)}
    (hes : Holds content ⊥ ⊤ es) (hmin : minOf lower a weak a ≤ es.length)
    (hmax : es.length ≤ upper) :
    WF lower upper (Function.update (fun _ => none) a (some ⟨none, 0, ⊥, ⊤, .leaf es none⟩)) a
      content weak none := by
  have honly : ∀ x n, Function.update (fun _ => none) a
      (some (⟨none, 0, ⊥, ⊤, .leaf es none⟩ : Cell K V)) x = some n →
      x = a ∧ n = ⟨none, 0, ⊥, ⊤, .leaf es none⟩ := by
    intro x n hx
    by_cases hxa : x = a
    · subst hxa
      rw [Function.update_self] at hx
      exact ⟨rfl, (Option.some.inj hx).symm⟩
    · rw [Function.update_of_ne hxa] at hx
      cases hx
  refine ⟨⟨_, Function.update_self .., rfl, rfl, rfl, fun x n hx => ?_⟩, fun x n hx hne => ?_,
    fun x n hx => ?_⟩
  · rw [(honly x n hx).2]
  · exact absurd (honly x n hx).1 hne
  · obtain ⟨rfl, rfl⟩ := honly x n hx
    refine ⟨fun hne => absurd rfl hne, ?_, ?_, (bodyOK_leaf rfl).mpr
      ⟨rfl, hes, nextOK_none.mpr rfl⟩⟩
    · rw [Cell.keys_leaf rfl, List.length_map]
      exact hmin
    · rw [Cell.keys_leaf rfl, List.length_map, maxOf_none]
      exact hmax

/-- Once the exceptional cells have an ordinary number of keys, none is
exceptional. -/
theorem settle (h : WF lower upper F root content weak fat) (hlower : 0 < lower)
    (hweak : ∀ a n, weak = some a → F a = some n → minOf lower root weak' a ≤ n.keys.length)
    (hfat : ∀ a n, fat = some a → F a = some n → n.keys.length ≤ maxOf upper fat' a) :
    WF lower upper F root content weak' fat' where
  root_cell := h.root_cell
  link := h.link
  sound := by
    intro a n ha
    have hs := h.sound a n ha
    refine ⟨hs.inhabited, ?_, ?_, hs.body⟩
    · by_cases hw : weak = some a
      · exact hweak a n hw ha
      · exact (minOf_le weak' hw hlower).trans hs.min
    · by_cases hf : fat = some a
      · exact hfat a n hf ha
      · exact hs.max.trans (maxOf_le fat' hf)

end WF

end Nbfs.Lib.Forest
