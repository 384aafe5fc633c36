import Nbfs.Lib.Reshape

set_option autoImplicit false

/-!
# Splitting a cell

A cell with too many keys is cut in two.  The upper part goes to a fresh cell,
and the parent learns of it in a second step; `Split` is what holds in between.
The second step either gives the parent a key and a child more, or, where the
cell was the root, puts a new root above both parts.
-/

namespace Nbfs.Lib.Forest

variable {K V : Type} [LinearOrder K]

/-- `F'` comes from `F` by cutting the cell `l`, which was `n`, at the key `k`;
the part from `k` on is now in the fresh cell `r`. -/
structure Split (lower upper : Nat) (F F' : Forest K V) (content : K → Option V)
    (l r : Ref) (k : K) (n n₁ n₂ : Cell K V) : Prop where
  old : F l = some n
  fresh : F r = none
  left : F' l = some n₁
  right : F' r = some n₂
  par : n₁.par = n.par ∧ n₂.par = n.par
  level : n₁.level = n.level ∧ n₂.level = n.level
  leftRange : n₁.lo = n.lo ∧ n₁.hi = (k : WithTop K)
  rightRange : n₂.lo = (k : WithBot K) ∧ n₂.hi = n.hi
  inhabited : (∃ q, InRange n₁.lo n₁.hi q) ∧ ∃ q, InRange n₂.lo n₂.hi q
  leftKeys : lower ≤ n₁.keys.length ∧ n₁.keys.length ≤ upper
  rightKeys : lower ≤ n₂.keys.length ∧ n₂.keys.length ≤ upper
  leftBody : BodyOK F' content l n₁
  rightBody : BodyOK F' content r n₂
  leaf : ∀ es nx, n.body = .leaf es nx → ∃ es' nx', n₁.body = .leaf es' nx'
  kids : ∀ g, (g ∈ n₁.kids ∨ g ∈ n₂.kids) ↔ g ∈ n.kids
  moved : ∀ g ∈ n.kids, ∃ c n' gn, (c = l ∧ n' = n₁ ∨ c = r ∧ n' = n₂) ∧ g ∈ n'.kids ∧
    F g = some gn ∧ F' g = some { gn with par := some c }
  other : ∀ a, a ≠ l → a ≠ r → a ∉ n.kids → F' a = F a

section Parts

variable {lower upper : Nat} {F F' : Forest K V} {root : Ref} {content : K → Option V}
  {fat : Option Ref}

theorem Split.ne {l r : Ref} {k : K} {n n₁ n₂ : Cell K V}
    (hs : Split lower upper F F' content l r k n n₁ n₂) : l ≠ r := by
  rintro rfl
  have hold := hs.old
  rw [hs.fresh] at hold
  cases hold

/-- A cut frees no cell. -/
theorem Split.none_of_none {l r t : Ref} {k : K} {n n₁ n₂ : Cell K V}
    (hs : Split lower upper F F' content l r k n n₁ n₂) (ht : F' t = none) : F t = none := by
  by_cases htl : t = l
  · subst htl
    rw [hs.left] at ht
    cases ht
  by_cases htr : t = r
  · subst htr
    exact hs.fresh
  by_cases htk : t ∈ n.kids
  · obtain ⟨c, n', gn, -, -, -, hgn⟩ := hs.moved t htk
    rw [hgn] at ht
    cases ht
  · rw [← hs.other t htl htr htk, ht]

/-- A part of ordinary size is sound wherever it hangs. -/
theorem sound_of_parts (hlower : 0 < lower) {a : Ref} {n : Cell K V}
    (hinh : ∃ q, InRange n.lo n.hi q) (hkeys : lower ≤ n.keys.length ∧ n.keys.length ≤ upper)
    (hbody : BodyOK F content a n) : Sound lower upper F root content none fat a n := by
  refine ⟨fun _ => hinh, ?_, ?_, hbody⟩
  · rw [minOf_none]
    split <;> omega
  · unfold maxOf
    split <;> omega

/-- Replacing the separators and children of an inner cell leaves the contents
of the other cells fitting. -/
theorem BodyOK.setInner {p a : Ref} {m m' n : Cell K V} {ks : List K} {cs : List Ref}
    (h : BodyOK F content a n) (hp : F p = some m) (hbody : m.body = .inner ks cs)
    (hview : m'.par = m.par ∧ m'.level = m.level ∧ m'.lo = m.lo ∧ m'.hi = m.hi) :
    BodyOK (Function.update F p (some m')) content a n := by
  refine h.mono (fun c _ x hx => ?_) (fun b x es nx hx hb => ?_)
  · by_cases hcp : c = p
    · subst hcp
      rw [hp] at hx
      cases hx
      exact ⟨m', Function.update_self .., hview⟩
    · exact ⟨x, by rwa [Function.update_of_ne hcp], rfl, rfl, rfl, rfl⟩
  · have hbp : b ≠ p := by
      rintro rfl
      rw [hp] at hx
      cases hx
      rw [hbody] at hb
      cases hb
    exact ⟨x, es, nx, by rwa [Function.update_of_ne hbp], hb, rfl⟩

end Parts

namespace WF

variable {lower upper : Nat} {F F' F₂ : Forest K V} {root : Ref} {content : K → Option V}
  {weak fat : Option Ref}

/-! ## The cut -/

/-- A leaf cut before the entry of `k`. -/
def cutLeaf (F : Forest K V) (l r : Ref) (n : Cell K V) (es₁ : List (K × V)) (k : K)
    (es₂ : List (K × V)) (next : Option Ref) : Forest K V :=
  Function.update
    (Function.update F l (some { n with hi := (k : WithTop K), body := .leaf es₁ (some r) })) r
    (some { n with lo := (k : WithBot K), body := .leaf es₂ next })

/-- An inner cell cut at its key `k`, which goes up. -/
def cutInner (F : Forest K V) (l r : Ref) (n : Cell K V) (ks₁ : List K) (cs₁ : List Ref) (k : K)
    (ks₂ : List K) (cs₂ : List Ref) : Forest K V :=
  adopt (Function.update
    (Function.update F l (some { n with hi := (k : WithTop K), body := .inner ks₁ cs₁ })) r
    (some { n with lo := (k : WithBot K), body := .inner ks₂ cs₂ })) cs₂ r

theorem splitLeaf (h : WF lower upper F root content weak fat) (hlower : 0 < lower) {l r : Ref}
    {n : Cell K V} {es₁ es₂ : List (K × V)} {k : K} {v : V} {next : Option Ref}
    (hl : F l = some n) (hb : n.body = .leaf (es₁ ++ (k, v) :: es₂) next) (hr : F r = none)
    (hlen₁ : lower ≤ es₁.length ∧ es₁.length ≤ upper)
    (hlen₂ : lower ≤ es₂.length + 1 ∧ es₂.length + 1 ≤ upper) :
    Split lower upper F (cutLeaf F l r n es₁ k ((k, v) :: es₂) next) content l r k n
      { n with hi := (k : WithTop K), body := .leaf es₁ (some r) }
      { n with lo := (k : WithBot K), body := .leaf ((k, v) :: es₂) next } := by
  obtain ⟨hlevel, hholds, hnext⟩ := h.holds hl hb
  have hlr : l ≠ r := by rintro rfl; rw [hl] at hr; cases hr
  obtain ⟨hcut₁, hcut₂⟩ := hholds.cut
  have hleft : cutLeaf F l r n es₁ k ((k, v) :: es₂) next l =
      some { n with hi := (k : WithTop K), body := .leaf es₁ (some r) } := by
    rw [cutLeaf, Function.update_of_ne hlr, Function.update_self]
  have hright : cutLeaf F l r n es₁ k ((k, v) :: es₂) next r =
      some { n with lo := (k : WithBot K), body := .leaf ((k, v) :: es₂) next } := by
    rw [cutLeaf, Function.update_self]
  have hother : ∀ a, a ≠ l → a ≠ r → cutLeaf F l r n es₁ k ((k, v) :: es₂) next a = F a := by
    intro a hal har
    rw [cutLeaf, Function.update_of_ne har, Function.update_of_ne hal]
  have hsame : ∀ b, SameLeaf F (cutLeaf F l r n es₁ k ((k, v) :: es₂) next) b := by
    intro b m fs nx hm hfs
    by_cases hbl : b = l
    · subst hbl
      rw [hl] at hm
      cases hm
      exact ⟨_, es₁, some r, hleft, rfl, rfl⟩
    · have hbr : b ≠ r := by rintro rfl; rw [hm] at hr; cases hr
      exact ⟨m, fs, nx, (hother b hbl hbr).trans hm, hfs, rfl⟩
  have hk : InRange n.lo n.hi k := hholds.range k (by simp)
  refine ⟨hl, hr, hleft, hright, ⟨rfl, rfl⟩, ⟨rfl, rfl⟩, ⟨rfl, rfl⟩, ⟨rfl, rfl⟩, ⟨?_, ?_⟩, ?_, ?_,
    ?_, ?_, ?_, ?_, ?_, ?_⟩
  · cases es₁ with
    | nil => simp at hlen₁; omega
    | cons e es₁ => exact ⟨e.1, hcut₁.range e.1 (by simp)⟩
  · exact ⟨k, le_rfl, hk.2⟩
  · rw [Cell.keys_leaf rfl, List.length_map]
    exact hlen₁
  · rw [Cell.keys_leaf rfl, List.length_map]
    exact hlen₂
  · have hlink : NextOK (cutLeaf F l r n es₁ k ((k, v) :: es₂) next) (k : WithTop K) (some r) :=
      ⟨_, _, _, k, hright, rfl, rfl, rfl⟩
    exact (bodyOK_leaf rfl).mpr ⟨hlevel, hcut₁, hlink⟩
  · exact (bodyOK_leaf rfl).mpr ⟨hlevel, hcut₂, hnext.mono fun b _ => hsame b⟩
  · exact fun _ _ _ => ⟨es₁, some r, rfl⟩
  · intro g
    rw [Cell.kids_leaf rfl, Cell.kids_leaf rfl, Cell.kids_leaf hb]
    simp
  · intro g hg
    simp [Cell.kids_leaf hb] at hg
  · exact fun a hal har _ => hother a hal har

theorem splitInner (h : WF lower upper F root content weak fat) {l r : Ref}
    {n : Cell K V} {ks₁ ks₂ : List K} {cs₁ cs₂ : List Ref} {k : K}
    (hl : F l = some n) (hb : n.body = .inner (ks₁ ++ k :: ks₂) (cs₁ ++ cs₂)) (hr : F r = none)
    (hcs₁ : cs₁.length = ks₁.length + 1) (hlen₁ : lower ≤ ks₁.length ∧ ks₁.length ≤ upper)
    (hlen₂ : lower ≤ ks₂.length ∧ ks₂.length ≤ upper) :
    Split lower upper F (cutInner F l r n ks₁ cs₁ k ks₂ cs₂) content l r k n
      { n with hi := (k : WithTop K), body := .inner ks₁ cs₁ }
      { n with lo := (k : WithBot K), body := .inner ks₂ cs₂ } := by
  have hspans := h.spans hl hb
  have hlr : l ≠ r := by rintro rfl; rw [hl] at hr; cases hr
  obtain ⟨hcut₁, hcut₂⟩ := (spans_append hcs₁).mp hspans
  have hkids : n.kids = cs₁ ++ cs₂ := Cell.kids_inner hb
  have hnd : (cs₁ ++ cs₂).Nodup := hkids ▸ h.kids_nodup hl
  have hdisj : ∀ c ∈ cs₁, c ∉ cs₂ := fun c hc₁ hc₂ =>
    (List.nodup_append.mp hnd).2.2 c hc₁ c hc₂ rfl
  have hkid : ∀ c ∈ cs₁ ++ cs₂, ∃ m, F c = some m ∧ c ≠ l ∧ c ≠ r := by
    intro c hc
    obtain ⟨m, hm, -, hlv⟩ := h.kid hl (hkids ▸ hc)
    refine ⟨m, hm, ?_, ?_⟩
    · rintro rfl
      rw [hl] at hm
      cases hm
      omega
    · rintro rfl
      rw [hm] at hr
      cases hr
  have hl₂ : l ∉ cs₂ := fun hmem => by
    obtain ⟨-, -, hne, -⟩ := hkid l (List.mem_append_right _ hmem)
    exact hne rfl
  have hr₂ : r ∉ cs₂ := fun hmem => by
    obtain ⟨-, -, -, hne⟩ := hkid r (List.mem_append_right _ hmem)
    exact hne rfl
  have hleft : cutInner F l r n ks₁ cs₁ k ks₂ cs₂ l =
      some { n with hi := (k : WithTop K), body := .inner ks₁ cs₁ } := by
    rw [cutInner, adopt_of_not_mem hl₂, Function.update_of_ne hlr, Function.update_self]
  have hright : cutInner F l r n ks₁ cs₁ k ks₂ cs₂ r =
      some { n with lo := (k : WithBot K), body := .inner ks₂ cs₂ } := by
    rw [cutInner, adopt_of_not_mem hr₂, Function.update_self]
  have hother : ∀ a, a ≠ l → a ≠ r → a ∉ cs₂ → cutInner F l r n ks₁ cs₁ k ks₂ cs₂ a = F a := by
    intro a hal har ha₂
    rw [cutInner, adopt_of_not_mem ha₂, Function.update_of_ne har, Function.update_of_ne hal]
  have hadopted : ∀ c ∈ cs₂, ∀ m, F c = some m →
      cutInner F l r n ks₁ cs₁ k ks₂ cs₂ c = some { m with par := some r } := by
    intro c hc m hm
    obtain ⟨-, -, hcl, hcr⟩ := hkid c (List.mem_append_right _ hc)
    refine adopt_of_mem hc ?_
    rw [Function.update_of_ne hcr, Function.update_of_ne hcl, hm]
  have hkept : ∀ c ∈ cs₁, cutInner F l r n ks₁ cs₁ k ks₂ cs₂ c = F c := fun c hc => by
    obtain ⟨-, -, hcl, hcr⟩ := hkid c (List.mem_append_left _ hc)
    exact hother c hcl hcr (hdisj c hc)
  have hwhole := hspans.bounds (hkids ▸ h.kidsInhabited hl)
  have hk : n.lo < (k : WithBot K) ∧ InRange n.lo n.hi k := hwhole.2.1 k (by simp)
  refine ⟨hl, hr, hleft, hright, ⟨rfl, rfl⟩, ⟨rfl, rfl⟩, ⟨rfl, rfl⟩, ⟨rfl, rfl⟩, ⟨?_, ?_⟩, ?_, ?_,
    ?_, ?_, ?_, ?_, ?_, ?_⟩
  · exact (hcut₁.bounds fun c hc => h.kidsInhabited hl c
      (hkids ▸ List.mem_append_left _ hc)).1
  · exact ⟨k, le_rfl, hk.2.2⟩
  · rw [Cell.keys_inner rfl]
    exact hlen₁
  · rw [Cell.keys_inner rfl]
    exact hlen₂
  · exact (bodyOK_inner rfl).mpr (hcut₁.mono fun c hc => sameView_of_eq (hkept c hc))
  · exact (bodyOK_inner rfl).mpr (hcut₂.reparent hadopted)
  · intro es nx hleaf
    rw [hb] at hleaf
    cases hleaf
  · intro g
    rw [Cell.kids_inner rfl, Cell.kids_inner rfl, hkids, List.mem_append]
  · intro g hg
    rw [hkids] at hg
    obtain ⟨gn, hgn, -, -⟩ := hkid g hg
    rcases List.mem_append.mp hg with hg₁ | hg₂
    · refine ⟨l, _, gn, .inl ⟨rfl, rfl⟩, by rw [Cell.kids_inner rfl]; exact hg₁, hgn, ?_⟩
      obtain ⟨gn', hgn', hpar, -⟩ := h.kid hl (hkids ▸ hg)
      rw [hgn] at hgn'
      cases hgn'
      rw [hkept g hg₁, hgn, ← hpar]
    · exact ⟨r, _, gn, .inr ⟨rfl, rfl⟩, by rw [Cell.kids_inner rfl]; exact hg₂, hgn,
        hadopted g hg₂ gn hgn⟩
  · intro a hal har hak
    exact hother a hal har fun hmem => hak (hkids ▸ List.mem_append_right _ hmem)

/-! ## Telling the parent -/

/-- The parent of a cell that was cut is as it was. -/
theorem split_parent {p l r : Ref} {k : K} {n n₁ n₂ m : Cell K V}
    (h : WF lower upper F root content none (some l))
    (hs : Split lower upper F F' content l r k n n₁ n₂) (hp : F p = some m) (hl : l ∈ m.kids) :
    F' p = some m ∧ p ≠ l ∧ p ≠ r ∧ ∀ g ∈ n.kids, g ≠ p := by
  obtain ⟨nl, hnl, -, hlevel⟩ := h.kid hp hl
  rw [hs.old] at hnl
  cases hnl
  have hpl : p ≠ l := by
    rintro rfl
    rw [hs.old] at hp
    cases hp
    omega
  have hpr : p ≠ r := by
    rintro rfl
    have hfresh := hs.fresh
    rw [hp] at hfresh
    cases hfresh
  have hkidp : ∀ g ∈ n.kids, g ≠ p := by
    rintro g hg rfl
    obtain ⟨ng, hng, -, hlv⟩ := h.kid hs.old hg
    rw [hp] at hng
    cases hng
    omega
  exact ⟨(hs.other p hpl hpr fun hmem => hkidp p hmem rfl).trans hp, hpl, hpr, hkidp⟩

/-- A root that was not cut itself is as it was. -/
theorem split_root {l r : Ref} {k : K} {n n₁ n₂ : Cell K V}
    (h : WF lower upper F root content none (some l))
    (hs : Split lower upper F F' content l r k n n₁ n₂) (hl : root ≠ l) : F' root = F root := by
  obtain ⟨rt, hrt, -⟩ := h.root_cell
  refine hs.other root hl ?_ fun hmem => h.kid_ne_root hs.old hmem rfl
  rintro rfl
  have hfresh := hs.fresh
  rw [hrt] at hfresh
  cases hfresh

/-- The parent of a cell that was cut gets the new key and the new child. -/
theorem splitInto {p l r : Ref} {k : K} {n n₁ n₂ m : Cell K V} {ks₁ ks₂ : List K}
    {cs₁ cs₂ : List Ref} (fat' : Option Ref) (h : WF lower upper F root content none (some l))
    (hlower : 0 < lower)
    (hs : Split lower upper F F' content l r k n n₁ n₂) (hp : F p = some m)
    (hbody : m.body = .inner (ks₁ ++ ks₂) (cs₁ ++ l :: cs₂)) (hlen : cs₁.length = ks₁.length)
    (hmax : (ks₁ ++ k :: ks₂).length ≤ maxOf upper fat' p) :
    WF lower upper (Function.update F' p
      (some { m with body := .inner (ks₁ ++ k :: ks₂) (cs₁ ++ l :: r :: cs₂) })) root content
      none fat' := by
  have hkids : m.kids = cs₁ ++ l :: cs₂ := Cell.kids_inner hbody
  have hlm : l ∈ m.kids := by rw [hkids]; simp
  obtain ⟨nl, hnl, hpar, -⟩ := h.kid hp hlm
  rw [hs.old] at hnl
  cases hnl
  obtain ⟨hp', hpl, hpr, hkidp⟩ := h.split_parent hs hp hlm
  have hsound : ∀ c nc, c ≠ p → F' c = some nc → (∃ q, InRange nc.lo nc.hi q) →
      (lower ≤ nc.keys.length ∧ nc.keys.length ≤ upper) → BodyOK F' content c nc →
        Sound lower upper (Function.update F' p
          (some { m with body := .inner (ks₁ ++ k :: ks₂) (cs₁ ++ l :: r :: cs₂) })) root content
          none fat' c nc := by
    intro c nc _ _ hinh hkeys hbod
    exact sound_of_parts hlower hinh hkeys (hbod.setInner hp' hbody ⟨rfl, rfl, rfl, rfl⟩)
  refine h.window hlower p l m ks₁ [] ks₂ [k] cs₁ cs₂ [] [r] hp hbody hlen rfl ?_ ?_ ?_ ?_ ?_
    ?_ ?_ ?_ ?_ ?_ ?_ ?_
  · intro c hc
    rw [List.mem_singleton.mp hc]
    exact .inr hs.fresh
  · intro a ha
    cases ha
  · intro a ha
    cases ha
    exact .inl (by simp)
  · exact Function.update_self ..
  · intro c hc
    cases hc
  · intro c hc nc hnc g hg
    rw [List.mem_singleton.mp hc, hs.old] at hnc
    cases hnc
    obtain ⟨c', n', gn, hc', hg', hgn, hgn'⟩ := hs.moved g hg
    have hgp := hkidp g hg
    rcases hc' with ⟨rfl, rfl⟩ | ⟨rfl, rfl⟩
    · refine ⟨c', by simp, n', gn, ?_, hg', hgn, ?_⟩
      · rw [Function.update_of_ne hpl.symm, hs.left]
      · rw [Function.update_of_ne hgp, hgn']
    · refine ⟨c', by simp, n', gn, ?_, hg', hgn, ?_⟩
      · rw [Function.update_of_ne hpr.symm, hs.right]
      · rw [Function.update_of_ne hgp, hgn']
  · intro a hap hal har hak
    rw [Function.update_of_ne hap]
    exact hs.other a (by simpa using hal) (by simpa using har) (hak l (by simp) n hs.old)
  · intro nl hnl
    rw [hs.old] at hnl
    cases hnl
    exact ⟨n₁, by rw [Function.update_of_ne hpl.symm, hs.left], hs.leftRange.1, hs.leaf⟩
  · intro lo hi hspan
    obtain ⟨nc, hnc, hpar', hlv, rfl, rfl⟩ := hspan
    rw [hs.old] at hnc
    cases hnc
    refine ⟨⟨n₁, ?_, hs.par.1.trans hpar, ?_, hs.leftRange.1, hs.leftRange.2⟩,
      ⟨n₂, ?_, hs.par.2.trans hpar, ?_, hs.rightRange.1, hs.rightRange.2⟩⟩
    · rw [Function.update_of_ne hpl.symm, hs.left]
    · rw [hs.level.1, hlv]
    · rw [Function.update_of_ne hpr.symm, hs.right]
    · rw [hs.level.2, hlv]
  · intro c hc nc hnc
    rcases List.mem_cons.mp hc with rfl | hc
    · rw [Function.update_of_ne hpl.symm, hs.left] at hnc
      cases hnc
      exact hsound c n₁ hpl.symm hs.left hs.inhabited.1 hs.leftKeys hs.leftBody
    · rw [List.mem_singleton.mp hc] at hnc ⊢
      rw [Function.update_of_ne hpr.symm, hs.right] at hnc
      cases hnc
      exact hsound r n₂ hpr.symm hs.right hs.inhabited.2 hs.rightKeys hs.rightBody
  · have hmin := (h.sound p m hp).min
    rw [Cell.keys_inner hbody] at hmin
    simp only [List.length_append, List.length_cons, List.length_nil] at hmin ⊢
    omega
  · simpa using hmax

/-- A root that was cut gets a new root above it. -/
theorem splitRoot {t l r : Ref} {k : K} {n n₁ n₂ : Cell K V}
    (h : WF lower upper F l content none (some l)) (hlower : 0 < lower) (hupper : 0 < upper)
    (hs : Split lower upper F F' content l r k n n₁ n₂) (ht : F t = none) (htr : t ≠ r)
    (htop : F₂ t = some ⟨none, n.level + 1, ⊥, ⊤, .inner [k] [l, r]⟩)
    (hleft : F₂ l = some { n₁ with par := some t })
    (hright : F₂ r = some { n₂ with par := some t })
    (hrest : ∀ a, a ≠ t → a ≠ l → a ≠ r → F₂ a = F' a) :
    WF lower upper F₂ t content none none := by
  obtain ⟨rt, hrt, hpar, hlo, hhi, hmaxlv⟩ := h.root_cell
  rw [hs.old] at hrt
  cases hrt
  have hlt : l ≠ t := by
    rintro rfl
    rw [hs.old] at ht
    cases ht
  have hkid : ∀ g ∈ n.kids, g ≠ t ∧ g ≠ l ∧ g ≠ r := by
    intro g hg
    obtain ⟨ng, hng, -, -⟩ := h.kid hs.old hg
    refine ⟨?_, h.kid_ne_root hs.old hg, ?_⟩
    · rintro rfl
      rw [hng] at ht
      cases ht
    · rintro rfl
      have hfresh := hs.fresh
      rw [hng] at hfresh
      cases hfresh
  -- an old cell below the old root keeps everything but perhaps its parent
  have hkeep : ∀ a na, F a = some na → a ≠ l → ∃ par, F₂ a = some { na with par := par } ∧
      (a ∉ n.kids → par = na.par) := by
    intro a na ha hal
    have hat : a ≠ t := by rintro rfl; rw [ha] at ht; cases ht
    have har : a ≠ r := by
      rintro rfl
      have hfresh := hs.fresh
      rw [ha] at hfresh
      cases hfresh
    rw [hrest a hat hal har]
    by_cases hak : a ∈ n.kids
    · obtain ⟨c, n', gn, -, -, hgn, hgn'⟩ := hs.moved a hak
      rw [ha] at hgn
      cases hgn
      exact ⟨some c, hgn', fun hno => absurd hak hno⟩
    · exact ⟨na.par, by rw [hs.other a hal har hak, ha], fun _ => rfl⟩
  have hsame : ∀ b, SameLeaf F F₂ b := by
    intro b nb es nx hnb hes
    by_cases hbl : b = l
    · subst hbl
      rw [hs.old] at hnb
      cases hnb
      obtain ⟨es', nx', hbody'⟩ := hs.leaf es nx hes
      exact ⟨_, es', nx', hleft, hbody', hs.leftRange.1⟩
    · obtain ⟨par, hb, -⟩ := hkeep b nb hnb hbl
      exact ⟨_, es, nx, hb, hes, rfl⟩
  have hsame' : ∀ b, SameLeaf F' F₂ b := by
    intro b nb es nx hnb hes
    by_cases hbl : b = l
    · subst hbl
      rw [hs.left] at hnb
      cases hnb
      exact ⟨_, es, nx, hleft, hes, rfl⟩
    by_cases hbr : b = r
    · subst hbr
      rw [hs.right] at hnb
      cases hnb
      exact ⟨_, es, nx, hright, hes, rfl⟩
    have hbt : b ≠ t := by
      rintro rfl
      rw [hs.other b hlt.symm htr fun hmem => (hkid b hmem).1 rfl, ht] at hnb
      cases hnb
    exact sameLeaf_of_eq (hrest b hbt hbl hbr) nb es nx hnb hes
  have hpart : ∀ c ∈ n.kids, SameView F' F₂ c := fun c hc =>
    sameView_of_eq (hrest c (hkid c hc).1 (hkid c hc).2.1 (hkid c hc).2.2)
  have hnew : ∀ a na, F₂ a = some na → a = t ∨ a = l ∨ a = r ∨
      (a ≠ t ∧ a ≠ l ∧ a ≠ r ∧ ∃ m, F a = some m) := by
    intro a na ha
    by_cases hat : a = t
    · exact .inl hat
    by_cases hal : a = l
    · exact .inr (.inl hal)
    by_cases har : a = r
    · exact .inr (.inr (.inl har))
    refine .inr (.inr (.inr ⟨hat, hal, har, ?_⟩))
    rw [hrest a hat hal har] at ha
    by_cases hak : a ∈ n.kids
    · obtain ⟨m, hm, -⟩ := h.kid hs.old hak
      exact ⟨m, hm⟩
    · exact ⟨na, by rw [← hs.other a hal har hak, ha]⟩
  refine ⟨?_, ?_, ?_⟩
  · refine ⟨_, htop, rfl, rfl, rfl, fun a na ha => ?_⟩
    rcases hnew a na ha with rfl | rfl | rfl | ⟨-, hal, -, m, hm⟩
    · rw [htop] at ha
      cases ha
      exact le_rfl
    · rw [hleft] at ha
      cases ha
      have := hs.level.1
      simp only
      omega
    · rw [hright] at ha
      cases ha
      have := hs.level.2
      simp only
      omega
    · obtain ⟨par, hm', -⟩ := hkeep a m hm hal
      rw [ha] at hm'
      cases hm'
      have := hmaxlv a m hm
      simp only
      omega
  · intro a na ha hne
    rcases hnew a na ha with rfl | rfl | rfl | ⟨-, hal, -, m, hm⟩
    · exact absurd rfl hne
    · rw [hleft] at ha
      cases ha
      exact ⟨t, _, rfl, htop, by simp [Cell.kids]⟩
    · rw [hright] at ha
      cases ha
      exact ⟨t, _, rfl, htop, by simp [Cell.kids]⟩
    · obtain ⟨par, hm', hpar'⟩ := hkeep a m hm hal
      by_cases hak : a ∈ n.kids
      · obtain ⟨c, n', gn, hc, hg, -, hgn'⟩ := hs.moved a hak
        obtain ⟨hat', hal', har'⟩ := hkid a hak
        rw [hrest a hat' hal' har', hgn'] at ha
        cases ha
        rcases hc with ⟨rfl, rfl⟩ | ⟨rfl, rfl⟩
        · exact ⟨c, _, rfl, hleft, hg⟩
        · exact ⟨c, _, rfl, hright, hg⟩
      · rw [ha] at hm'
        cases hm'
        obtain ⟨p, mp, hp, hFp, hmem⟩ := h.link a m hm hal
        have hpl : p ≠ l := by
          rintro rfl
          rw [hs.old] at hFp
          cases hFp
          exact hak hmem
        obtain ⟨par', hp', -⟩ := hkeep p mp hFp hpl
        exact ⟨p, _, (hpar' hak).trans hp, hp', hmem⟩
  · intro a na ha
    rcases hnew a na ha with rfl | rfl | rfl | ⟨-, hal, har, m, hm⟩
    · rw [htop] at ha
      cases ha
      refine ⟨fun hne => absurd rfl hne, ?_, ?_, (bodyOK_inner rfl).mpr ?_⟩
      · rw [minOf_none, if_pos rfl, Cell.keys_inner rfl]
        exact le_rfl
      · rw [maxOf_none, Cell.keys_inner rfl]
        exact hupper
      · exact ⟨⟨_, hleft, rfl, by rw [hs.level.1], hs.leftRange.1.trans hlo, hs.leftRange.2⟩,
          ⟨_, hright, rfl, by rw [hs.level.2], hs.rightRange.1, hs.rightRange.2.trans hhi⟩⟩
    · rw [hleft] at ha
      cases ha
      refine sound_of_parts hlower hs.inhabited.1 hs.leftKeys ?_
      exact (hs.leftBody.mono (fun c hc => hpart c ((hs.kids c).mp (.inl hc))) hsame').setPar _
    · rw [hright] at ha
      cases ha
      refine sound_of_parts hlower hs.inhabited.2 hs.rightKeys ?_
      exact (hs.rightBody.mono (fun c hc => hpart c ((hs.kids c).mp (.inr hc))) hsame').setPar _
    · obtain ⟨par, hm', -⟩ := hkeep a m hm hal
      rw [ha] at hm'
      cases hm'
      have hsnd := h.sound a m hm
      have hmin : minOf lower l none a = lower := by rw [minOf_none, if_neg hal]
      have hmax : maxOf upper (some l) a = upper := by
        rw [maxOf, if_neg fun heq => hal (Option.some.inj heq).symm]
      refine sound_of_parts hlower (hsnd.inhabited hal) ⟨hmin ▸ hsnd.min, hmax ▸ hsnd.max⟩ ?_
      refine (hsnd.body.mono (fun c hc => ?_) hsame).setPar par
      intro nc hnc
      have hcl : c ≠ l := h.kid_ne_root hm hc
      obtain ⟨par', hc', hpar'⟩ := hkeep c nc hnc hcl
      refine ⟨_, hc', hpar' fun hck => ?_, rfl, rfl, rfl⟩
      exact hal (h.kid_parent hm hc hs.old hck)

end WF

end Nbfs.Lib.Forest
