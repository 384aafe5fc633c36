import Nbfs.BplusTree.Distribute

set_option autoImplicit false

/-!
# Removal (`delete_entry`, `B_plus_tree_remove`)

After an entry is gone its node may be a key short.  The node then joins a
neighbour, and the removal goes on one level up, or it takes over a key.
-/

namespace Nbfs.BplusTree

open Nbfs.Lib Nbfs.Lib.Forest Nbfs.Lib.Slots

variable {own : Owner} {h : Heap} {F F' : Tree} {root l r p : Addr}
  {content : CString → Option FileRef} {weak fat : Option Addr} {m n₁ n₂ : TreeCell}
  {ks₁ ks₂ : List CString} {s : CString} {cs₁ cs₂ : List Addr}

/-! ## Joining two siblings -/

/-- What `moveIntoNeighbor` and the removal of the separator leave behind. -/
structure Joined (h h₁ h₂ : Heap) (F : Tree) (root p l r index : Addr)
    (content : CString → Option FileRef) (m : TreeCell) : Prop where
  moved : moveIntoNeighbor r l index h = some (p, h₁)
  removed : removeEntry p index h₁ = some ((), h₂)
  brk : h.brk ≤ h₁.brk ∧ h₁.brk = h₂.brk
  tree : ∃ own' F' m', Rep own' h₂ F' ∧ TreeWF F' root content (some p) none ∧
    F' p = some m' ∧ m'.par = m.par ∧ m'.level = m.level ∧
      ∀ c', F' root = some c' → ∃ c, F root = some c ∧ c.level = c'.level

theorem joinLeaves (hR : Rep own h F) (hwf : TreeWF F root content weak none)
    (hp : F p = some m) (hbody : m.body = .inner (ks₁ ++ s :: ks₂) (cs₁ ++ l :: r :: cs₂))
    (hlen : cs₁.length = ks₁.length) (hs : Siblings F root p l r s m n₁ n₂)
    (hweak : ∀ a, weak = some a → a = l ∨ a = r) {es₁ es₂ : List (CString × FileRef)}
    {nx₁ nx₂ : Ptr} (hb₁ : n₁.body = .leaf es₁ nx₁) (hb₂ : n₂.body = .leaf es₂ nx₂)
    (hmin : minKeyNum ≤ es₁.length + es₂.length) (hmax : es₁.length + es₂.length ≤ maxKeyNum) :
    ∃ h₁ h₂, Joined h h₁ h₂ F root p l r (ks₁.length + 1) content m ∧
      ∃ own₁ F₁ c₁, Rep own₁ h₁ F₁ ∧ F₁ l = some c₁ := by
  generalize hc : ({ n₁ with hi := n₂.hi, body := .leaf (es₁ ++ es₂) nx₂ } : TreeCell) = c
  obtain ⟨own₁, h₁, hrun₁, hR₁, hbrk₁⟩ := moveIntoNeighbor_leaf hR hs.left hs.right hs.ne hb₁ hb₂
    hs.par.2 hmax (c := c) (by rw [← hc]) (by rw [← hc]) (ks₁.length + 1)
  have hp₁ : Function.update (Function.update F r none) l (some c) p = some m := by
    rw [Function.update_of_ne hs.ne_parent.1.symm, Function.update_of_ne hs.ne_parent.2.symm, hp]
  have hbody' : m.body = .inner (ks₁ ++ s :: ks₂) ((cs₁ ++ [l]) ++ r :: cs₂) := by
    rw [hbody]
    simp
  obtain ⟨h₂, hrun₂, hR₂, hbrk₂⟩ := removeEntry_inner hR₁ hp₁ hbody' (by simp [hlen])
  refine ⟨h₁, h₂, ⟨hrun₁, hrun₂, ⟨hbrk₁.ge, hbrk₂.symm⟩, own₁, _,
    { m with body := .inner (ks₁ ++ ks₂) (cs₁ ++ [l] ++ cs₂) }, hR₂, ?_, ?_, rfl, rfl, ?_⟩,
    own₁, _, c, hR₁, Function.update_self ..⟩
  · refine hwf.mergeLeaves (by decide) hp hbody hlen hs hweak hb₁ hb₂ ?_ ?_ ?_ ?_ ⟨hmin, hmax⟩
    · rw [Function.update_of_ne hs.ne_parent.1, Function.update_self, hc]
    · rw [Function.update_of_ne hs.ne_parent.2, Function.update_of_ne hs.ne.symm,
        Function.update_self]
    · rw [Function.update_self]
      simp
    · intro a hap hal har
      rw [Function.update_of_ne hap, Function.update_of_ne hal, Function.update_of_ne har]
  · exact Function.update_self ..
  · intro c' hc'
    by_cases hrp : root = p
    · subst hrp
      rw [Function.update_self] at hc'
      cases hc'
      exact ⟨m, hp, rfl⟩
    · rw [Function.update_of_ne hrp, Function.update_of_ne hs.ne_root.1.symm,
        Function.update_of_ne hs.ne_root.2.symm] at hc'
      exact ⟨c', hc', rfl⟩

theorem joinInner (hR : Rep own h F) (hwf : TreeWF F root content weak none)
    (hp : F p = some m) (hbody : m.body = .inner (ks₁ ++ s :: ks₂) (cs₁ ++ l :: r :: cs₂))
    (hlen : cs₁.length = ks₁.length) (hs : Siblings F root p l r s m n₁ n₂)
    (hweak : ∀ a, weak = some a → a = l ∨ a = r) {ksl ksr : List CString} {csl csr : List Addr}
    (hb₁ : n₁.body = .inner ksl csl) (hb₂ : n₂.body = .inner ksr csr)
    (hmin : minKeyNum ≤ ksl.length + ksr.length + 1)
    (hmax : ksl.length + ksr.length + 1 ≤ maxKeyNum) :
    ∃ h₁ h₂, Joined h h₁ h₂ F root p l r (ks₁.length + 1) content m ∧
      ∃ own₁ F₁ c₁, Rep own₁ h₁ F₁ ∧ F₁ l = some c₁ := by
  have hkids : ∀ g ∈ csl ++ csr, (∃ n, F g = some n) ∧ g ≠ l ∧ g ≠ r ∧ g ≠ p ∧ g ≠ root := by
    intro g hg
    have hg' : g ∈ n₁.kids ∨ g ∈ n₂.kids := by
      rw [Cell.kids_inner hb₁, Cell.kids_inner hb₂]
      exact List.mem_append.mp hg
    obtain ⟨hgp, hgl, hgr⟩ := hwf.grandkid_ne hs hp hg'
    rcases hg' with hmem | hmem
    · obtain ⟨n, hn, -⟩ := hwf.kid hs.left hmem
      exact ⟨⟨n, hn⟩, hgl, hgr, hgp, hwf.kid_ne_root hs.left hmem⟩
    · obtain ⟨n, hn, -⟩ := hwf.kid hs.right hmem
      exact ⟨⟨n, hn⟩, hgl, hgr, hgp, hwf.kid_ne_root hs.right hmem⟩
  generalize hc : ({ n₁ with
    hi := n₂.hi, body := .inner (ksl ++ s :: ksr) (csl ++ csr) } : TreeCell) = c
  obtain ⟨own₁, h₁, hrun₁, hR₁, hbrk₁⟩ := moveIntoNeighbor_inner hR hs.left hs.right hp hs.ne hb₁
    hb₂ hbody hs.par.2 hmax (fun g hg => ⟨(hkids g hg).1, (hkids g hg).2.1, (hkids g hg).2.2.1⟩)
    (c := c) (by rw [← hc]) (by rw [← hc])
  have hout : ∀ a, a ∉ csl ++ csr → a ≠ l → a ≠ r →
      adopt (Function.update (Function.update F r none) l (some c)) (csl ++ csr) l a = F a := by
    intro a ha hal har
    rw [adopt_of_not_mem ha, Function.update_of_ne hal, Function.update_of_ne har]
  have hpm : p ∉ csl ++ csr := fun hmem => (hkids p hmem).2.2.2.1 rfl
  have hlm : l ∉ csl ++ csr := fun hmem => (hkids l hmem).2.1 rfl
  have hrm : r ∉ csl ++ csr := fun hmem => (hkids r hmem).2.2.1 rfl
  have hp₁ := (hout p hpm hs.ne_parent.1.symm hs.ne_parent.2.symm).trans hp
  have hbody' : m.body = .inner (ks₁ ++ s :: ks₂) ((cs₁ ++ [l]) ++ r :: cs₂) := by
    rw [hbody]
    simp
  obtain ⟨h₂, hrun₂, hR₂, hbrk₂⟩ := removeEntry_inner hR₁ hp₁ hbody' (by simp [hlen])
  refine ⟨h₁, h₂, ⟨hrun₁, hrun₂, ⟨(Nat.le_succ _).trans hbrk₁.ge, hbrk₂.symm⟩, own₁, _,
    { m with body := .inner (ks₁ ++ ks₂) (cs₁ ++ [l] ++ cs₂) }, hR₂, ?_, ?_, rfl, rfl, ?_⟩,
    own₁, _, c, hR₁, (adopt_of_not_mem hlm).trans (Function.update_self ..)⟩
  · refine hwf.mergeInner (by decide) hp hbody hlen hs hweak hb₁ hb₂ ?_ ?_ ?_ ?_ ?_ ⟨hmin, hmax⟩
    · rw [Function.update_of_ne hs.ne_parent.1, adopt_of_not_mem hlm, Function.update_self, hc]
    · rw [Function.update_of_ne hs.ne_parent.2, adopt_of_not_mem hrm,
        Function.update_of_ne hs.ne.symm, Function.update_self]
    · rw [Function.update_self]
      simp
    · intro g hg n hn
      obtain ⟨-, hgl, hgr, hgp, -⟩ := hkids g hg
      rw [Function.update_of_ne hgp]
      exact adopt_of_mem hg (by rw [Function.update_of_ne hgl, Function.update_of_ne hgr, hn])
    · intro a hap hal har ha
      rw [Function.update_of_ne hap, hout a ha hal har]
  · exact Function.update_self ..
  · intro c' hc'
    by_cases hrp : root = p
    · subst hrp
      rw [Function.update_self] at hc'
      cases hc'
      exact ⟨m, hp, rfl⟩
    · have hrootm : root ∉ csl ++ csr := fun hmem => (hkids root hmem).2.2.2.2 rfl
      rw [Function.update_of_ne hrp,
        hout root hrootm hs.ne_root.1.symm hs.ne_root.2.symm] at hc'
      exact ⟨c', hc', rfl⟩

/-! ## Taking over a key -/

/-- The root stays at its height while only `l`, `r`, `p` and children change. -/
theorem root_level (hlevel : ∀ c, F root = some c → c.level < h.brk)
    (hroot : ∀ c', F' root = some c' → ∃ c, F root = some c ∧ c.level = c'.level) :
    ∀ c', F' root = some c' → c'.level < h.brk := by
  intro c' hc'
  obtain ⟨c, hc, hlv⟩ := hroot c' hc'
  exact hlv ▸ hlevel c hc

theorem borrowLeaf_left (hR : Rep own h F) (hwf : TreeWF F root content weak none)
    (hlevel : ∀ c, F root = some c → c.level < h.brk) (hp : F p = some m)
    (hbody : m.body = .inner (ks₁ ++ s :: ks₂) (cs₁ ++ l :: r :: cs₂))
    (hlen : cs₁.length = ks₁.length) (hs : Siblings F root p l r s m n₁ n₂)
    (hweak : ∀ a, weak = some a → a = l ∨ a = r) {es₁ es₂ : List (CString × FileRef)}
    {nx₁ nx₂ : Ptr} (hb₁ : n₁.body = .leaf es₁ nx₁) (hb₂ : n₂.body = .leaf es₂ nx₂)
    (hlong : minKeyNum < es₁.length ∧ es₁.length ≤ maxKeyNum)
    (hshort : minKeyNum ≤ es₂.length + 1 ∧ es₂.length < maxKeyNum) :
    ∃ h', distributeNodes r l (ks₁.length + 1) h = some ((), h') ∧
      HoldsTree h' (some root) content ∧ h'.brk = h.brk := by
  obtain ⟨es₁, e, rfl⟩ : ∃ es' e, es₁ = es' ++ [e] :=
    ⟨_, _, (List.dropLast_append_getLast (List.ne_nil_of_length_pos (by omega))).symm⟩
  rw [List.length_append, List.length_singleton] at hlong
  generalize hc₁ : ({ n₁ with hi := (e.1 : WithTop CString), body := .leaf es₁ nx₁ } : TreeCell) =
    c₁
  generalize hc₂ : ({ n₂ with
    lo := (e.1 : WithBot CString), body := .leaf (e :: es₂) nx₂ } : TreeCell) = c₂
  obtain ⟨own', h', hrun, hR', hbrk⟩ := distributeNodes_leaf_left hR hs.left hs.right hp hs.ne
    hs.ne_parent.1 hs.ne_parent.2 hb₁ hb₂ hbody hs.par.2 hshort.2 (by rw [← hc₁] : c₁.par = n₁.par)
    (by rw [← hc₂] : c₂.par = n₂.par)
    (rfl : ({ m with body := .inner (ks₁ ++ e.1 :: ks₂) (cs₁ ++ l :: r :: cs₂) } : TreeCell).par =
    _)
    (by rw [← hc₁]) (by rw [← hc₂]) rfl
  have hl' : Function.update (Function.update (Function.update F l (some c₁)) r (some c₂)) p
      (some { m with body := .inner (ks₁ ++ e.1 :: ks₂) (cs₁ ++ l :: r :: cs₂) }) l = some c₁ := by
    rw [Function.update_of_ne hs.ne_parent.1, Function.update_of_ne hs.ne, Function.update_self]
  refine ⟨h', hrun, ⟨own', _, hR', ?_, ?_⟩, hbrk⟩
  · refine hwf.rebalanceLeaves (by decide) hp hbody hlen hs hweak hb₁ hb₂
      (List.append_assoc es₁ [e] es₂) (hl'.trans (by rw [hc₁])) ?_ (Function.update_self ..) ?_
      ⟨by omega, by omega⟩ hshort
    · rw [Function.update_of_ne hs.ne_parent.2, Function.update_self, ← hc₂]
      rfl
    · intro a hap hal har
      rw [Function.update_of_ne hap, Function.update_of_ne har, Function.update_of_ne hal]
  · rw [hbrk]
    refine root_level hlevel fun c' hc' => ?_
    by_cases hrp : root = p
    · subst hrp
      rw [Function.update_self] at hc'
      cases hc'
      exact ⟨m, hp, rfl⟩
    · rw [Function.update_of_ne hrp, Function.update_of_ne hs.ne_root.2.symm,
        Function.update_of_ne hs.ne_root.1.symm] at hc'
      exact ⟨c', hc', rfl⟩

theorem borrowLeaf_right (hR : Rep own h F) (hwf : TreeWF F root content weak none)
    (hlevel : ∀ c, F root = some c → c.level < h.brk) (hp : F p = some m)
    (hbody : m.body = .inner (s :: ks₂) (l :: r :: cs₂))
    (hs : Siblings F root p l r s m n₁ n₂) (hweak : ∀ a, weak = some a → a = l ∨ a = r)
    {es₁ es₂ : List (CString × FileRef)} {nx₁ nx₂ : Ptr} (hb₁ : n₁.body = .leaf es₁ nx₁)
    (hb₂ : n₂.body = .leaf es₂ nx₂) (hshort : minKeyNum ≤ es₁.length + 1 ∧ es₁.length < maxKeyNum)
    (hlong : minKeyNum < es₂.length ∧ es₂.length ≤ maxKeyNum) :
    ∃ h', distributeNodes l r 0 h = some ((), h') ∧ HoldsTree h' (some root) content ∧
      h'.brk = h.brk := by
  have htwo : minKeyNum = 2 := rfl
  obtain ⟨e, es₂, rfl⟩ := List.exists_cons_of_length_pos (by omega : 0 < es₂.length)
  rw [List.length_cons] at hlong
  obtain ⟨e', es₂, rfl⟩ := List.exists_cons_of_length_pos (by omega : 0 < es₂.length)
  rw [List.length_cons] at hlong
  generalize hc₁ : ({ n₁ with
    hi := (e'.1 : WithTop CString), body := .leaf (es₁ ++ [e]) nx₁ } : TreeCell) = c₁
  generalize hc₂ : ({ n₂ with
    lo := (e'.1 : WithBot CString), body := .leaf (e' :: es₂) nx₂ } : TreeCell) = c₂
  obtain ⟨own', h', hrun, hR', hbrk⟩ := distributeNodes_leaf_right hR hs.left hs.right hp hs.ne
    hs.ne_parent.1 hs.ne_parent.2 hb₁ hb₂ hbody hs.par.1 hshort.2 (by rw [← hc₁] : c₁.par = n₁.par)
    (by rw [← hc₂] : c₂.par = n₂.par)
    (rfl : ({ m with body := .inner (e'.1 :: ks₂) (l :: r :: cs₂) } : TreeCell).par = _)
    (by rw [← hc₁]) (by rw [← hc₂]) rfl
  refine ⟨h', hrun, ⟨own', _, hR', ?_, ?_⟩, hbrk⟩
  · have hes : es₁ ++ e :: e' :: es₂ = (es₁ ++ [e]) ++ (e'.1, e'.2) :: es₂ := by simp
    have hbody' : m.body = .inner ([] ++ s :: ks₂) ([] ++ l :: r :: cs₂) := hbody
    refine hwf.rebalanceLeaves (by decide) hp hbody' rfl hs hweak hb₁ hb₂ hes ?_ ?_
      (Function.update_self ..) ?_ ⟨by simp; omega, by simp; omega⟩ ⟨by omega, by omega⟩
    · rw [Function.update_of_ne hs.ne_parent.1, Function.update_self, ← hc₁]
    · rw [Function.update_of_ne hs.ne_parent.2, Function.update_of_ne hs.ne.symm,
        Function.update_self, ← hc₂]
    · intro a hap hal har
      rw [Function.update_of_ne hap, Function.update_of_ne hal, Function.update_of_ne har]
  · rw [hbrk]
    refine root_level hlevel fun c' hc' => ?_
    by_cases hrp : root = p
    · subst hrp
      rw [Function.update_self] at hc'
      cases hc'
      exact ⟨m, hp, rfl⟩
    · rw [Function.update_of_ne hrp, Function.update_of_ne hs.ne_root.1.symm,
        Function.update_of_ne hs.ne_root.2.symm] at hc'
      exact ⟨c', hc', rfl⟩

/-- The children of two siblings, and where they are not. -/
theorem sibling_kids (hwf : TreeWF F root content weak fat) (hp : F p = some m)
    (hs : Siblings F root p l r s m n₁ n₂) {ksl ksr : List CString} {csl csr : List Addr}
    (hb₁ : n₁.body = .inner ksl csl) (hb₂ : n₂.body = .inner ksr csr) :
    (csl ++ csr).Nodup ∧ (∀ g ∈ csl ++ csr, (g ≠ l ∧ g ≠ r ∧ g ≠ p) ∧ g ≠ root) ∧
      (∀ g ∈ csl, ∃ n, F g = some n ∧ n.par = some l) ∧
        ∀ g ∈ csr, ∃ n, F g = some n ∧ n.par = some r := by
  have hmem₁ : ∀ g ∈ csl, g ∈ n₁.kids := fun g hg => by rwa [Cell.kids_inner hb₁]
  have hmem₂ : ∀ g ∈ csr, g ∈ n₂.kids := fun g hg => by rwa [Cell.kids_inner hb₂]
  have hnd₁ := hwf.kids_nodup hs.left
  have hnd₂ := hwf.kids_nodup hs.right
  rw [Cell.kids_inner hb₁] at hnd₁
  rw [Cell.kids_inner hb₂] at hnd₂
  refine ⟨List.nodup_append.mpr ⟨hnd₁, hnd₂, ?_⟩, fun g hg => ?_, fun g hg => ?_, fun g hg => ?_⟩
  · rintro g hg₁ _ hg₂ rfl
    exact hs.ne (hwf.kid_parent hs.left (hmem₁ g hg₁) hs.right (hmem₂ g hg₂))
  · rcases List.mem_append.mp hg with hg | hg
    · obtain ⟨hgp, hgl, hgr⟩ := hwf.grandkid_ne hs hp (.inl (hmem₁ g hg))
      exact ⟨⟨hgl, hgr, hgp⟩, hwf.kid_ne_root hs.left (hmem₁ g hg)⟩
    · obtain ⟨hgp, hgl, hgr⟩ := hwf.grandkid_ne hs hp (.inr (hmem₂ g hg))
      exact ⟨⟨hgl, hgr, hgp⟩, hwf.kid_ne_root hs.right (hmem₂ g hg)⟩
  · obtain ⟨n, hn, hpar, -⟩ := hwf.kid hs.left (hmem₁ g hg)
    exact ⟨n, hn, hpar⟩
  · obtain ⟨n, hn, hpar, -⟩ := hwf.kid hs.right (hmem₂ g hg)
    exact ⟨n, hn, hpar⟩

theorem borrowInner_left (hR : Rep own h F) (hwf : TreeWF F root content weak none)
    (hlevel : ∀ c, F root = some c → c.level < h.brk) (hp : F p = some m)
    (hbody : m.body = .inner (ks₁ ++ s :: ks₂) (cs₁ ++ l :: r :: cs₂))
    (hlen : cs₁.length = ks₁.length) (hs : Siblings F root p l r s m n₁ n₂)
    (hweak : ∀ a, weak = some a → a = l ∨ a = r) {ksl ksr : List CString} {csl csr : List Addr}
    (hb₁ : n₁.body = .inner ksl csl) (hb₂ : n₂.body = .inner ksr csr)
    (hlong : minKeyNum < ksl.length ∧ ksl.length ≤ maxKeyNum)
    (hshort : minKeyNum ≤ ksr.length + 1 ∧ ksr.length < maxKeyNum) :
    ∃ h', distributeNodes r l (ks₁.length + 1) h = some ((), h') ∧
      HoldsTree h' (some root) content ∧ h'.brk = h.brk := by
  obtain ⟨hnd, hne, hkids₁, hkids₂⟩ := sibling_kids hwf hp hs hb₁ hb₂
  have hchildren := (hwf.spans hs.left hb₁).length
  obtain ⟨ksl, k, rfl⟩ : ∃ ks k, ksl = ks ++ [k] :=
    ⟨_, _, (List.dropLast_append_getLast (List.ne_nil_of_length_pos (by omega))).symm⟩
  obtain ⟨csl, x, rfl⟩ : ∃ cs x, csl = cs ++ [x] :=
    ⟨_, _, (List.dropLast_append_getLast (List.ne_nil_of_length_pos (by omega))).symm⟩
  simp only [List.length_append, List.length_singleton] at hlong hchildren
  rw [List.append_assoc, List.singleton_append] at hnd hne
  obtain ⟨cx, hx, -⟩ := hkids₁ x (by simp)
  obtain ⟨hxne, hxroot⟩ := hne x (by simp)
  have hxnot : x ∉ csl ++ csr := (List.nodup_cons.mp (List.perm_middle.nodup_iff.mp hnd)).1
  generalize hc₁ : ({ n₁ with
    hi := (k : WithTop CString), body := .inner ksl csl } : TreeCell) = c₁
  generalize hc₂ : ({ n₂ with
    lo := (k : WithBot CString), body := .inner (s :: ksr) (x :: csr) } : TreeCell) = c₂
  obtain ⟨own', h', hrun, hR', hbrk⟩ := distributeNodes_inner_left hR hs.left hs.right hp hx hs.ne
    hs.ne_parent.1 hs.ne_parent.2 hxne hb₁ hb₂ hbody hs.par.2 hshort.2
    (by rw [← hc₁] : c₁.par = n₁.par) (by rw [← hc₂] : c₂.par = n₂.par)
    (rfl : ({ m with body := .inner (ks₁ ++ k :: ks₂) (cs₁ ++ l :: r :: cs₂) } : TreeCell).par = _)
    (by rw [← hc₁]) (by rw [← hc₂]) rfl
  generalize hF' : Function.update (Function.update (Function.update (Function.update F x
    (some { cx with par := some r })) l (some c₁)) p
    (some { m with body := .inner (ks₁ ++ k :: ks₂) (cs₁ ++ l :: r :: cs₂) })) r (some c₂) = F'
    at hR'
  have hout : ∀ a, a ≠ p → a ≠ l → a ≠ r → a ≠ x → F' a = F a := by
    intro a hap hal har hax
    rw [← hF', Function.update_of_ne har, Function.update_of_ne hap, Function.update_of_ne hal,
      Function.update_of_ne hax]
  have hstay : ∀ g ∈ csl ++ csr, F' g = F g := by
    intro g hg
    obtain ⟨⟨hgl, hgr, hgp⟩, -⟩ := hne g (List.perm_middle.mem_iff.mpr (List.mem_cons_of_mem _ hg))
    exact hout g hgp hgl hgr fun heq => hxnot (heq ▸ hg)
  have hp' : F' p = some { m with body := .inner (ks₁ ++ k :: ks₂) (cs₁ ++ l :: r :: cs₂) } := by
    rw [← hF', Function.update_of_ne hs.ne_parent.2.symm, Function.update_self]
  refine ⟨h', hrun, ⟨own', F', hR', ?_, ?_⟩, hbrk⟩
  · refine hwf.rebalanceInner (by decide) hp hbody hlen hs hweak hb₁ hb₂
      (List.append_assoc ksl [k] (s :: ksr)) (List.append_assoc csl [x] csr) (by omega) ?_ ?_ hp' ?_
      ?_ ?_ ⟨by omega, by omega⟩ hshort
    · rw [← hF', Function.update_of_ne hs.ne, Function.update_of_ne hs.ne_parent.1,
        Function.update_self, hc₁]
    · rw [← hF', Function.update_self, ← hc₂]
      rfl
    · intro g hg n hn
      obtain ⟨n', hn', hpar⟩ := hkids₁ g (List.mem_append_left _ hg)
      rw [hn] at hn'
      cases hn'
      rw [hstay g (List.mem_append_left _ hg), hn, ← hpar]
    · intro g hg n hn
      rcases List.mem_cons.mp hg with rfl | hg
      · rw [hx] at hn
        cases hn
        obtain ⟨hxl, hxr, hxp⟩ := hxne
        rw [← hF', Function.update_of_ne hxr, Function.update_of_ne hxp, Function.update_of_ne hxl,
          Function.update_self]
      · obtain ⟨n', hn', hpar⟩ := hkids₂ g hg
        rw [hn] at hn'
        cases hn'
        rw [hstay g (List.mem_append_right _ hg), hn, ← hpar]
    · exact fun a hap hal har ha => hout a hap hal har fun heq => ha (by simp [heq])
  · rw [hbrk]
    refine root_level hlevel fun c' hc' => ?_
    by_cases hrp : root = p
    · subst hrp
      rw [hp'] at hc'
      cases hc'
      exact ⟨m, hp, rfl⟩
    · rw [hout root hrp hs.ne_root.1.symm hs.ne_root.2.symm hxroot.symm] at hc'
      exact ⟨c', hc', rfl⟩

theorem borrowInner_right (hR : Rep own h F) (hwf : TreeWF F root content weak none)
    (hlevel : ∀ c, F root = some c → c.level < h.brk) (hp : F p = some m)
    (hbody : m.body = .inner (s :: ks₂) (l :: r :: cs₂))
    (hs : Siblings F root p l r s m n₁ n₂) (hweak : ∀ a, weak = some a → a = l ∨ a = r)
    {ksl ksr : List CString} {csl csr : List Addr} (hb₁ : n₁.body = .inner ksl csl)
    (hb₂ : n₂.body = .inner ksr csr) (hshort : minKeyNum ≤ ksl.length + 1 ∧ ksl.length < maxKeyNum)
    (hlong : minKeyNum < ksr.length ∧ ksr.length ≤ maxKeyNum) :
    ∃ h', distributeNodes l r 0 h = some ((), h') ∧ HoldsTree h' (some root) content ∧
      h'.brk = h.brk := by
  obtain ⟨hnd, hne, hkids₁, hkids₂⟩ := sibling_kids hwf hp hs hb₁ hb₂
  have hchildren₁ := (hwf.spans hs.left hb₁).length
  have hchildren₂ := (hwf.spans hs.right hb₂).length
  obtain ⟨k, ksr, rfl⟩ := List.exists_cons_of_length_pos (by omega : 0 < ksr.length)
  obtain ⟨x, csr, rfl⟩ := List.exists_cons_of_length_pos (by omega : 0 < csr.length)
  simp only [List.length_cons] at hlong hchildren₂
  obtain ⟨cx, hx, -⟩ := hkids₂ x (by simp)
  obtain ⟨hxne, hxroot⟩ := hne x (by simp)
  have hxnot : x ∉ csl ++ csr := (List.nodup_cons.mp (List.perm_middle.nodup_iff.mp hnd)).1
  generalize hc₁ : ({ n₁ with
    hi := (k : WithTop CString), body := .inner (ksl ++ [s]) (csl ++ [x]) } : TreeCell) = c₁
  generalize hc₂ : ({ n₂ with
    lo := (k : WithBot CString), body := .inner ksr csr } : TreeCell) = c₂
  obtain ⟨own', h', hrun, hR', hbrk⟩ := distributeNodes_inner_right hR hs.left hs.right hp hx hs.ne
    hs.ne_parent.1 hs.ne_parent.2 hxne hb₁ hb₂ hbody hs.par.1 hshort.2
    (by rw [← hc₁] : c₁.par = n₁.par) (by rw [← hc₂] : c₂.par = n₂.par)
    (rfl : ({ m with body := .inner (k :: ks₂) (l :: r :: cs₂) } : TreeCell).par = _)
    (by rw [← hc₁]) (by rw [← hc₂]) rfl
  generalize hF' : Function.update (Function.update (Function.update (Function.update F x
    (some { cx with par := some l })) r (some c₂)) p
    (some { m with body := .inner (k :: ks₂) (l :: r :: cs₂) })) l (some c₁) = F' at hR'
  have hout : ∀ a, a ≠ p → a ≠ l → a ≠ r → a ≠ x → F' a = F a := by
    intro a hap hal har hax
    rw [← hF', Function.update_of_ne hal, Function.update_of_ne hap, Function.update_of_ne har,
      Function.update_of_ne hax]
  have hstay : ∀ g ∈ csl ++ csr, F' g = F g := by
    intro g hg
    obtain ⟨⟨hgl, hgr, hgp⟩, -⟩ := hne g (List.perm_middle.mem_iff.mpr (List.mem_cons_of_mem _ hg))
    exact hout g hgp hgl hgr fun heq => hxnot (heq ▸ hg)
  have hp' : F' p = some { m with body := .inner (k :: ks₂) (l :: r :: cs₂) } := by
    rw [← hF', Function.update_of_ne hs.ne_parent.1.symm, Function.update_self]
  refine ⟨h', hrun, ⟨own', F', hR', ?_, ?_⟩, hbrk⟩
  · have hbody' : m.body = .inner ([] ++ s :: ks₂) ([] ++ l :: r :: cs₂) := hbody
    have hks : ksl ++ s :: k :: ksr = (ksl ++ [s]) ++ k :: ksr := by simp
    have hcs : csl ++ x :: csr = (csl ++ [x]) ++ csr := by simp
    refine hwf.rebalanceInner (by decide) hp hbody' rfl hs hweak hb₁ hb₂ hks hcs (by simp; omega) ?_
      ?_ hp' ?_ ?_ ?_ ⟨by simp; omega, by simp; omega⟩ ⟨by omega, by omega⟩
    · rw [← hF', Function.update_self, ← hc₁]
    · rw [← hF', Function.update_of_ne hs.ne.symm, Function.update_of_ne hs.ne_parent.2,
        Function.update_self, hc₂]
    · intro g hg n hn
      rcases List.mem_append.mp hg with hg | hg
      · obtain ⟨n', hn', hpar⟩ := hkids₁ g hg
        rw [hn] at hn'
        cases hn'
        rw [hstay g (List.mem_append_left _ hg), hn, ← hpar]
      · obtain rfl := List.mem_singleton.mp hg
        rw [hx] at hn
        cases hn
        obtain ⟨hxl, hxr, hxp⟩ := hxne
        rw [← hF', Function.update_of_ne hxl, Function.update_of_ne hxp, Function.update_of_ne hxr,
          Function.update_self]
    · intro g hg n hn
      obtain ⟨n', hn', hpar⟩ := hkids₂ g (List.mem_cons_of_mem _ hg)
      rw [hn] at hn'
      cases hn'
      rw [hstay g (List.mem_append_right _ hg), hn, ← hpar]
    · exact fun a hap hal har ha => hout a hap hal har fun heq => ha (by simp [heq])
  · rw [hbrk]
    refine root_level hlevel fun c' hc' => ?_
    by_cases hrp : root = p
    · subst hrp
      rw [hp'] at hc'
      cases hc'
      exact ⟨m, hp, rfl⟩
    · rw [hout root hrp hs.ne_root.1.symm hs.ne_root.2.symm hxroot.symm] at hc'
      exact ⟨c', hc', rfl⟩

/-! ## A node that is a key short -/

/-- The greatest number of keys of two siblings that are joined. -/
def joinCap (isLeaf : Bool) : Nat := if isLeaf then maxKeyNum else maxKeyNum - 1

/-- `nd` is one of the siblings `l` and `r`, at the slot `index` of their parent, and
`neighbor` the other: the one on the left unless `nd` is the first child. -/
def Beside (nd neighbor l r : Addr) (index : Nat) (ks₁ : List CString) (cs₁ : List Addr) : Prop :=
  nd = l ∧ neighbor = r ∧ index = 0 ∧ ks₁ = [] ∧ cs₁ = [] ∨
    nd = r ∧ neighbor = l ∧ index = ks₁.length + 1

/-- A child of an inner node has a sibling beside it, in the slot that `deleteEntry` reads. -/
theorem exists_beside (hR : Rep own h F) {nd : Addr} {c : TreeCell}
    (hwf : TreeWF F root content (some nd) none) (hc : F nd = some c) (hne : nd ≠ root) :
    ∃ p m ks₁ s ks₂ cs₁ l r cs₂ n₁ n₂, c.par = some p ∧ F p = some m ∧
      m.body = .inner (ks₁ ++ s :: ks₂) (cs₁ ++ l :: r :: cs₂) ∧ cs₁.length = ks₁.length ∧
      Siblings F root p l r s m n₁ n₂ ∧ ∃ neighbor slot, Beside nd neighbor l r slot ks₁ cs₁ ∧
        ∃ b, h.nodes neighbor = some b ∧ b.parent = some p := by
  have hweak : ∀ p, c.par = some p → some nd ≠ some p := by
    rintro p hpar heq
    cases heq
    obtain ⟨m, -, -, -, -, hm, -, -, -, hlv⟩ := hwf.parent_place hc hpar
    rw [hc] at hm
    cases hm
    omega
  obtain ⟨p, m, ks₁, s, ks₂, cs₁, l, r, cs₂, hpar, hp, hbody, hlen, hplace⟩ :=
    hwf.neighbour (by decide) hc hne hweak
  obtain ⟨n₁, n₂, hs⟩ := hwf.siblings hp hbody hlen
  refine ⟨p, m, ks₁, s, ks₂, cs₁, l, r, cs₂, n₁, n₂, hpar, hp, hbody, hlen, hs, ?_⟩
  rcases hplace with ⟨rfl, rfl⟩ | rfl
  · obtain ⟨b, hb, hok⟩ := hR.cell r n₂ hs.right
    exact ⟨r, 0, .inl ⟨rfl, rfl, rfl, rfl, List.eq_nil_of_length_eq_zero hlen⟩, b, hb,
      hok.1.trans hs.par.2⟩
  · obtain ⟨b, hb, hok⟩ := hR.cell l n₁ hs.left
    exact ⟨l, ks₁.length + 1, .inr ⟨rfl, rfl, rfl⟩, b, hb, hok.1.trans hs.par.1⟩

/-- The keys of a node and of its neighbour fit into one node, or one of them can move. -/
theorem underfull_spec (hR : Rep own h F) {nd neighbor : Addr} {index : Nat}
    (hwf : TreeWF F root content (some nd) none) (hlevel : ∀ c, F root = some c → c.level < h.brk)
    (hp : F p = some m) (hbody : m.body = .inner (ks₁ ++ s :: ks₂) (cs₁ ++ l :: r :: cs₂))
    (hlen : cs₁.length = ks₁.length) (hs : Siblings F root p l r s m n₁ n₂)
    (hside : Beside nd neighbor l r index ks₁ cs₁) {n b : Node} (hn : h.nodes nd = some n)
    (hb : h.nodes neighbor = some b) (hfew : n.numKeys < minKeyNum) :
    (b.numKeys + n.numKeys ≤ joinCap n.isLeaf ∧
      ∃ h₁ h₂, Joined h h₁ h₂ F root p l r (ks₁.length + 1) content m ∧
        ∃ own₁ F₁ c₁, Rep own₁ h₁ F₁ ∧ F₁ l = some c₁) ∨
    (¬ b.numKeys + n.numKeys ≤ joinCap n.isLeaf ∧ ∃ h', distributeNodes nd neighbor index h =
      some ((), h') ∧ HoldsTree h' (some root) content ∧ h'.brk = h.brk) := by
  have hweak : ∀ a, some nd = some a → a = l ∨ a = r := by
    intro a ha
    cases ha
    rcases hside with ⟨rfl, -⟩ | ⟨rfl, -⟩
    · exact .inl rfl
    · exact .inr rfl
  have hlow : minKeyNum = 2 := rfl
  have hcap : joinCap true = 4 ∧ joinCap false = 3 ∧ maxKeyNum = 4 := ⟨rfl, rfl, rfl⟩
  -- how many keys the siblings may have
  have hsound₁ := hwf.sound l n₁ hs.left
  have hsound₂ := hwf.sound r n₂ hs.right
  have hmin₁ := hsound₁.min
  have hmin₂ := hsound₂.min
  have hmax₁ := hsound₁.max
  have hmax₂ := hsound₂.max
  rw [maxOf_none] at hmax₁ hmax₂
  rw [minOf, if_neg hs.ne_root.1, if_neg hs.ne_root.1] at hmin₁
  rw [minOf, if_neg hs.ne_root.2, if_neg hs.ne_root.2] at hmin₂
  rcases hwf.sibling_bodies hs with ⟨es₁, nx₁, es₂, nx₂, hb₁, hb₂⟩ | ⟨ksl, csl, ksr, csr, hb₁, hb₂⟩
  · rw [Cell.keys_leaf hb₁, List.length_map] at hmin₁ hmax₁
    rw [Cell.keys_leaf hb₂, List.length_map] at hmin₂ hmax₂
    obtain ⟨nl, kpl, rpl, hnl, -, hleaf₁⟩ := hR.leaf hs.left hb₁
    obtain ⟨nr, kpr, rpr, hnr, -, hleaf₂⟩ := hR.leaf hs.right hb₂
    have hnum₁ := hleaf₁.numKeys
    have hnum₂ := hleaf₂.numKeys
    rcases hside with ⟨rfl, rfl, rfl, rfl, rfl⟩ | ⟨rfl, rfl, rfl⟩
    · rw [hn] at hnl
      cases hnl
      rw [hb] at hnr
      cases hnr
      rw [if_pos rfl] at hmin₁
      rw [if_neg (fun heq => hs.ne (Option.some.inj heq))] at hmin₂
      rw [hleaf₁.isLeaf]
      by_cases hsum : b.numKeys + n.numKeys ≤ joinCap true
      · exact .inl ⟨hsum, joinLeaves hR hwf hp hbody hlen hs hweak hb₁ hb₂ (by omega) (by omega)⟩
      · exact .inr ⟨hsum, borrowLeaf_right hR hwf hlevel hp hbody hs hweak hb₁ hb₂
          ⟨by omega, by omega⟩ ⟨by omega, by omega⟩⟩
    · rw [hn] at hnr
      cases hnr
      rw [hb] at hnl
      cases hnl
      rw [if_neg (fun heq => hs.ne (Option.some.inj heq).symm)] at hmin₁
      rw [if_pos rfl] at hmin₂
      rw [hleaf₂.isLeaf]
      by_cases hsum : b.numKeys + n.numKeys ≤ joinCap true
      · exact .inl ⟨hsum, joinLeaves hR hwf hp hbody hlen hs hweak hb₁ hb₂ (by omega) (by omega)⟩
      · exact .inr ⟨hsum, borrowLeaf_left hR hwf hlevel hp hbody hlen hs hweak hb₁ hb₂
          ⟨by omega, by omega⟩ ⟨by omega, by omega⟩⟩
  · rw [Cell.keys_inner hb₁] at hmin₁ hmax₁
    rw [Cell.keys_inner hb₂] at hmin₂ hmax₂
    obtain ⟨nl, kpl, hnl, -, hi₁⟩ := hR.inner hs.left hb₁
    obtain ⟨nr, kpr, hnr, -, hi₂⟩ := hR.inner hs.right hb₂
    have hnum₁ := hi₁.numKeys
    have hnum₂ := hi₂.numKeys
    rcases hside with ⟨rfl, rfl, rfl, rfl, rfl⟩ | ⟨rfl, rfl, rfl⟩
    · rw [hn] at hnl
      cases hnl
      rw [hb] at hnr
      cases hnr
      rw [if_pos rfl] at hmin₁
      rw [if_neg (fun heq => hs.ne (Option.some.inj heq))] at hmin₂
      rw [hi₁.isLeaf]
      by_cases hsum : b.numKeys + n.numKeys ≤ joinCap false
      · exact .inl ⟨hsum, joinInner hR hwf hp hbody hlen hs hweak hb₁ hb₂ (by omega) (by omega)⟩
      · exact .inr ⟨hsum, borrowInner_right hR hwf hlevel hp hbody hs hweak hb₁ hb₂
          ⟨by omega, by omega⟩ ⟨by omega, by omega⟩⟩
    · rw [hn] at hnr
      cases hnr
      rw [hb] at hnl
      cases hnl
      rw [if_neg (fun heq => hs.ne (Option.some.inj heq).symm)] at hmin₁
      rw [if_pos rfl] at hmin₂
      rw [hi₂.isLeaf]
      by_cases hsum : b.numKeys + n.numKeys ≤ joinCap false
      · exact .inl ⟨hsum, joinInner hR hwf hp hbody hlen hs hweak hb₁ hb₂ (by omega) (by omega)⟩
      · exact .inr ⟨hsum, borrowInner_left hR hwf hlevel hp hbody hlen hs hweak hb₁ hb₂
          ⟨by omega, by omega⟩ ⟨by omega, by omega⟩⟩

/-- The slot of a child, and the slot of the neighbour it is joined with. -/
theorem getNodeIndex_run (hR : Rep own h F) {nd neighbor : Addr} {index : Nat}
    (hwf : TreeWF F root content weak fat) (hp : F p = some m)
    (hbody : m.body = .inner (ks₁ ++ s :: ks₂) (cs₁ ++ l :: r :: cs₂))
    (hlen : cs₁.length = ks₁.length) (hside : Beside nd neighbor l r index ks₁ cs₁) {n : Node}
    (hn : h.nodes nd = some n) (hpar : n.parent = some p) :
    getNodeIndex nd h = some (index, h) ∧ ∃ np, h.nodes p = some np ∧
      (if index = 0 then np.pointers[1]? else np.pointers[index - 1]?) = some (some neighbor) := by
  obtain ⟨np, kps, hnp, -, hip⟩ := hR.inner hp hbody
  obtain ⟨pj, hps⟩ := hip.pointers
  have hnum := hip.numKeys
  have hnd := hwf.kids_nodup hp
  rw [Cell.kids_inner hbody] at hnd
  rw [List.length_append, List.length_cons] at hnum
  rcases hside with ⟨rfl, rfl, rfl, rfl, rfl⟩ | ⟨rfl, rfl, rfl⟩
  · have hps' : np.pointers = ([] ++ nd :: neighbor :: cs₂).map some ++ pj := hps
    have hscan := scanSlots hps' (by simp) np.numKeys (Nat.zero_le _)
    refine ⟨?_, np, hnp, ?_⟩
    · simp only [getNodeIndex, CM.bind_run, CM.andThen_some, CM.liftM_run, readNode, CM.query_run,
        hn, Option.map_some, hpar, deref_some, hnp, hscan]
      rfl
    · rw [if_pos rfl, hps]
      rfl
  · have hcs : cs₁ ++ neighbor :: nd :: cs₂ = (cs₁ ++ [neighbor]) ++ nd :: cs₂ := by simp
    rw [hcs] at hps hnd
    have hnot : nd ∉ cs₁ ++ [neighbor] := fun hmem =>
      (List.nodup_append.mp hnd).2.2 nd hmem nd (by simp) rfl
    have hlen' : (cs₁ ++ [neighbor]).length = ks₁.length + 1 := by simp [hlen]
    have hscan := scanSlots hps hnot np.numKeys (by omega)
    refine ⟨?_, np, hnp, ?_⟩
    · simp only [getNodeIndex, CM.bind_run, CM.andThen_some, CM.liftM_run, readNode, CM.query_run,
        hn, Option.map_some, hpar, deref_some, hnp, hscan, hlen']
    · rw [if_neg (Nat.succ_ne_zero _), Nat.add_sub_cancel, hps, ← hlen]
      simp

/-- The number of keys below which a node is merged is one for leaves and inner nodes. -/
theorem minKeys_eq (isLeaf : Bool) :
    (if isLeaf then (maxKeyNum + 1) / 2 else maxKeyNum / 2) = minKeyNum := by
  cases isLeaf <;> rfl

/-- `deleteEntry` on a node that stays large enough. -/
theorem deleteEntry_enough {h₁ : Heap} {nd : Addr} {index : Nat} {n : Node}
    (hrem : removeEntry nd index h = some ((), h₁)) (hne : nd ≠ root)
    (hn : h₁.nodes nd = some n) (hmany : n.numKeys ≥ minKeyNum) (fuel : Nat) :
    deleteEntry (fuel + 1) root nd index h = some (some root, h₁) := by
  simp only [deleteEntry, CM.bind_run, hrem, CM.andThen_some, if_neg hne, readNode, CM.query_run,
    hn, Option.map_some, minKeys_eq, if_pos hmany, CM.pure_run]

/-- `deleteEntry` on a node that is a key short. -/
theorem deleteEntry_short {h₁ : Heap} {nd neighbor : Addr} {index slot : Nat} {n np b : Node}
    (hrem : removeEntry nd index h = some ((), h₁)) (hne : nd ≠ root)
    (hn : h₁.nodes nd = some n) (hfew : n.numKeys < minKeyNum)
    (hslot : getNodeIndex nd h₁ = some (slot, h₁)) (hpar : n.parent = some p)
    (hnp : h₁.nodes p = some np)
    (hget : (if slot = 0 then np.pointers[1]? else np.pointers[slot - 1]?) = some (some neighbor))
    (hb : h₁.nodes neighbor = some b) (fuel : Nat) :
    deleteEntry (fuel + 1) root nd index h =
      if b.numKeys + n.numKeys ≤ joinCap n.isLeaf then coalesceNodes fuel root nd neighbor slot h₁
      else (distributeNodes nd neighbor slot >>= fun _ => pure (some root)) h₁ := by
  simp only [deleteEntry, CM.bind_run, hrem, CM.andThen_some, if_neg hne, readNode, CM.query_run,
    hn, Option.map_some, minKeys_eq, if_neg (Nat.not_le.mpr hfew), hslot, hpar, deref_some, hnp]
  split at hget
  · simp only [if_pos ‹slot = 0›, CM.bind_run, CM.liftM_run, hget, Option.map_some,
      CM.andThen_some, deref_some, CM.query_run, hb, CM.ite_run]
    rfl
  · simp only [if_neg ‹¬ slot = 0›, CM.bind_run, CM.liftM_run, hget, Option.map_some,
      CM.andThen_some, deref_some, CM.query_run, hb, CM.ite_run]
    rfl

/-- `coalesceNodes` goes on with the parent. -/
theorem coalesceNodes_run {h₁ h₂ : Heap} {nd neighbor : Addr} {slot : Nat}
    (hJ : Joined h h₁ h₂ F root p l r (ks₁.length + 1) content m)
    (hside : Beside nd neighbor l r slot ks₁ cs₁) (fuel : Nat) :
    coalesceNodes (fuel + 1) root nd neighbor slot h =
      deleteEntry fuel root p (ks₁.length + 1) h₁ := by
  have hmoved := hJ.moved
  rcases hside with ⟨rfl, rfl, rfl, rfl, -⟩ | ⟨rfl, rfl, rfl⟩
  · rw [List.length_nil, Nat.zero_add] at hmoved
    simp only [coalesceNodes, if_true, CM.bind_run, hmoved, CM.andThen_some, List.length_nil,
      Nat.zero_add]
  · simp only [coalesceNodes, Nat.add_one_ne_zero, if_false, CM.bind_run, hmoved, CM.andThen_some]

/-- `deleteEntry` ends with a tree, given fuel for every level above the node. -/
theorem deleteEntry_spec : ∀ (d fuel : Nat) {own : Owner} {h h₁ : Heap} {F : Tree} {nd : Addr}
    {c : TreeCell} {index : Nat}, removeEntry nd index h = some ((), h₁) → Rep own h₁ F →
    TreeWF F root content (some nd) none → F nd = some c →
    (∀ r, F root = some r → r.level ≤ c.level + d ∧ r.level < h₁.brk) → 2 * d < fuel →
    ∃ r h', deleteEntry fuel root nd index h = some (r, h') ∧ HoldsTree h' r content ∧
      h₁.brk ≤ h'.brk := by
  intro d
  induction d with
  | zero =>
    intro fuel own h h₁ F nd c index hrem hR hwf hc htop hfuel
    obtain ⟨fuel, rfl⟩ : ∃ f, fuel = f + 1 := ⟨fuel - 1, by omega⟩
    -- at the root's own height there is only the root
    obtain rfl : nd = root := by
      by_contra hne
      obtain ⟨p, m, -, hp, hmem⟩ := hwf.link nd c hc hne
      obtain ⟨c', hc', -, hlv⟩ := hwf.kid hp hmem
      rw [hc] at hc'
      cases hc'
      obtain ⟨r, hr, -, -, -, hmax⟩ := hwf.root_cell
      have := (htop r hr).1
      have := hmax p m hp
      omega
    obtain ⟨r, h', hrun, htree, hbrk⟩ := adjustRoot_spec hR hwf fun r hr => (htop r hr).2
    refine ⟨r, h', ?_, htree, hbrk⟩
    simp only [deleteEntry, CM.bind_run, hrem, CM.andThen_some, if_true, hrun]
  | succ d ih =>
    intro fuel own h h₁ F nd c index hrem hR hwf hc htop hfuel
    obtain ⟨fuel, rfl⟩ : ∃ f, fuel = f + 2 := ⟨fuel - 2, by omega⟩
    by_cases hne : nd = root
    · subst hne
      obtain ⟨r, h', hrun, htree, hbrk⟩ := adjustRoot_spec hR hwf fun r hr => (htop r hr).2
      refine ⟨r, h', ?_, htree, hbrk⟩
      simp only [deleteEntry, CM.bind_run, hrem, CM.andThen_some, if_true, hrun]
    obtain ⟨n, hn, hok⟩ := hR.cell nd c hc
    have hnum := hok.numKeys_eq
    by_cases hmany : n.numKeys ≥ minKeyNum
    · refine ⟨some root, h₁, deleteEntry_enough hrem hne hn hmany _,
        ⟨own, F, hR, hwf.settle (by decide) ?_ (by simp), fun r hr => (htop r hr).2⟩, le_rfl⟩
      intro a c' ha hc'
      cases ha
      rw [hc] at hc'
      cases hc'
      rw [minOf_none, if_neg hne, ← hnum]
      exact hmany
    obtain ⟨p, m, ks₁, s, ks₂, cs₁, l, r, cs₂, n₁, n₂, hpar, hp, hbody, hlen, hs, neighbor, slot,
      hside, b, hb, -⟩ := exists_beside hR hwf hc hne
    have hnpar : n.parent = some p := hok.1.trans hpar
    obtain ⟨hslot, np, hnp, hget⟩ := getNodeIndex_run hR hwf hp hbody hlen hside hn hnpar
    have hrun := deleteEntry_short hrem hne hn (Nat.not_le.mp hmany) hslot hnpar hnp hget hb
      (fuel + 1)
    rcases underfull_spec hR hwf (fun r hr => (htop r hr).2) hp hbody hlen hs hside hn hb
      (Nat.not_le.mp hmany) with ⟨hsum, h₂, h₃, hJ, -⟩ | ⟨hsum, h₂, hdist, htree, hbrk⟩
    · obtain ⟨own', F', m', hR', hwf', hp', -, hlv', hroot⟩ := hJ.tree
      obtain ⟨hbrk₁, hbrk₂⟩ := hJ.brk
      have hlevel : m.level = c.level + 1 := by
        obtain ⟨m', -, -, -, -, hm', -, -, -, hlv⟩ := hwf.parent_place hc hpar
        rw [hp] at hm'
        cases hm'
        exact hlv
      obtain ⟨r', h', hrun', htree, hbrk⟩ := ih fuel hJ.removed hR' hwf' hp' (fun r hr => by
        obtain ⟨r₀, hr₀, hlv₀⟩ := hroot r hr
        obtain ⟨htop₁, htop₂⟩ := htop r₀ hr₀
        exact ⟨by omega, by omega⟩) (by omega)
      refine ⟨r', h', ?_, htree, (hbrk₁.trans hbrk₂.le).trans hbrk⟩
      rw [hrun, if_pos hsum, coalesceNodes_run hJ hside, hrun']
    · refine ⟨some root, h₂, ?_, htree, hbrk.ge⟩
      rw [hrun, if_neg hsum, CM.bind_run, hdist, CM.andThen_some, CM.pure_run]

/-! ## The whole removal -/

/-- What a removal does to the names. -/
def removeName (content : CString → Option FileRef) (key : CString) : CString → Option FileRef :=
  Function.update content key none

/-- The entry of a key leaves its leaf, which may then be a key short. -/
theorem removeEntry_found (hR : Rep own h F) (hwf : TreeWF F root content none none)
    (hlevel : ∀ c, F root = some c → c.level < h.brk) {key : CString} {leaf : Addr} {c : TreeCell}
    {es₁ es₂ : List (CString × FileRef)} {f : FileRef} {next : Ptr} (hc : F leaf = some c)
    (hb : c.body = .leaf (es₁ ++ (key, f) :: es₂) next) (hrange : InRange c.lo c.hi key) :
    ∃ own₁ F₁ c₁ h₁, removeEntry leaf es₁.length h = some ((), h₁) ∧ Rep own₁ h₁ F₁ ∧
      TreeWF F₁ root (removeName content key) (some leaf) none ∧ F₁ leaf = some c₁ ∧
      h₁.brk = h.brk ∧ ∀ c', F₁ root = some c' → c'.level < h.brk := by
  obtain ⟨-, hholds, -⟩ := hwf.holds hc hb
  obtain ⟨h₁, hrem, hR₁, hbrk₁⟩ := removeEntry_leaf hR hc hb
  have hsound := hwf.sound leaf c hc
  have hmin := hsound.min
  have hmax := hsound.max
  rw [Cell.keys_leaf hb, List.length_map, List.length_append, List.length_cons] at hmin hmax
  rw [minOf_none] at hmin
  have hwf₁ : TreeWF (Function.update F leaf
      (some { c with body := .leaf (es₁ ++ es₂) next })) root (removeName content key)
      (some leaf) none := by
    refine hwf.setLeaf (by decide) hc hb (by simp) (by simp) hholds.erase
      (fun q hq => Function.update_of_ne (by rintro rfl; exact hq hrange) ..) ?_ ?_
    · rw [minOf, if_pos rfl, List.length_append]
      split at hmin <;> split <;> omega
    · rw [List.length_append]
      omega
  have hroot : ∀ c', Function.update F leaf
      (some { c with body := .leaf (es₁ ++ es₂) next }) root = some c' →
      ∃ c'', F root = some c'' ∧ c''.level = c'.level := by
    intro c' hc'
    by_cases hrl : root = leaf
    · subst hrl
      rw [Function.update_self] at hc'
      cases hc'
      exact ⟨c, hc, rfl⟩
    · rw [Function.update_of_ne hrl] at hc'
      exact ⟨c', hc', rfl⟩
  exact ⟨own, _, _, h₁, hrem, hR₁, hwf₁, Function.update_self .., hbrk₁, root_level hlevel hroot⟩

/-- `bPlusTreeRemove` on a heap that holds a tree. -/
theorem bPlusTreeRemove_spec {root : Ptr} (hT : HoldsTree h root content) (key : CString) :
    ∃ root' h', bPlusTreeRemove root key h = some (root', h') ∧
      HoldsTree h' root' (removeName content key) ∧ h.brk ≤ h'.brk := by
  cases root with
  | none =>
      obtain ⟨hR, rfl⟩ := hT
      refine ⟨none, h, rfl, ⟨hR, ?_⟩, le_rfl⟩
      exact Function.update_eq_self key (fun _ : CString => (none : Option FileRef))
  | some root =>
      obtain ⟨own, F, hR, hwf, hlevel⟩ := hT
      obtain ⟨leaf, c, es, next, hfind, hc, hb, hrange⟩ := findLeaf_spec hR hwf hlevel key
      obtain ⟨n, kps, rps, hn, -, hl⟩ := hR.leaf hc hb
      obtain ⟨-, hholds, -⟩ := hwf.holds hc hb
      have hcontent : content key = es.lookup key := hholds.lookup key hrange
      have hindex := findIndex_spec hl key
      rcases takeWhile_ne_cases es key with ⟨hlen, hnone⟩ | ⟨es₁, f, es₂, rfl, -, hlen⟩
      · -- a name that is not there
        rw [hlen, ← hl.numKeys] at hindex
        refine ⟨some root, h, ?_, ⟨own, F, hR, ?_, hlevel⟩, le_rfl⟩
        · simp only [bPlusTreeRemove, CM.bind_run, CM.query_run, hfind, Option.map_some,
            CM.andThen_some, readNode, hn, hindex, if_true, CM.pure_run]
        · have hsame : removeName content key = content := by
            rw [removeName, ← hnone, ← hcontent]
            exact Function.update_eq_self ..
          rwa [hsame]
      · rw [hlen] at hindex
        have hne : es₁.length ≠ n.numKeys := by
          rw [hl.numKeys, List.length_append, List.length_cons]
          omega
        obtain ⟨own₁, F₁, c₁, h₁, hrem, hR₁, hwf₁, hc₁, hbrk₁, hlevel₁⟩ :=
          removeEntry_found hR hwf hlevel hc hb hrange
        obtain ⟨r, h', hrun, htree, hbrk⟩ := deleteEntry_spec h.brk (climbFuel h) hrem hR₁ hwf₁
          hc₁ (fun c' hc' => ⟨(hlevel₁ c' hc').le.trans (Nat.le_add_left ..),
            hbrk₁ ▸ hlevel₁ c' hc'⟩) (show 2 * h.brk < 2 * h.brk + 2 by omega)
        refine ⟨r, h', ?_, htree, hbrk₁ ▸ hbrk⟩
        simp only [bPlusTreeRemove, CM.bind_run, CM.query_run, hfind, Option.map_some,
          CM.andThen_some, readNode, hn, hindex, if_neg hne, deref_some, hrun]

end Nbfs.BplusTree
