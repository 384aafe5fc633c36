import Nbfs.BplusTree.Directory

set_option autoImplicit false

/-!
# The shape of the tree

What every tree that insertions and removals can build looks like in memory: one
depth for all leaves, increasing keys in a node, separators that separate, enough
and not too many keys, and a parent field that names the node above.
-/

namespace Nbfs.BplusTree

open Nbfs.Lib Nbfs.Lib.Forest

/-- `a` is one of the children of the node at `p`. -/
def Child (h : Heap) (p a : Addr) : Prop :=
  ∃ n i, h.nodes p = some n ∧ n.isLeaf = false ∧ i ≤ n.numKeys ∧ n.pointers[i]? = some (some a)

/-- `b` is `d` levels below `a`. -/
inductive Below (h : Heap) : Addr → Nat → Addr → Prop where
  | here (a : Addr) : Below h a 0 a
  | down {a b c : Addr} {d : Nat} : Child h a b → Below h b d c → Below h a (d + 1) c

/-- `q` is a key of the node at `a` or of a node below it. -/
def Stored (h : Heap) (a : Addr) (q : CString) : Prop :=
  ∃ d b n i, Below h a d b ∧ h.nodes b = some n ∧ i < n.numKeys ∧ keyAt h n i = some q

/-- What holds of each node of a tree. -/
structure NodeShape (h : Heap) (root a : Addr) (n : Node) : Prop where
  keys : ∀ i < n.numKeys, ∃ k, keyAt h n i = some k
  sorted : ∀ i j k k', i < j → j < n.numKeys → keyAt h n i = some k → keyAt h n j = some k' →
    CString.strcmp k k' < 0
  max : n.numKeys ≤ maxKeyNum
  min : a ≠ root → 2 ≤ n.numKeys
  minRoot : a = root → n.isLeaf = false → 1 ≤ n.numKeys
  children : n.isLeaf = false → ∀ i ≤ n.numKeys, ∃ c m, n.pointers[i]? = some (some c) ∧
    h.nodes c = some m ∧ m.parent = some a
  separated : n.isLeaf = false → ∀ i < n.numKeys, ∀ k c c', keyAt h n i = some k →
    n.pointers[i]? = some (some c) → n.pointers[i + 1]? = some (some c') →
      (∀ q, Stored h c q → CString.strcmp q k < 0) ∧ ∀ q, Stored h c' q → 0 ≤ CString.strcmp q k

/-- The shape of the tree with the given root. -/
structure Shape (h : Heap) (root : Addr) : Prop where
  node : ∀ d a, Below h root d a → ∃ n, h.nodes a = some n ∧ NodeShape h root a n
  depth : ∃ d₀, ∀ d a n, Below h root d a → h.nodes a = some n → n.isLeaf = true → d = d₀
  parent : ∀ n, h.nodes root = some n → n.parent = none

variable {own : Owner} {h : Heap} {F : Tree} {root : Addr} {content : CString → Option FileRef}
  {weak fat : Option Addr}

/-! ## Nodes and cells -/

theorem NodeOK.keyAt {a : Addr} {n : Node} {c : TreeCell} (hok : NodeOK own h a n c) {i : Nat}
    (hi : i < c.keys.length) : BplusTree.keyAt h n i = some c.keys[i] := by
  cases hb : c.body with
  | leaf es next =>
      obtain ⟨-, kps, rps, hl⟩ := (nodeOK_leaf hb).mp hok
      obtain ⟨kj, hkeys⟩ := hl.keys
      have hstrs : kps.map h.strs = c.keys.map some := by
        rw [hl.strs, Cell.keys_leaf hb, List.map_map]
        rfl
      exact keyAt_eq hkeys hstrs hi
  | inner ks cs =>
      obtain ⟨-, kps, hin⟩ := (nodeOK_inner hb).mp hok
      obtain ⟨kj, hkeys⟩ := hin.keys
      have hstrs : kps.map h.strs = c.keys.map some := by rw [hin.strs, Cell.keys_inner hb]
      exact keyAt_eq hkeys hstrs hi

theorem NodeOK.isLeaf_eq {a : Addr} {n : Node} {c : TreeCell} (hok : NodeOK own h a n c) :
    (n.isLeaf = true ∧ ∃ es next, c.body = .leaf es next) ∨
      n.isLeaf = false ∧ ∃ ks cs, c.body = .inner ks cs ∧ cs.length = ks.length + 1 ∧
        ∀ i (hi : i < cs.length), n.pointers[i]? = some (some cs[i]) := by
  cases hb : c.body with
  | leaf es next =>
      obtain ⟨-, kps, rps, hl⟩ := (nodeOK_leaf hb).mp hok
      exact .inl ⟨hl.isLeaf, es, next, rfl⟩
  | inner ks cs =>
      obtain ⟨-, kps, hin⟩ := (nodeOK_inner hb).mp hok
      obtain ⟨pj, hps⟩ := hin.pointers
      refine .inr ⟨hin.isLeaf, ks, cs, rfl, hin.children, fun i hi => ?_⟩
      rw [hps, List.getElem?_append_left (by rwa [List.length_map]), List.getElem?_map,
        List.getElem?_eq_getElem hi, Option.map_some]

/-- A child in memory is a child of the cell. -/
theorem Child.mem_kids (hR : Rep own h F) {p a : Addr} {m : TreeCell} (hp : F p = some m)
    (hc : Child h p a) : a ∈ m.kids := by
  obtain ⟨n, i, hn, hinner, hi, hget⟩ := hc
  obtain ⟨n', hn', hok⟩ := hR.cell p m hp
  rw [hn] at hn'
  cases hn'
  have hnum := hok.numKeys_eq
  rcases hok.isLeaf_eq with ⟨hleaf, -⟩ | ⟨-, ks, cs, hb, hlen, hslots⟩
  · rw [hleaf] at hinner
    cases hinner
  · rw [Cell.keys_inner hb] at hnum
    rw [hslots i (by omega), Option.some.injEq, Option.some.injEq] at hget
    rw [Cell.kids_inner hb, ← hget]
    exact List.getElem_mem ..

/-- Every step down is one level, and into part of the range. -/
theorem Below.cell (hR : Rep own h F) (hwf : TreeWF F root content weak fat) {a b : Addr} {d : Nat}
    (hd : Below h a d b) : ∀ {c : TreeCell}, F a = some c →
      ∃ cb, F b = some cb ∧ cb.level + d = c.level ∧ c.lo ≤ cb.lo ∧ cb.hi ≤ c.hi := by
  induction hd with
  | here a => exact fun {c} hc => ⟨c, hc, rfl, le_rfl, le_rfl⟩
  | down hchild _ ih =>
      intro c hc
      have hmem := hchild.mem_kids hR hc
      obtain ⟨n, hn, -, hlv⟩ := hwf.kid hc hmem
      obtain ⟨hlo, hhi⟩ := hwf.kid_range hc hmem hn
      obtain ⟨cb, hcb, hlv', hlo', hhi'⟩ := ih hn
      exact ⟨cb, hcb, by omega, hlo.trans hlo', hhi'.trans hhi⟩

/-- The keys below a node lie in its range. -/
theorem Stored.range (hR : Rep own h F) (hwf : TreeWF F root content weak fat) {a : Addr}
    {c : TreeCell} (hc : F a = some c) {q : CString} (hq : Stored h a q) :
    InRange c.lo c.hi q := by
  obtain ⟨d, b, n, i, hd, hn, hi, hkey⟩ := hq
  obtain ⟨cb, hcb, -, hlo, hhi⟩ := hd.cell hR hwf hc
  obtain ⟨n', hn', hok⟩ := hR.cell b cb hcb
  rw [hn] at hn'
  cases hn'
  have hlt : i < cb.keys.length := hok.numKeys_eq ▸ hi
  rw [hok.keyAt hlt, Option.some.injEq] at hkey
  obtain ⟨hl, hh⟩ := (hwf.keys_sorted hcb).2 q (hkey ▸ List.getElem_mem hlt)
  exact ⟨hlo.trans hl, lt_of_lt_of_le hh hhi⟩

/-! ## The invariant read off a well-formed tree -/

theorem nodeShape (hR : Rep own h F) (hwf : TreeWF F root content none none) {a : Addr}
    {c : TreeCell} (hc : F a = some c) {n : Node}
    (hok : NodeOK own h a n c) : NodeShape h root a n where
  keys i hi := ⟨_, hok.keyAt (hok.numKeys_eq ▸ hi)⟩
  sorted := by
    intro i j k k' hij hj hk hk'
    have hj' : j < c.keys.length := hok.numKeys_eq ▸ hj
    rw [hok.keyAt (hij.trans hj'), Option.some.injEq] at hk
    rw [hok.keyAt hj', Option.some.injEq] at hk'
    rw [CString.strcmp_neg_iff, ← hk, ← hk']
    exact List.pairwise_iff_getElem.mp (hwf.keys_sorted hc).1 i j (hij.trans hj') hj' hij
  max := by
    have hmax := (hwf.sound a c hc).max
    rwa [maxOf_none, ← hok.numKeys_eq] at hmax
  min := by
    intro hne
    have hmin := (hwf.sound a c hc).min
    rwa [minOf_none, if_neg hne, ← hok.numKeys_eq] at hmin
  minRoot := by
    intro heq _
    have hmin := (hwf.sound a c hc).min
    rwa [minOf_none, if_pos heq, ← hok.numKeys_eq] at hmin
  children := by
    intro hinner i hi
    have hnum := hok.numKeys_eq
    rcases hok.isLeaf_eq with ⟨hleaf, -⟩ | ⟨-, ks, cs, hb, hlen, hslots⟩
    · rw [hleaf] at hinner
      cases hinner
    · rw [Cell.keys_inner hb] at hnum
      have hlt : i < cs.length := by omega
      obtain ⟨x, hx, hpar, -⟩ := hwf.kid hc (by rw [Cell.kids_inner hb]; exact List.getElem_mem hlt)
      obtain ⟨m, hm, hokm⟩ := hR.cell _ x hx
      exact ⟨_, m, hslots i hlt, hm, hokm.1.trans hpar⟩
  separated := by
    intro hinner i hi k x y hk hx hy
    have hnum := hok.numKeys_eq
    rcases hok.isLeaf_eq with ⟨hleaf, -⟩ | ⟨-, ks, cs, hb, hlen, hslots⟩
    · rw [hleaf] at hinner
      cases hinner
    · rw [hok.keyAt (hnum ▸ hi), Option.some.injEq] at hk
      rw [Cell.keys_inner hb] at hnum
      simp only [Cell.keys_inner hb] at hk
      rw [hslots i (by omega), Option.some.injEq, Option.some.injEq] at hx
      rw [hslots (i + 1) (by omega), Option.some.injEq, Option.some.injEq] at hy
      have hks : ks = ks.take i ++ k :: ks.drop (i + 1) := by
        rw [← hk, ← List.drop_eq_getElem_cons, List.take_append_drop]
      have hcs : cs = cs.take i ++ x :: y :: cs.drop (i + 2) := by
        rw [← hy, ← List.drop_eq_getElem_cons, ← hx, ← List.drop_eq_getElem_cons,
          List.take_append_drop]
      rw [hks, hcs] at hb
      obtain ⟨n₁, n₂, hs⟩ := hwf.siblings hc hb (by simp; omega)
      refine ⟨fun q hq => ?_, fun q hq => ?_⟩
      · have hrange := hq.range hR hwf hs.left
        rw [hs.boundary.1] at hrange
        exact CString.strcmp_neg_iff.mpr hrange.lt_upper
      · have hrange := hq.range hR hwf hs.right
        rw [hs.boundary.2] at hrange
        have hle := hrange.lower_le
        by_contra hneg
        exact absurd (CString.strcmp_neg_iff.mp (not_le.mp hneg)) (not_lt.mpr hle)

theorem HoldsTree.shape (hT : HoldsTree h (some root) content) : Shape h root := by
  obtain ⟨own, F, hR, hwf, -⟩ := hT
  obtain ⟨r, hr, hpar, -⟩ := hwf.root_cell
  refine ⟨fun d a hd => ?_, ⟨r.level, fun d a n hd hn hleaf => ?_⟩, fun n hn => ?_⟩
  · obtain ⟨c, hc, -⟩ := hd.cell hR hwf hr
    obtain ⟨n, hn, hok⟩ := hR.cell a c hc
    exact ⟨n, hn, nodeShape hR hwf hc hok⟩
  · obtain ⟨c, hc, hlevel, -⟩ := hd.cell hR hwf hr
    obtain ⟨n', hn', hok⟩ := hR.cell a c hc
    rw [hn] at hn'
    cases hn'
    rcases hok.isLeaf_eq with ⟨-, es, next, hb⟩ | ⟨hinner, -⟩
    · have hzero := (hwf.holds hc hb).1
      omega
    · rw [hleaf] at hinner
      cases hinner
  · obtain ⟨n', hn', hok⟩ := hR.cell root r hr
    rw [hn] at hn'
    cases hn'
    exact hok.1.trans hpar

/-- **Every reachable tree is a B+ tree.** -/
theorem shape_runCalls (calls : List Call) (hfit : ∀ c ∈ calls, c.Fits) :
    ∃ root h, runCalls calls none Heap.empty = some (root, h) ∧
      ∀ r, root = some r → Shape h r := by
  obtain ⟨root, h, hrun, htree⟩ := runCalls_spec calls hfit
  refine ⟨root, h, hrun, fun r hr => ?_⟩
  subst hr
  exact htree.shape

/-- A tree with two leaves. -/
theorem shape_runCalls_split :
    let name (b : UInt8) (hb : b ≠ 0) : CString := ⟨[b], by simpa using hb.symm⟩
    ∃ root h, runCalls [.insert 1 (name 1 (by decide)) 1, .insert 1 (name 2 (by decide)) 2,
        .insert 1 (name 3 (by decide)) 3, .insert 1 (name 4 (by decide)) 4,
        .insert 1 (name 5 (by decide)) 5] none Heap.empty = some (root, h) ∧
      ∀ r, root = some r → Shape h r :=
  shape_runCalls _ (by decide)

end Nbfs.BplusTree
