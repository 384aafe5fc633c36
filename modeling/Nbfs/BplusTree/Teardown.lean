import Nbfs.BplusTree.Empty

set_option autoImplicit false

/-!
# Deleting the whole tree (`delete_B_plus_tree`)

The function removes the first key of the leftmost leaf and calls itself on what is left,
until there is no root.  An empty leaf that nothing was put in has no key to remove, and
stays.
-/

namespace Nbfs.BplusTree

open Nbfs.Lib Nbfs.Lib.Forest

/-- `delete_B_plus_tree`; `fuel` bounds its recursion. -/
def deleteBPlusTree : Nat → Ptr → CM Unit
  | 0, _ => CM.lift none
  | _ + 1, none => pure ()
  | fuel + 1, some root => do
      let p ← CM.query fun h => leftmostLeaf h (h.brk + 1) root
      let n ← readNode p
      if n.numKeys = 0 then pure ()
      else
        let key ← readStr (← deref (← n.keys[0]?))
        let root ← bPlusTreeRemove (some root) key
        deleteBPlusTree fuel root

variable {h : Heap} {root : Ptr} {content : CString → Option FileRef}

/-- The leftmost leaf of a tree has a first key, which is a name. -/
theorem HoldsTree.first_key {r : Addr} (hT : HoldsTree h (some r) content) :
    ∃ leaf n p key, leftmostLeaf h (h.brk + 1) r = some leaf ∧ h.nodes leaf = some n ∧
      n.numKeys ≠ 0 ∧ n.keys[0]? = some (some p) ∧ h.strs p = some key ∧ content key ≠ none := by
  obtain ⟨own, F, hR, hwf, hlevel⟩ := hT
  obtain ⟨c, hc, -⟩ := hwf.root_cell
  obtain ⟨leaf, cl, es, next, hleft, hleaf, hb, -⟩ :=
    leftmostLeaf_spec hR hwf (h.brk + 1) hc ((hlevel c hc).trans (Nat.lt_succ_self _))
  obtain ⟨n, kps, rps, hn, -, hl⟩ := hR.leaf hleaf hb
  have hmin := (hwf.sound leaf cl hleaf).min
  rw [minOf_none, Cell.keys_leaf hb, List.length_map] at hmin
  have hpos : 0 < es.length := by
    split at hmin
    · exact hmin
    · exact lt_of_lt_of_le (by decide) hmin
  obtain ⟨⟨key, file⟩, es', rfl⟩ := List.exists_cons_of_length_pos hpos
  obtain ⟨kj, hkeys⟩ := hl.keys
  have hstrs := hl.strs
  rw [List.map_cons] at hstrs
  obtain ⟨p, kps', rfl, hp, -⟩ := List.map_eq_cons_iff.mp hstrs
  have hholds := (hwf.holds hleaf hb).2.1
  have hname : content key = some file := by
    rw [hholds.lookup key (hholds.range key List.mem_cons_self), List.lookup_cons_self]
  refine ⟨leaf, n, p, key, hleft, hn, ?_, ?_, hp, ?_⟩
  · rw [hl.numKeys]
    exact Nat.succ_ne_zero _
  · rw [hkeys]
    rfl
  · rw [hname]
    exact Option.some_ne_none file

/-- No node is left. -/
def NoNodes (h : Heap) : Prop := ∀ a, h.nodes a = none

/-- With a removal for each name the tree is gone, and with more it is the same. -/
theorem deleteBPlusTree_spec : ∀ (n : Nat) {h : Heap} {root : Ptr}
    {content : CString → Option FileRef} {names : List CString}, HoldsTree h root content →
      (∀ q, content q ≠ none → q ∈ names) → names.length ≤ n →
      ∃ h', (∀ fuel, n < fuel → deleteBPlusTree fuel root h = some ((), h')) ∧ NoNodes h' := by
  intro n
  induction n with
  | zero =>
      intro h root content names hT hnames hle
      have hnil : names = [] := List.eq_nil_of_length_eq_zero (Nat.le_zero.mp hle)
      obtain rfl : root = none := by
        apply hT.root_eq_none_iff.mpr
        intro q
        by_contra hq
        have hmem := hnames q hq
        rw [hnil] at hmem
        cases hmem
      obtain ⟨⟨own, hR⟩, -⟩ := hT
      refine ⟨h, fun fuel hfuel => ?_, fun a => hR.free a rfl⟩
      obtain ⟨fuel, rfl⟩ : ∃ f, fuel = f + 1 := ⟨fuel - 1, by omega⟩
      rfl
  | succ n ih =>
      intro h root content names hT hnames hle
      cases root with
      | none =>
          obtain ⟨⟨own, hR⟩, -⟩ := hT
          refine ⟨h, fun fuel hfuel => ?_, fun a => hR.free a rfl⟩
          obtain ⟨fuel, rfl⟩ : ∃ f, fuel = f + 1 := ⟨fuel - 1, by omega⟩
          rfl
      | some r =>
          obtain ⟨leaf, nd, p, key, hleft, hn, hsome, hslot, hp, hkey⟩ := hT.first_key
          obtain ⟨root₁, h₁, hremove, hT₁, -⟩ := bPlusTreeRemove_spec hT key
          have hnames₁ : ∀ q, removeName content key q ≠ none → q ∈ names.erase key := by
            intro q hq
            have hne : q ≠ key := by
              rintro rfl
              exact hq (Function.update_self ..)
            apply (List.mem_erase_of_ne hne).mpr
            apply hnames q
            rwa [removeName, Function.update_of_ne hne] at hq
          have hle₁ : (names.erase key).length ≤ n := by
            rw [List.length_erase_of_mem (hnames key hkey)]
            omega
          obtain ⟨h', hrun, hnone⟩ := ih hT₁ hnames₁ hle₁
          refine ⟨h', fun fuel hfuel => ?_, hnone⟩
          obtain ⟨fuel, rfl⟩ : ∃ f, fuel = f + 1 := ⟨fuel - 1, by omega⟩
          simp only [deleteBPlusTree, CM.bind_run, CM.query_run, hleft, Option.map_some,
            CM.andThen_some, readNode_run hn, if_neg hsome, CM.liftM_run, hslot, deref_some,
            readStr_run hp, hremove]
          exact hrun fuel (Nat.lt_of_succ_lt_succ hfuel)

/-- What is deleted of a tree. -/
theorem HoldsTree.deleted (hT : HoldsTree h root content) :
    ∃ n h', (∀ fuel, n < fuel → deleteBPlusTree fuel root h = some ((), h')) ∧ NoNodes h' := by
  obtain ⟨leaves, entries, records, hL⟩ := hT.listing
  refine ⟨_, deleteBPlusTree_spec _ hT (fun q hq => ?_) (Nat.le_refl (entries.map Prod.fst).length)⟩
  rw [hL.lookup q, ne_eq, List.lookup_eq_none_iff, not_forall] at hq
  obtain ⟨e, hq⟩ := hq
  obtain ⟨he, heq⟩ := Classical.not_imp.mp hq
  obtain rfl : q = e.1 := by simpa using heq
  exact List.mem_map_of_mem he

/-- The empty leaf stays. -/
theorem EmptyLeaf.deleted {r : Addr} (hE : EmptyLeaf h r) (fuel : Nat) :
    deleteBPlusTree (fuel + 1) (some r) h = some ((), h) := by
  have hleft : leftmostLeaf h (h.brk + 1) r = some r := by
    simp [leftmostLeaf, hE.node, Node.blank]
  simp only [deleteBPlusTree, CM.bind_run, CM.query_run, hleft, Option.map_some, CM.andThen_some,
    readNode_run hE.node]
  rfl

/-- It is the only node. -/
theorem EmptyLeaf.nodes {r : Addr} (hE : EmptyLeaf h r) (a : Addr) :
    h.nodes a ≠ none ↔ a = r := by
  obtain ⟨own, F, c, hR, hwf, hc, -, hb⟩ := hE.tree
  constructor
  · intro hnode
    cases hFa : F a with
    | none => exact absurd (hR.free a hFa) hnode
    | some m => exact hwf.only_root hc (hwf.holds hc hb).1 hFa
  · rintro rfl
    rw [hE.node]
    exact Option.some_ne_none _

/-- **Deleting ends, and frees the tree.**  After any run `delete_B_plus_tree` comes to an end,
and the only node that it can leave is a root without a key. -/
theorem deleteBPlusTree_runCalls (s : Start) (calls : List Call) (hfit : ∀ c ∈ calls, c.Fits) :
    ∃ root h, (s.root >>= runCalls calls) Heap.empty = some (root, h) ∧ ∃ n h',
      (∀ fuel, n < fuel → deleteBPlusTree fuel root h = some ((), h')) ∧
        ∀ a, h'.nodes a ≠ none ↔ root = some a ∧ bPlusTreeEmpty h root = some true := by
  obtain ⟨root₁, h₁, hstart, hS₁⟩ := Standing.start s
  obtain ⟨root, h, hrun, hS⟩ := hS₁.runCalls hfit
  refine ⟨root, h, by rw [CM.bind_run_of hstart, hrun], ?_⟩
  rcases hS with ⟨content, hT⟩ | ⟨r, rfl, hE⟩
  · obtain ⟨n, h', hdelete, hnone⟩ := hT.deleted
    refine ⟨n, h', hdelete, fun a => iff_of_false (not_not.mpr (hnone a)) ?_⟩
    rintro ⟨rfl, hempty⟩
    cases hempty.symm.trans hT.empty
  · refine ⟨0, h, fun fuel hfuel => ?_, fun a => ?_⟩
    · obtain ⟨fuel, rfl⟩ : ∃ f, fuel = f + 1 := ⟨fuel - 1, by omega⟩
      exact hE.deleted fuel
    · have hempty : bPlusTreeEmpty h (some r) = some true := by
        simp only [bPlusTreeEmpty, Option.bind_eq_bind, Option.bind_some, hE.node]
        rfl
      rw [hE.nodes, and_iff_left hempty, Option.some.injEq, eq_comm]

/-- A name is put into the empty leaf, and the tree is deleted. -/
theorem deleteBPlusTree_runCalls_one : ∃ root h h' fuel,
    (Start.initial.root >>= runCalls [.insert 1 nameA 7]) Heap.empty = some (root, h) ∧
      deleteBPlusTree fuel root h = some ((), h') ∧ NoNodes h' := by
  obtain ⟨root, h, hrun, n, h', hdelete, hnodes⟩ :=
    deleteBPlusTree_runCalls .initial [.insert 1 nameA 7] (by decide)
  have hempty : ((Start.initial.root >>= runCalls [.insert 1 nameA 7]) Heap.empty).bind
      (fun r => bPlusTreeEmpty r.2 r.1) = some false := by decide
  rw [hrun, Option.bind_some] at hempty
  refine ⟨root, h, h', n + 1, hrun, hdelete _ (Nat.lt_succ_self n), fun a => ?_⟩
  by_contra hnode
  obtain ⟨-, hnot⟩ := (hnodes a).mp hnode
  cases hempty.symm.trans hnot

end Nbfs.BplusTree
