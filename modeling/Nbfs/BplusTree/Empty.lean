import Nbfs.BplusTree.Initial

set_option autoImplicit false

/-!
# The emptiness test

`B_plus_tree_empty` counts the keys of the root.  A root always has a key, but for the
empty leaf that `B_plus_tree_initial` makes; once the last name of a tree is removed there
is no root, and the test reads through NULL.
-/

namespace Nbfs.BplusTree

open Nbfs.Lib Nbfs.Lib.Forest

/-- The test is defined, and true if and only if no key is found. -/
def TellsEmpty (h : Heap) (root : Ptr) : Prop :=
  ∃ b, bPlusTreeEmpty h root = some b ∧ (b = true ↔ ∀ q, bPlusTreeFind h root q = some none)

/-- Where a run starts: with NULL, or with what `B_plus_tree_initial()` returns. -/
inductive Start where
  | null
  | initial

def Start.root : Start → CM Ptr
  | null => pure none
  | initial => bPlusTreeInitial

/-- The tree after a run, or the empty leaf that nothing was put in yet. -/
def Standing (h : Heap) (root : Ptr) : Prop :=
  (∃ content, HoldsTree h root content) ∨ ∃ r, root = some r ∧ EmptyLeaf h r

variable {h : Heap} {root : Ptr} {content : CString → Option FileRef}

/-- A tree with a root has a name. -/
theorem HoldsTree.exists_name {r : Addr} (hT : HoldsTree h (some r) content) :
    ∃ q, content q ≠ none := by
  obtain ⟨own, F, hR, hwf, -⟩ := hT
  obtain ⟨c, hc, -⟩ := hwf.root_cell
  obtain ⟨leaf, cl, es, next, -, hleaf, hb, -⟩ :=
    leftmostLeaf_spec hR hwf (c.level + 1) hc (Nat.lt_succ_self _)
  have hmin := (hwf.sound leaf cl hleaf).min
  rw [minOf_none, Cell.keys_leaf hb, List.length_map] at hmin
  have hpos : 0 < es.length := by
    split at hmin
    · exact hmin
    · exact lt_of_lt_of_le (by decide) hmin
  obtain ⟨⟨q, file⟩, es', rfl⟩ := List.exists_cons_of_length_pos hpos
  have hes := (hwf.holds hleaf hb).2.1
  have hname : content q = some file := by
    rw [hes.lookup q (hes.range q List.mem_cons_self), List.lookup_cons_self]
  exact ⟨q, by rw [hname]; exact Option.some_ne_none _⟩

/-- There is no root exactly when there is no name. -/
theorem HoldsTree.root_eq_none_iff (hT : HoldsTree h root content) :
    root = none ↔ ∀ q, content q = none := by
  cases root with
  | none => exact iff_of_true rfl fun q => congrFun hT.2 q
  | some r =>
      obtain ⟨q, hq⟩ := hT.exists_name
      exact iff_of_false (Option.some_ne_none r) fun hnone => hq (hnone q)

/-- The test on a tree with a root says that it is not empty. -/
theorem HoldsTree.empty {r : Addr} (hT : HoldsTree h (some r) content) :
    bPlusTreeEmpty h (some r) = some false := by
  obtain ⟨own, F, hR, hwf, -⟩ := hT
  obtain ⟨c, hc, -⟩ := hwf.root_cell
  obtain ⟨n, hn, hok⟩ := hR.cell r c hc
  have hmin := (hwf.sound r c hc).min
  rw [minOf_none, if_pos rfl, ← hok.numKeys_eq] at hmin
  simp only [bPlusTreeEmpty, Option.bind_eq_bind, Option.bind_some, hn]
  exact congrArg some (decide_eq_false (Nat.ne_of_gt hmin))

/-- A search finds nothing exactly when the name has no file. -/
theorem HoldsTree.find_eq_none_iff (hT : HoldsTree h root content) (q : CString) :
    bPlusTreeFind h root q = some none ↔ content q = none := by
  have hfile := findFile_spec hT q
  unfold findFile at hfile
  cases hfind : bPlusTreeFind h root q with
  | none =>
      rw [hfind] at hfile
      cases hfile
  | some p =>
      rw [hfind, Option.bind_eq_bind, Option.bind_some] at hfile
      cases p with
      | none => exact iff_of_true rfl (Option.some.inj hfile).symm
      | some r =>
          obtain ⟨record, -, hrec⟩ := Option.bind_eq_some_iff.mp hfile
          rw [← Option.some.inj hrec]
          exact iff_of_false (by simp) (Option.some_ne_none _)

/-- The test tells of every root that there is. -/
theorem Standing.tells_iff (hS : Standing h root) : TellsEmpty h root ↔ root ≠ none := by
  cases root with
  | none => exact iff_of_false (fun ⟨b, hb, _⟩ => nomatch hb) fun hne => hne rfl
  | some r =>
      refine iff_of_true ?_ (Option.some_ne_none r)
      rcases hS with ⟨content, hT⟩ | ⟨r', hr', hE⟩
      · obtain ⟨q, hq⟩ := hT.exists_name
        refine ⟨false, hT.empty, iff_of_false (by decide) fun hnone => hq ?_⟩
        exact (hT.find_eq_none_iff q).mp (hnone q)
      · obtain rfl := Option.some.inj hr'
        have hempty : bPlusTreeEmpty h (some r) = some true := by
          simp only [bPlusTreeEmpty, Option.bind_eq_bind, Option.bind_some, hE.node]
          rfl
        exact ⟨true, hempty, iff_of_true rfl hE.find⟩

/-- A call keeps the tree, or the empty leaf, standing. -/
theorem Standing.step {c : Call} (hfit : c.Fits) (hS : Standing h root) :
    ∃ root' h', c.run root h = some (root', h') ∧ Standing h' root' := by
  rcases hS with ⟨content, hT⟩ | ⟨r, rfl, hE⟩
  · obtain ⟨root', h', hrun, hT'⟩ := Call.run_spec hfit hT
    exact ⟨root', h', hrun, Or.inl ⟨_, hT'⟩⟩
  cases c with
  | remove key => exact ⟨some r, h, hE.remove key, Or.inr ⟨r, rfl, hE⟩⟩
  | insert garbage key file =>
      by_cases hzero : garbage = 0
      · subst hzero
        obtain ⟨h', hrun, hE'⟩ := hE.insert_dropped key file
        exact ⟨some r, h', hrun, Or.inr ⟨r, rfl, hE'⟩⟩
      · obtain ⟨root', h', hrun, hT'⟩ := hE.insert hzero hfit file
        exact ⟨root', h', hrun, Or.inl ⟨_, hT'⟩⟩

/-- So does a run. -/
theorem Standing.runCalls {calls : List Call} : ∀ {h : Heap} {root : Ptr},
    (∀ c ∈ calls, c.Fits) → Standing h root →
      ∃ root' h', BplusTree.runCalls calls root h = some (root', h') ∧ Standing h' root' := by
  induction calls with
  | nil => exact fun {h root} _ hS => ⟨root, h, rfl, hS⟩
  | cons c calls ih =>
      intro h root hfit hS
      obtain ⟨root₁, h₁, hrun₁, hS₁⟩ := hS.step (hfit c List.mem_cons_self)
      obtain ⟨root', h', hrun', hS'⟩ := ih (fun d hd => hfit d (List.mem_cons_of_mem _ hd)) hS₁
      refine ⟨root', h', ?_, hS'⟩
      rw [BplusTree.runCalls, CM.bind_run_of hrun₁, hrun']

theorem Standing.start (s : Start) : ∃ root h, s.root Heap.empty = some (root, h) ∧
    Standing h root := by
  cases s with
  | null => exact ⟨none, Heap.empty, rfl, Or.inl ⟨_, holdsTree_empty⟩⟩
  | initial =>
      obtain ⟨h, r, hrun, hE⟩ := EmptyLeaf.initial
      exact ⟨some r, h, hrun, Or.inr ⟨r, rfl, hE⟩⟩

/-- **The emptiness test.**  After any run it tells whether the tree is empty, unless there
is no root left to look at. -/
theorem tellsEmpty_iff (s : Start) (calls : List Call) (hfit : ∀ c ∈ calls, c.Fits) :
    ∃ root h, (s.root >>= runCalls calls) Heap.empty = some (root, h) ∧
      (TellsEmpty h root ↔ root ≠ none) := by
  obtain ⟨root₁, h₁, hstart, hS₁⟩ := Standing.start s
  obtain ⟨root, h, hrun, hS⟩ := hS₁.runCalls hfit
  exact ⟨root, h, by rw [CM.bind_run_of hstart, hrun], hS.tells_iff⟩

/-- A name is put into the empty leaf and removed again. -/
def insertRemove : List Call := [.insert 1 nameA 7, .remove nameA]

/-- With the name still there the test is right. -/
theorem tellsEmpty_iff_one : ∃ root h,
    (Start.initial.root >>= runCalls [.insert 1 nameA 7]) Heap.empty = some (root, h) ∧
      TellsEmpty h root := by
  obtain ⟨root, h, hrun, hiff⟩ := tellsEmpty_iff .initial [.insert 1 nameA 7] (by decide)
  refine ⟨root, h, hrun, hiff.mpr fun hnone => ?_⟩
  have hroot : ((Start.initial.root >>= runCalls [.insert 1 nameA 7]) Heap.empty).map Prod.fst =
      some (some 0) := by decide
  rw [hrun, hnone] at hroot
  cases hroot

/-- That leaves no root. -/
theorem insertRemove_root : ∃ h, (Start.initial.root >>= runCalls insertRemove) Heap.empty =
    some (none, h) := by
  obtain ⟨h₁, r, hinitial, hE⟩ := EmptyLeaf.initial
  obtain ⟨root₂, h₂, hinsert, hT₂⟩ := hE.insert (by decide : (1 : Int) ≠ 0)
    (show nameA.strlen < maxKeyLen by decide) 7
  obtain ⟨root, h, hremove, hT, -⟩ := bPlusTreeRemove_spec hT₂ nameA
  have hnone : removeName (insertName (fun _ => none) nameA 7) nameA = fun _ => none := by
    rw [removeName, insertName_of_none 7 rfl, Function.update_idem]
    exact Function.update_eq_self nameA _
  obtain rfl : root = none := hT.root_eq_none_iff.mpr fun q => congrFun hnone q
  refine ⟨h, ?_⟩
  rw [Start.root, CM.bind_run_of hinitial, insertRemove, runCalls,
    CM.bind_run_of (show (Call.insert 1 nameA 7).run (some r) h₁ = _ from hinsert), runCalls,
    CM.bind_run_of (show (Call.remove nameA).run root₂ h₂ = _ from hremove)]
  rfl

/-- Once it is removed the test reads through NULL. -/
theorem tellsEmpty_removed : ¬ ∀ (s : Start) (calls : List Call), (∀ c ∈ calls, c.Fits) →
    ∃ root h, (s.root >>= runCalls calls) Heap.empty = some (root, h) ∧ TellsEmpty h root := by
  intro hall
  obtain ⟨root, h, hrun, b, hempty, -⟩ := hall .initial insertRemove (by decide)
  obtain ⟨h', hnone⟩ := insertRemove_root
  obtain ⟨rfl, -⟩ := Prod.mk.inj (Option.some.inj (hrun.symm.trans hnone))
  cases hempty

end Nbfs.BplusTree
