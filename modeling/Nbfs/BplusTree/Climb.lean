import Nbfs.BplusTree.Directory

set_option autoImplicit false

/-!
# The calls on the way up (`include/spdk/Bplus_Tree.h`)

`insert_into_parent` and `insert_into_node_after_splitting` call each other level by level,
and so do `delete_entry` and `coalesce_nodes`.  Each of these calls is a tail call.  A climb
is one of them with its arguments; `Climb.Calls` says which one it goes on with, and in
which heap.
-/

namespace Nbfs.BplusTree

open Nbfs.Lib Nbfs.Lib.Slots

/-- A call of one of the four functions. -/
inductive Climb where
  /-- `insert_into_parent` -/
  | intoParent (root left right key : Addr)
  /-- `insert_into_node_after_splitting` -/
  | intoNode (root nd right : Addr) (index : Nat) (key : Addr)
  /-- `coalesce_nodes` -/
  | coalesce (root nd neighbor : Addr) (ndIndex : Nat)
  /-- `delete_entry` -/
  | delete (root nd : Addr) (index : Nat)

/-- `coalesce_nodes` up to its call of `delete_entry`, the neighbour put on the left. -/
def moveTogether (nd neighbor : Addr) (ndIndex : Nat) : CM Addr :=
  if ndIndex = 0 then moveIntoNeighbor neighbor nd 1 else moveIntoNeighbor nd neighbor ndIndex

namespace Climb

/-- Make the call. -/
def run (fuel : Nat) : Climb → CM Ptr
  | intoParent root left right key => some <$> insertIntoParent fuel root left right key
  | intoNode root nd right index key =>
      some <$> insertIntoNodeAfterSplitting fuel root nd right index key
  | coalesce root nd neighbor ndIndex => coalesceNodes fuel root nd neighbor ndIndex
  | delete root nd index => deleteEntry fuel root nd index

/-- The call that a call ends with, and the heap it is made in. -/
inductive Calls : Climb → Heap → Climb → Heap → Prop where
  /-- the parent has no room for another key -/
  | full {root left right key p : Addr} {index : Nat} {h : Heap} {l np : Node}
      (hl : h.nodes left = some l) (hpar : l.parent = some p) (hnp : h.nodes p = some np)
      (hscan : scanFrom (fun i => (np.pointers[i]?).map fun q => decide (q ≠ some left))
        np.numKeys 0 = some index) (hfull : ¬ np.numKeys < maxKeyNum) :
      Calls (intoParent root left right key) h (intoNode root p right index key) h
  | halved {root nd right key newNd newKey : Addr} {index : Nat} {h h₁ : Heap}
      (hrun : halveNode nd right index key h = some ((newNd, newKey), h₁)) :
      Calls (intoNode root nd right index key) h (intoParent root nd newNd newKey) h₁
  | joined {root nd neighbor p : Addr} {ndIndex : Nat} {h h₁ : Heap}
      (hrun : moveTogether nd neighbor ndIndex h = some (p, h₁)) :
      Calls (coalesce root nd neighbor ndIndex) h
        (delete root p (if ndIndex = 0 then 1 else ndIndex)) h₁
  /-- the node is too small, and it fits its neighbour -/
  | short {root nd neighbor p : Addr} {index slot : Nat} {h h₁ : Heap} {n np b : Node}
      (hrem : removeEntry nd index h = some ((), h₁)) (hne : nd ≠ root)
      (hn : h₁.nodes nd = some n)
      (hfew : ¬ n.numKeys ≥ if n.isLeaf then (maxKeyNum + 1) / 2 else maxKeyNum / 2)
      (hslot : getNodeIndex nd h₁ = some (slot, h₁)) (hpar : n.parent = some p)
      (hnp : h₁.nodes p = some np)
      (hget : (if slot = 0 then np.pointers[1]? else np.pointers[slot - 1]?) = some (some neighbor))
      (hb : h₁.nodes neighbor = some b)
      (hsum : b.numKeys + n.numKeys ≤ if n.isLeaf then maxKeyNum else maxKeyNum - 1) :
      Calls (delete root nd index) h (coalesce root nd neighbor slot) h₁

variable {x y : Climb} {h h₁ : Heap}

theorem map_bind_run {α β γ : Type} (f : β → γ) (z : CM α) (g : α → CM β) {a : α}
    (hz : z h = some (a, h₁)) : (f <$> (z >>= g)) h = (f <$> g a) h₁ := by
  rw [map_eq_pure_bind, map_eq_pure_bind, bind_assoc, CM.bind_run_of hz]

theorem coalesceNodes_eq (fuel : Nat) (root nd neighbor : Addr) (ndIndex : Nat) :
    coalesceNodes (fuel + 1) root nd neighbor ndIndex = moveTogether nd neighbor ndIndex >>=
      fun p => deleteEntry fuel root p (if ndIndex = 0 then 1 else ndIndex) := by
  unfold coalesceNodes moveTogether
  split_ifs <;> rfl

/-- A call does what the call that it ends with does. -/
theorem Calls.run_eq (hcalls : x.Calls h y h₁) (fuel : Nat) :
    x.run (fuel + 1) h = y.run fuel h₁ := by
  cases hcalls with
  | full hl hpar hnp hscan hfull =>
      simp only [run, insertIntoParent, map_eq_pure_bind, CM.bind_run, readNode,
        CM.query_run, hl, Option.map_some, CM.andThen_some, hpar, hnp, CM.liftM_run, hscan,
        if_neg hfull]
  | halved hrun =>
      simp only [run, insertIntoNodeAfterSplitting_eq]
      exact map_bind_run _ _ _ hrun
  | joined hrun =>
      simp only [run, coalesceNodes_eq]
      exact CM.bind_run_of hrun
  | short hrem hne hn hfew hslot hpar hnp hget hb hsum =>
      rw [minKeys_eq] at hfew
      simp only [run]
      rw [deleteEntry_short hrem hne hn (Nat.not_le.mp hfew) hslot hpar hnp hget hb]
      exact if_pos hsum

theorem getNodeIndex_heap {nd : Addr} {slot : Nat} (hslot : getNodeIndex nd h = some (slot, h₁)) :
    h₁ = h := by
  obtain ⟨⟨n, h₂⟩, hn, hslot⟩ := Option.bind_eq_some_iff.mp hslot
  obtain ⟨n', -, hn⟩ := Option.map_eq_some_iff.mp hn
  obtain ⟨⟨p, h₃⟩, hpar, hslot⟩ := Option.bind_eq_some_iff.mp hslot
  obtain ⟨p', -, hpar⟩ := Option.map_eq_some_iff.mp hpar
  obtain ⟨⟨np, h₄⟩, hnp, hslot⟩ := Option.bind_eq_some_iff.mp hslot
  obtain ⟨np', -, hnp⟩ := Option.map_eq_some_iff.mp hnp
  obtain ⟨i, -, hscan⟩ := Option.map_eq_some_iff.mp hslot
  cases hn
  cases hpar
  cases hnp
  cases hscan
  rfl

/-- Where the neighbour is too large, what would be done with a small one does not matter. -/
theorem neighbor_run {slot : Option Ptr} {few cap : Nat} {f f' g : Addr → CM Ptr}
    (hshort : ∀ a b, slot = some (some a) → h.nodes a = some b → b.numKeys + few ≤ cap → False) :
    ((liftM slot : CM Ptr) >>= fun q => deref q >>= fun a => readNode a >>= fun b =>
      if b.numKeys + few ≤ cap then f a else g a) h =
    ((liftM slot : CM Ptr) >>= fun q => deref q >>= fun a => readNode a >>= fun b =>
      if b.numKeys + few ≤ cap then f' a else g a) h := by
  simp only [CM.bind_run, CM.liftM_run]
  cases slot with
  | none => rfl
  | some q =>
      cases q with
      | none => rfl
      | some a =>
          simp only [Option.map_some, CM.andThen_some, CM.bind_run, deref_some, readNode,
            CM.query_run]
          cases hb : h.nodes a with
          | none => rfl
          | some b =>
              simp only [Option.map_some, CM.andThen_some, if_neg fun hsum =>
                hshort a b rfl hb hsum]

theorem intoParent_last {root left right key : Addr}
    (hlast : ∀ y h₁, ¬ (intoParent root left right key).Calls h y h₁) (fuel fuel' : Nat) :
    (intoParent root left right key).run (fuel + 1) h =
      (intoParent root left right key).run (fuel' + 1) h := by
  simp only [run, insertIntoParent, map_eq_pure_bind, CM.bind_run, readNode,
    CM.query_run]
  cases hl : h.nodes left with
  | none => rfl
  | some l =>
      simp only [Option.map_some, CM.andThen_some]
      cases hpar : l.parent with
      | none => rfl
      | some p =>
          simp only [CM.bind_run, CM.query_run]
          cases hnp : h.nodes p with
          | none => rfl
          | some np =>
              simp only [Option.map_some, CM.andThen_some]
              cases hscan : scanFrom (fun i => (np.pointers[i]?).map fun q =>
                  decide (q ≠ some left)) np.numKeys 0 with
              | none => rfl
              | some index =>
                  by_cases hfull : np.numKeys < maxKeyNum
                  · simp only [if_pos hfull]
                  · exact absurd (.full hl hpar hnp hscan hfull) (hlast _ _)

theorem delete_last {root nd : Addr} {index : Nat}
    (hlast : ∀ y h₁, ¬ (delete root nd index).Calls h y h₁) (fuel fuel' : Nat) :
    (delete root nd index).run (fuel + 1) h = (delete root nd index).run (fuel' + 1) h := by
  simp only [run, deleteEntry, CM.bind_run, readNode]
  cases hrem : removeEntry nd index h with
  | none => simp only [CM.andThen_none]
  | some r =>
      obtain ⟨⟨⟩, h₁⟩ := r
      simp only [CM.andThen_some]
      by_cases hne : nd = root
      · simp only [if_pos hne]
      · simp only [if_neg hne, CM.bind_run, CM.query_run]
        cases hn : h₁.nodes nd with
        | none => simp only [Option.map_none, CM.andThen_none]
        | some n =>
            simp only [Option.map_some, CM.andThen_some]
            by_cases hmany : n.numKeys ≥ if n.isLeaf then (maxKeyNum + 1) / 2 else maxKeyNum / 2
            · simp only [if_pos hmany]
            · simp only [if_neg hmany, CM.bind_run]
              cases hslot : getNodeIndex nd h₁ with
              | none => simp only [CM.andThen_none]
              | some r =>
                  obtain ⟨slot, h₂⟩ := r
                  obtain rfl := getNodeIndex_heap hslot
                  simp only [CM.andThen_some, CM.bind_run]
                  cases hpar : n.parent with
                  | none => rfl
                  | some p =>
                      simp only [deref_some, CM.andThen_some, CM.bind_run, CM.query_run]
                      cases hnp : h₂.nodes p with
                      | none => simp only [Option.map_none, CM.andThen_none]
                      | some np =>
                          simp only [Option.map_some, CM.andThen_some]
                          have hshort : ∀ (a : Addr) (b : Node), (if slot = 0 then
                              np.pointers[1]? else np.pointers[slot - 1]?) = some (some a) →
                              h₂.nodes a = some b → (b.numKeys + n.numKeys ≤
                                if n.isLeaf then maxKeyNum else maxKeyNum - 1) → False :=
                            fun a b hget hb hsum => hlast _ _
                              (.short hrem hne hn hmany hslot hpar hnp hget hb hsum)
                          by_cases hzero : slot = 0
                          · simp only [if_pos hzero] at hshort ⊢
                            exact neighbor_run hshort
                          · simp only [if_neg hzero] at hshort ⊢
                            exact neighbor_run hshort

/-- A call that ends with none of them does not depend on the fuel: there is no other
recursion. -/
theorem run_of_last (hlast : ∀ y h₁, ¬ x.Calls h y h₁) (fuel fuel' : Nat) :
    x.run (fuel + 1) h = x.run (fuel' + 1) h := by
  cases x with
  | intoParent root left right key => exact intoParent_last hlast fuel fuel'
  | intoNode root nd right index key =>
      simp only [run, insertIntoNodeAfterSplitting_eq, map_eq_pure_bind, CM.bind_run]
      cases hrun : halveNode nd right index key h with
      | none => rfl
      | some r => exact absurd (.halved hrun) (hlast _ _)
  | coalesce root nd neighbor ndIndex =>
      simp only [run, coalesceNodes_eq, CM.bind_run]
      cases hrun : moveTogether nd neighbor ndIndex h with
      | none => rfl
      | some r => exact absurd (.joined hrun) (hlast _ _)
  | delete root nd index => exact delete_last hlast fuel fuel'

theorem run_zero (x : Climb) (h : Heap) : x.run 0 h = none := by
  cases x with
  | intoParent root left right key =>
      simp only [run, insertIntoParent]
      rfl
  | intoNode root nd right index key =>
      simp only [run, insertIntoNodeAfterSplitting]
      rfl
  | coalesce root nd neighbor ndIndex =>
      simp only [run, coalesceNodes]
      rfl
  | delete root nd index =>
      simp only [run, deleteEntry]
      rfl

end Climb

/-! ## The climb of an insertion or a removal -/

namespace Call

/-- The first call on the way up, and the heap it is made in. -/
inductive Starts : Call → Ptr → Heap → Climb → Heap → Prop where
  /-- the leaf has no room for another key -/
  | insert {garbage cond : Int} {key : CString} {file : FileRef} {h h₀ h₁ : Heap} {n : Node}
      {r rec leaf newLeaf newKey : Addr} {index : Nat}
      (hrec : newRecord file h = some (rec, h₀))
      (hfind : findLeaf h₀ (some r) key = some (some leaf)) (hn : h₀.nodes leaf = some n)
      (hplace : findPlace h₀ n key n.numKeys 0 garbage = some (index, cond)) (hcond : cond ≠ 0)
      (hfull : ¬ n.numKeys < maxKeyNum)
      (hrun : halveLeaf leaf index key rec h₀ = some ((newLeaf, newKey), h₁)) :
      Starts (insert garbage key file) (some r) h (.intoParent r leaf newLeaf newKey) h₁
  | remove {key : CString} {h : Heap} {n : Node} {r leaf : Addr} {i : Nat}
      (hfind : findLeaf h (some r) key = some (some leaf)) (hn : h.nodes leaf = some n)
      (hindex : findIndex h n key = some i) (hfound : i ≠ n.numKeys) :
      Starts (remove key) (some r) h (.delete r leaf i) h

/-- The calls on the way up; the number counts those before. -/
inductive Makes (c : Call) (root : Ptr) (h : Heap) : Nat → Climb → Heap → Prop where
  | first {x : Climb} {h₁ : Heap} : c.Starts root h x h₁ → Makes c root h 0 x h₁
  | next {n : Nat} {x y : Climb} {h₁ h₂ : Heap} : Makes c root h n x h₁ → x.Calls h₁ y h₂ →
      Makes c root h (n + 1) y h₂

variable {c : Call} {root : Ptr} {h h₁ : Heap} {x : Climb} {n : Nat}

/-- The call does what its first call on the way up does. -/
theorem Starts.run_eq (hstarts : c.Starts root h x h₁) :
    ∃ fuel ≤ climbFuel h + 2, c.run root h = x.run fuel h₁ := by
  cases hstarts with
  | @insert garbage cond key file h h₀ h₁ n r rec leaf newLeaf newKey index hrec hfind hn hplace
      hcond hfull hrun =>
      have hbrk : h₀.brk = h.brk + 1 := by
        cases hrec
        rfl
      refine ⟨climbFuel h₀, by rw [climbFuel, climbFuel, hbrk]; omega, ?_⟩
      simp only [Call.run, Climb.run, bPlusTreeInsert, CM.bind_run, hrec, CM.andThen_some,
        CM.query_run, hfind, Option.map_some, readNode, hn, hplace, if_neg hcond, if_neg hfull,
        deref_some, insertIntoLeafAfterSplitting_eq, hrun, map_eq_pure_bind]
  | remove hfind hn hindex hfound =>
      refine ⟨climbFuel h, Nat.le_add_right _ 2, ?_⟩
      simp only [Call.run, Climb.run, bPlusTreeRemove, CM.bind_run, CM.andThen_some, CM.query_run,
        hfind, Option.map_some, readNode, hn, hindex, if_neg hfound, deref_some]

/-- A call that returns goes up a bounded number of times. -/
theorem Makes.depth (hmakes : c.Makes root h n x h₁) {result : Ptr × Heap}
    (hrun : c.run root h = some result) :
    ∃ fuel, n + fuel ≤ climbFuel h + 1 ∧ x.run (fuel + 1) h₁ = some result := by
  induction hmakes with
  | first hstarts =>
      obtain ⟨fuel, hle, heq⟩ := hstarts.run_eq
      rw [hrun] at heq
      cases fuel with
      | zero => cases heq.trans (Climb.run_zero _ _)
      | succ fuel => exact ⟨fuel, by omega, heq.symm⟩
  | next _ hcalls ih =>
      obtain ⟨fuel, hle, heq⟩ := ih
      rw [hcalls.run_eq] at heq
      cases fuel with
      | zero => cases heq.symm.trans (Climb.run_zero _ _)
      | succ fuel => exact ⟨fuel, by omega, heq⟩

end Call

end Nbfs.BplusTree
