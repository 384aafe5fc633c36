import Nbfs.BplusTree.Delete

set_option autoImplicit false

/-!
# The tree as a directory

Over any run of insertions and removals the tree is a map from names to files:
a name has the file of its earliest insertion since it was last removed.
-/

namespace Nbfs.BplusTree

open Nbfs.Lib Nbfs.Lib.Forest

/-! ## Runs -/

/-- A call of `B_plus_tree_insert`, with what its local variable `cond` holds at
the start, or of `B_plus_tree_remove`. -/
inductive Call where
  | insert (garbage : Int) (key : CString) (file : FileRef)
  | remove (key : CString)

namespace Call

/-- The key a call is about. -/
def key : Call → CString
  | insert _ key _ => key
  | remove key => key

/-- The key fits a key buffer with its terminating NUL. -/
def Fits (c : Call) : Prop := c.key.strlen < maxKeyLen

instance (c : Call) : Decidable c.Fits := inferInstanceAs (Decidable (_ < _))

/-- Make the call; the result is the new root. -/
def run : Call → Ptr → CM Ptr
  | insert garbage key file, root => bPlusTreeInsert garbage root key file
  | remove key, root => bPlusTreeRemove root key

/-- What the call does to the names. -/
def apply (content : CString → Option FileRef) : Call → CString → Option FileRef
  | insert _ key file => insertName content key file
  | remove key => removeName content key

/-- A removal of `q`. -/
def removes (q : CString) : Call → Bool
  | insert _ _ _ => false
  | remove key => decide (key = q)

/-- The file of an insertion of `q`. -/
def inserted (q : CString) : Call → Option FileRef
  | insert _ key file => if key = q then some file else none
  | remove _ => none

end Call

/-- Make the calls one after the other, each on the root the one before returned. -/
def runCalls : List Call → Ptr → CM Ptr
  | [], root => pure root
  | c :: calls, root => do
      let root ← c.run root
      runCalls calls root

/-- The calls after the last removal of `q`. -/
def sinceRemoval (q : CString) (calls : List Call) : List Call :=
  (calls.reverse.takeWhile fun c => !c.removes q).reverse

/-- The file of the earliest insertion of `q` since the last removal of `q`. -/
def expected (calls : List Call) (q : CString) : Option FileRef :=
  (sinceRemoval q calls).findSome? (Call.inserted q)

/-- `B_plus_tree_find` and the file of the record it returns; `some none` is NULL. -/
def findFile (h : Heap) (root : Ptr) (key : CString) : Option (Option FileRef) := do
  match ← bPlusTreeFind h root key with
  | none => some none
  | some r =>
      let rec ← h.recs r
      some (some rec.file)

/-! ## The names after a run -/

section Names

variable {content : CString → Option FileRef} {calls : List Call} {c : Call} {q : CString}

theorem sinceRemoval_append_of_removes (h : c.removes q = true) :
    sinceRemoval q (calls ++ [c]) = [] := by
  simp [sinceRemoval, h]

theorem sinceRemoval_append (h : c.removes q = false) :
    sinceRemoval q (calls ++ [c]) = sinceRemoval q calls ++ [c] := by
  simp [sinceRemoval, h]

theorem insertName_of_ne {key : CString} (file : FileRef) (h : q ≠ key) :
    insertName content key file q = content q := by
  cases hk : content key with
  | none =>
      rw [insertName_of_none file hk]
      exact Function.update_of_ne h ..
  | some f => rw [insertName_of_some file hk]

theorem insertName_self {key : CString} (file : FileRef) :
    insertName content key file key = some ((content key).getD file) := by
  cases hk : content key with
  | none => rw [insertName_of_none file hk, Function.update_self, Option.getD_none]
  | some f => rw [insertName_of_some file hk, hk, Option.getD_some]

/-- One call more is applied to the names. -/
theorem expected_append (calls : List Call) (c : Call) (q : CString) :
    expected (calls ++ [c]) q = c.apply (expected calls) q := by
  cases c with
  | insert garbage key file =>
      rw [expected, sinceRemoval_append rfl, List.findSome?_append]
      by_cases hq : q = key
      · subst hq
        rw [Call.apply, insertName_self, expected]
        cases (sinceRemoval q calls).findSome? (Call.inserted q) with
        | none => simp [Call.inserted]
        | some f => simp
      · rw [Call.apply, insertName_of_ne file hq, expected]
        simp [Call.inserted, Ne.symm hq]
  | remove key =>
      by_cases hq : q = key
      · subst hq
        rw [expected, sinceRemoval_append_of_removes (by simp [Call.removes]), Call.apply,
          removeName, Function.update_self]
        rfl
      · have hkeep : Call.removes q (.remove key) = false := by simp [Call.removes, Ne.symm hq]
        rw [expected, sinceRemoval_append hkeep, List.findSome?_append, Call.apply, removeName,
          Function.update_of_ne hq, expected]
        simp [Call.inserted]

/-- A call about another key, an insertion of a name that is there and a removal of
one that is not leave a name alone. -/
theorem Call.apply_same (h : q ≠ c.key ∨ (∃ g k f, c = .insert g k f ∧ content k ≠ none) ∨
    ∃ k, c = .remove k ∧ content k = none) : c.apply content q = content q := by
  cases c with
  | insert garbage key file =>
      by_cases hq : q = key
      · subst hq
        obtain ⟨f, hf⟩ : ∃ f, content q = some f := by
          rcases h with hne | ⟨g, k, f, heq, hk⟩ | ⟨k, heq, -⟩
          · exact absurd rfl hne
          · cases heq
            exact Option.ne_none_iff_exists'.mp hk
          · cases heq
        rw [Call.apply, insertName_of_some file hf]
      · exact insertName_of_ne file hq
  | remove key =>
      by_cases hq : q = key
      · subst hq
        rcases h with hne | ⟨g, k, f, heq, -⟩ | ⟨k, heq, hk⟩
        · exact absurd rfl hne
        · cases heq
        · cases heq
          rw [Call.apply, removeName, Function.update_self, hk]
      · exact Function.update_of_ne hq ..

end Names

/-! ## The tree after a run -/

variable {h : Heap} {root : Ptr} {content : CString → Option FileRef}

/-- One call keeps the heap a tree and does to its names what it should. -/
theorem Call.run_spec {c : Call} (hfit : c.Fits) (hT : HoldsTree h root content) :
    ∃ root' h', c.run root h = some (root', h') ∧ HoldsTree h' root' (c.apply content) := by
  cases c with
  | insert garbage key file =>
      obtain ⟨root', h', hrun, htree, -⟩ := bPlusTreeInsert_spec hT garbage hfit file
      exact ⟨root', h', hrun, htree⟩
  | remove key =>
      obtain ⟨root', h', hrun, htree, -⟩ := bPlusTreeRemove_spec hT key
      exact ⟨root', h', hrun, htree⟩

theorem runCalls_append_run {calls : List Call} {c : Call} {root root₁ root₂ : Ptr}
    {h h₁ h₂ : Heap} (hrun : runCalls calls root h = some (root₁, h₁))
    (hc : c.run root₁ h₁ = some (root₂, h₂)) :
    runCalls (calls ++ [c]) root h = some (root₂, h₂) := by
  induction calls generalizing root h with
  | nil =>
      cases hrun
      simp only [List.nil_append, runCalls, CM.bind_run, hc, CM.andThen_some, CM.pure_run]
  | cons c' calls ih =>
      obtain ⟨⟨root', h'⟩, hc', hrest⟩ := Option.bind_eq_some_iff.mp hrun
      rw [List.cons_append, runCalls, CM.bind_run, hc', CM.andThen_some]
      exact ih hrest

theorem rep_empty : Rep ⟨id, id⟩ Heap.empty fun _ => none where
  cell := by simp
  free _ _ := rfl
  fresh _ _ := ⟨rfl, rfl, rfl⟩
  short := by simp [Heap.empty]

theorem holdsTree_empty : HoldsTree Heap.empty none fun _ => none :=
  ⟨⟨_, rep_empty⟩, rfl⟩

/-- Every run from the empty tree ends in a tree with the expected names. -/
theorem runCalls_spec (calls : List Call) (hfit : ∀ c ∈ calls, c.Fits) :
    ∃ root h, runCalls calls none Heap.empty = some (root, h) ∧
      HoldsTree h root (expected calls) := by
  induction calls using List.reverseRecOn with
  | nil => exact ⟨none, Heap.empty, rfl, holdsTree_empty⟩
  | append_singleton calls c ih =>
      obtain ⟨root, h, hrun, htree⟩ := ih fun c hc => hfit c (List.mem_append_left _ hc)
      obtain ⟨root', h', hrun', htree'⟩ := Call.run_spec (hfit c (by simp)) htree
      refine ⟨root', h', runCalls_append_run hrun hrun', ?_⟩
      have hnames : expected (calls ++ [c]) = c.apply (expected calls) :=
        funext fun q => expected_append calls c q
      rwa [hnames]

/-- `B_plus_tree_find` on a tree. -/
theorem findFile_spec (hT : HoldsTree h root content) (q : CString) :
    findFile h root q = some (content q) := by
  cases root with
  | none =>
      obtain ⟨-, rfl⟩ := hT
      rfl
  | some r =>
      obtain ⟨own, F, hR, hwf, hlevel⟩ := hT
      obtain ⟨p, hfind, hans⟩ := bPlusTreeFind_spec hR hwf hlevel q
      cases hq : content q with
      | none =>
          rw [hq] at hans
          obtain rfl : p = none := hans
          simp [findFile, hfind]
      | some f =>
          rw [hq] at hans
          obtain ⟨a, rfl, hrec⟩ := hans
          simp [findFile, hfind, hrec]

/-- **The tree is a map.**  After any run from the empty tree a search finds the file
of the earliest insertion since the last removal; one more call changes no other
name, and none at all where it inserts a name that is there or removes one that is
not. -/
theorem findFile_runCalls (calls : List Call) (hfit : ∀ c ∈ calls, c.Fits) :
    ∃ root h, runCalls calls none Heap.empty = some (root, h) ∧
      (∀ q, findFile h root q = some (expected calls q)) ∧
      ∀ c : Call, c.Fits → ∃ root' h', c.run root h = some (root', h') ∧
        ∀ q, (q ≠ c.key ∨ (∃ g k f, c = .insert g k f ∧ findFile h root k ≠ some none) ∨
          ∃ k, c = .remove k ∧ findFile h root k = some none) →
            findFile h' root' q = findFile h root q := by
  obtain ⟨root, h, hrun, htree⟩ := runCalls_spec calls hfit
  refine ⟨root, h, hrun, findFile_spec htree, fun c hc => ?_⟩
  obtain ⟨root', h', hrun', htree'⟩ := Call.run_spec hc htree
  refine ⟨root', h', hrun', fun q hq => ?_⟩
  simp only [findFile_spec htree, ne_eq, Option.some.injEq] at hq
  rw [findFile_spec htree, findFile_spec htree', Call.apply_same hq]

/-- A name that is inserted twice, removed and inserted again. -/
theorem findFile_runCalls_again :
    let name : CString := ⟨[97], by decide⟩
    ∃ root h, runCalls [.insert 0 name 1, .insert 0 name 2, .remove name, .insert 0 name 3] none
      Heap.empty = some (root, h) ∧ findFile h root name = some (some 3) := by
  intro name
  obtain ⟨root, h, hrun, hfind, -⟩ := findFile_runCalls
    [.insert 0 name 1, .insert 0 name 2, .remove name, .insert 0 name 3] (by decide)
  refine ⟨root, h, hrun, (hfind name).trans ?_⟩
  simp [expected, sinceRemoval, Call.removes, Call.inserted]

end Nbfs.BplusTree
