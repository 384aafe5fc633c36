import Nbfs.BplusTree.Iterate

set_option autoImplicit false

/-!
# The two empty trees

`fs_alloc` starts with an empty leaf, where the header also allows NULL.  Nothing
a caller can ask for tells the two apart, except that an insertion into the empty
leaf looks at `cond` without having compared anything.
-/

namespace Nbfs.BplusTree

open Nbfs.Lib Nbfs.Lib.Forest

/-! ## What a caller sees -/

/-- A call on the tree. -/
inductive Op where
  | change (c : Call)
  | find (key : CString)
  | getFirst
  | getNext (current : FileRef)

/-- The file of a record that was returned; `some none` is NULL. -/
def recordFile (h : Heap) (p : Ptr) : Option (Option FileRef) :=
  match p with
  | none => some none
  | some r => (h.recs r).map fun rec => some rec.file

/-- What a search or a step of an iteration returns. -/
def Op.answer (h : Heap) (root : Ptr) : Op → Option (Option FileRef)
  | change _ => some none
  | find key => findFile h root key
  | getFirst => do recordFile h (← bPlusTreeGetFirst h root)
  | getNext current => do recordFile h (← bPlusTreeGetNext h root current)

/-- The root after a call. -/
def Op.step : Op → Ptr → CM Ptr
  | change c, root => c.run root
  | find _, root => pure root
  | getFirst, root => pure root
  | getNext _, root => pure root

/-- What a call does to the names. -/
def Op.apply (content : CString → Option FileRef) : Op → CString → Option FileRef
  | change c => c.apply content
  | find _ => content
  | getFirst => content
  | getNext _ => content

/-- Make the calls one after the other; the result has an answer for each. -/
def answers : List Op → Ptr → CM (List (Option FileRef))
  | [], _ => pure []
  | op :: ops, root => do
      let answer ← CM.query fun h => op.answer h root
      let root ← op.step root
      let rest ← answers ops root
      pure (answer :: rest)

/-- The answers of a run from NULL, or from `B_plus_tree_initial()`. -/
def answersFrom (start : CM Ptr) (ops : List Op) : Option (List (Option FileRef)) :=
  ((start >>= answers ops) Heap.empty).map Prod.fst

/-- The insertions and removals of a run. -/
def changes (ops : List Op) : List Call :=
  ops.filterMap fun
    | .change c => some c
    | _ => none

/-- The local variable `cond` of the first insertion does not start as zero. -/
def FirstInsertLands (calls : List Call) : Prop :=
  ∀ key file, (calls.find? fun | .insert _ _ _ => true | .remove _ => false) ≠
    some (.insert 0 key file)

/-! ## The answers of a tree -/

/-- The search of `B_plus_tree_get_next` over a list of files. -/
def nextFile (current : FileRef) : List FileRef → Bool → Option FileRef
  | [], _ => none
  | file :: _, true => some file
  | file :: files, false => nextFile current files (decide (file = current))

/-- What a call answers on the names `content`, whose entries are listed in order. -/
def Op.expected (content : CString → Option FileRef) (entries : List (CString × FileRef)) :
    Op → Option FileRef
  | change _ => none
  | find key => content key
  | getFirst => entries.head?.map Prod.snd
  | getNext current => nextFile current (entries.map Prod.snd) false

section answers

variable {h : Heap} {root : Ptr} {content : CString → Option FileRef}

theorem nextInList_file (current : FileRef) :
    ∀ (records : List (Addr × FileRef)) (find : Bool), (∀ r ∈ records, h.recs r.1 = some ⟨r.2⟩) →
      (match nextInList current records find with
        | .inl _ => some none
        | .inr r => recordFile h r) = some (nextFile current (records.map Prod.snd) find)
  | [], _, _ => rfl
  | r :: _, true, hrecs => by
      simp [nextInList, nextFile, recordFile, hrecs r List.mem_cons_self]
  | r :: records, false, hrecs =>
      nextInList_file current records _ fun r' hr' => hrecs r' (List.mem_cons_of_mem _ hr')

/-- A tree answers from its names and their order. -/
theorem HoldsTree.answer (hT : HoldsTree h root content) : ∃ entries : List (CString × FileRef),
    (entries.map Prod.fst).Pairwise (· < ·) ∧ (∀ q, content q = entries.lookup q) ∧
      ∀ op : Op, op.answer h root = some (op.expected content entries) := by
  obtain ⟨leaves, entries, records, hL⟩ := hT.listing
  refine ⟨entries, hL.sorted, hL.lookup, fun op => ?_⟩
  cases op with
  | change c => rfl
  | find key => exact findFile_spec hT key
  | getFirst =>
      have hfiles : entries.head?.map Prod.snd = records.head?.map Prod.snd := by
        rw [← List.head?_map, ← List.head?_map, hL.files]
      simp only [Op.answer, Op.expected, hL.getFirst, Option.bind_eq_bind, Option.bind_some, hfiles]
      cases hrecords : records with
      | nil => rfl
      | cons r rest =>
          have hrec := hL.chain.recs r (hrecords ▸ List.mem_cons_self)
          simp [recordFile, hrec]
  | getNext current =>
      have hfile := nextInList_file current records false hL.chain.recs
      rw [hL.files] at hfile
      rw [Op.expected, ← hfile]
      simp only [Op.answer, hL.getNext, Option.bind_eq_bind]
      cases nextInList current records false with
      | inl find => rfl
      | inr r => rfl

end answers

/-! ## The empty leaf -/

/-- The root is a leaf that nothing was put in. -/
structure EmptyLeaf (h : Heap) (r : Addr) : Prop where
  tree : ∃ own F c, Rep own h F ∧ TreeWF F r (fun _ => none) (some r) none ∧
    F r = some c ∧ c.level < h.brk ∧ c.body = .leaf [] none
  node : h.nodes r = some (Node.blank true)

namespace EmptyLeaf

variable {h : Heap} {r : Addr} {key : CString} {file : FileRef}

theorem initial : ∃ h r, bPlusTreeInitial Heap.empty = some (some r, h) ∧ EmptyLeaf h r := by
  refine ⟨_, 0, rfl, ⟨⟨⟨id, id⟩, Function.update (fun _ => none) 0
    (some ⟨none, 0, ⊥, ⊤, .leaf [] none⟩), _, ?_, ?_, Function.update_self .., Nat.one_pos, rfl⟩,
    rfl⟩⟩
  · refine rep_empty.write (a := 0) (n := Node.blank true) (Nat.zero_le _) Nat.one_pos rfl
      ((nodeOK_leaf rfl).mpr ⟨rfl, [], [], ?_⟩) (fun _ _ _ hs => nomatch hs)
      (fun _ _ _ hr => nomatch hr) (fun _ _ hs => nomatch hs) fun _ _ hr => nomatch hr
    exact
      { isLeaf := rfl
        numKeys := rfl
        keys := ⟨[none, none, none, none], rfl⟩
        keysLen := rfl
        pointers := ⟨[none, none, none, none], rfl⟩
        pointersLen := rfl
        strs := rfl
        recs := rfl
        ownKey := ⟨List.nodup_nil, nofun⟩
        ownRec := ⟨List.nodup_nil, nofun⟩ }
  · exact WF.singleton (Holds.nil fun _ _ => rfl) (by simp [minOf]) (Nat.zero_le _)

/-- The search in the empty leaf ends there. -/
theorem findLeaf (hE : EmptyLeaf h r) (key : CString) :
    BplusTree.findLeaf h (some r) key = some (some r) := by
  simp [BplusTree.findLeaf, findLeafFrom, hE.node, Node.blank]

theorem newRecord (hE : EmptyLeaf h r) (file : FileRef) : EmptyLeaf { h with
    recs := Function.update h.recs h.brk (some ⟨file⟩), brk := h.brk + 1 } r := by
  obtain ⟨own, F, c, hR, hwf, hc, hlevel, hb⟩ := hE.tree
  exact ⟨⟨own, F, c, hR.newRecord file, hwf, hc, Nat.lt_succ_of_lt hlevel, hb⟩, hE.node⟩

/-- With `cond` other than zero an insertion finds its place. -/
theorem insert (hE : EmptyLeaf h r) {garbage : Int} (hgarbage : garbage ≠ 0)
    (hkey : key.strlen < maxKeyLen) (file : FileRef) :
    ∃ root' h', bPlusTreeInsert garbage (some r) key file h = some (root', h') ∧
      HoldsTree h' root' (insertName (fun _ => none) key file) := by
  obtain ⟨own, F, c, hR, hwf, hc, hlevel, hb⟩ := hE.tree
  have hroot : ∀ c', F r = some c' → c'.level < h.brk := by
    intro c' hc'
    rw [hc] at hc'
    exact Option.some.inj hc' ▸ hlevel
  obtain ⟨root', h', hrun, htree, -⟩ := bPlusTreeInsert_absent hR hwf hroot garbage hkey file rfl
    (Or.inr ⟨rfl, hgarbage, c, none, hc, hb⟩)
  exact ⟨root', h', hrun, htree⟩

/-- With `cond` zero it takes the empty leaf for one that has the key. -/
theorem insert_dropped (hE : EmptyLeaf h r) (key : CString) (file : FileRef) :
    ∃ h', bPlusTreeInsert 0 (some r) key file h = some (some r, h') ∧ EmptyLeaf h' r :=
  ⟨_, bPlusTreeInsert_stops ((hE.newRecord file).findLeaf key) hE.node rfl, hE.newRecord file⟩

theorem remove (hE : EmptyLeaf h r) (key : CString) :
    bPlusTreeRemove (some r) key h = some (some r, h) := by
  have hindex : findIndex h (Node.blank true) key = some 0 := rfl
  simp only [bPlusTreeRemove, CM.bind_run, CM.query_run, hE.findLeaf, Option.map_some,
    CM.andThen_some, readNode_run hE.node, hindex]
  rfl

/-- No key is found in the empty leaf. -/
theorem find (hE : EmptyLeaf h r) (key : CString) : bPlusTreeFind h (some r) key = some none := by
  simp only [bPlusTreeFind, hE.findLeaf, hE.node, Option.bind_eq_bind, Option.bind_some]
  rfl

theorem answer (hE : EmptyLeaf h r) (op : Op) :
    op.answer h (some r) = some (op.expected (fun _ => none) []) := by
  have hleft : leftmostLeaf h (h.brk + 1) r = some r := by
    simp [leftmostLeaf, hE.node, Node.blank]
  cases op with
  | change c => rfl
  | find key =>
      simp only [Op.answer, Op.expected, findFile, hE.find, Option.bind_eq_bind, Option.bind_some]
  | getFirst =>
      simp [Op.answer, Op.expected, bPlusTreeGetFirst, hleft, hE.node, Node.blank, recordFile]
  | getNext current =>
      have hend : nextFrom h current h.brk none false = some none := by
        cases h.brk with
        | zero => rfl
        | succ fuel => rfl
      have hnext : bPlusTreeGetNext h (some r) current = some none := by
        simp only [bPlusTreeGetNext, hleft, nextFrom, hE.node, Option.bind_eq_bind,
          Option.bind_some]
        exact hend
      simp only [Op.answer, hnext, Option.bind_eq_bind, Option.bind_some]
      rfl

end EmptyLeaf

/-! ## Two runs side by side -/

section runs

variable {h h₁ h₂ : Heap} {root root₁ root₂ : Ptr} {content : CString → Option FileRef}

/-- A step of a run, whose answer and new root are known. -/
theorem answers_cons {op : Op} {ops : List Op} {answer : Option FileRef} {root' : Ptr} {h' : Heap}
    (hanswer : op.answer h root = some answer)
    (hrun : op.step root h = some (root', h')) :
    answers (op :: ops) root h =
      (answers ops root' h').map fun result => (answer :: result.1, result.2) := by
  rw [answers, CM.bind_run, CM.query_run, hanswer, Option.map_some, CM.andThen_some, CM.bind_run,
    hrun, CM.andThen_some, CM.bind_run]
  cases answers ops root' h' with
  | none => rfl
  | some result => rfl

/-- A call keeps a tree. -/
theorem Op.step_spec {op : Op} (hfit : ∀ c ∈ changes [op], c.Fits) (hT : HoldsTree h root content) :
    ∃ root' h', op.step root h = some (root', h') ∧ HoldsTree h' root' (op.apply content) := by
  cases op with
  | change c => exact Call.run_spec (hfit c List.mem_cons_self) hT
  | find key => exact ⟨root, h, rfl, hT⟩
  | getFirst => exact ⟨root, h, rfl, hT⟩
  | getNext current => exact ⟨root, h, rfl, hT⟩

theorem changes_cons (op : Op) (ops : List Op) :
    changes (op :: ops) = changes [op] ++ changes ops :=
  List.filterMap_append (l := [op])

/-- Two trees with the same names answer alike, whatever `cond` starts as. -/
theorem answers_alike : ∀ {ops : List Op} {h₁ h₂ : Heap} {root₁ root₂ : Ptr}
    {content : CString → Option FileRef}, (∀ c ∈ changes ops, c.Fits) →
    HoldsTree h₁ root₁ content → HoldsTree h₂ root₂ content →
    ∃ as h₁' h₂', answers ops root₁ h₁ = some (as, h₁') ∧ answers ops root₂ h₂ = some (as, h₂')
  | [], h₁, h₂, _, _, _, _, _, _ => ⟨[], h₁, h₂, rfl, rfl⟩
  | op :: ops, h₁, h₂, root₁, root₂, content, hfit, hT₁, hT₂ => by
      rw [changes_cons, List.forall_mem_append] at hfit
      obtain ⟨entries, hsorted, hlookup, hanswer₁⟩ := hT₁.answer
      obtain ⟨entries', hsorted', hlookup', hanswer₂⟩ := hT₂.answer
      obtain rfl := eq_of_lookup hsorted hsorted' fun q => (hlookup q).symm.trans (hlookup' q)
      obtain ⟨root₁', h₁', hrun₁, htree₁⟩ := Op.step_spec hfit.1 hT₁
      obtain ⟨root₂', h₂', hrun₂, htree₂⟩ := Op.step_spec hfit.1 hT₂
      obtain ⟨as, h₁'', h₂'', has₁, has₂⟩ := answers_alike hfit.2 htree₁ htree₂
      rw [answers_cons (hanswer₁ _) hrun₁, answers_cons (hanswer₂ _) hrun₂, has₁, has₂]
      exact ⟨_, _, _, rfl, rfl⟩

/-- NULL and the empty leaf answer alike, if the first insertion lands. -/
theorem answers_empty : ∀ {ops : List Op} {h₁ h₂ : Heap} {root : Ptr} {r : Addr},
    (∀ c ∈ changes ops, c.Fits) → FirstInsertLands (changes ops) →
    HoldsTree h₁ root (fun _ => none) → EmptyLeaf h₂ r →
    ∃ as h₁' h₂', answers ops root h₁ = some (as, h₁') ∧ answers ops (some r) h₂ = some (as, h₂')
  | [], h₁, h₂, _, _, _, _, _, _ => ⟨[], h₁, h₂, rfl, rfl⟩
  | op :: ops, h₁, h₂, root, r, hfit, hlands, hT, hE => by
      rw [changes_cons, List.forall_mem_append] at hfit
      obtain ⟨entries, hsorted, hlookup, hanswer₁⟩ := hT.answer
      obtain rfl : entries = [] := eq_of_lookup hsorted List.Pairwise.nil fun q => (hlookup q).symm
      have hanswer₂ := hE.answer op
      obtain ⟨root', h₁', hrun₁, htree⟩ := Op.step_spec hfit.1 hT
      by_cases hinsert : ∃ garbage key file, op = .change (.insert garbage key file)
      · obtain ⟨garbage, key, file, rfl⟩ := hinsert
        have hgarbage : garbage ≠ 0 := by
          rintro rfl
          exact hlands key file rfl
        obtain ⟨root'', h₂', hrun₂, htree₂⟩ := hE.insert hgarbage (hfit.1 _ List.mem_cons_self) file
        obtain ⟨as, h₁'', h₂'', has₁, has₂⟩ := answers_alike hfit.2 htree htree₂
        rw [answers_cons (hanswer₁ _) hrun₁, answers_cons hanswer₂ hrun₂, has₁, has₂]
        exact ⟨_, _, _, rfl, rfl⟩
      · have hstays : op.step (some r) h₂ = some (some r, h₂) ∧ op.apply (fun _ => none) =
            (fun _ => none) ∧ FirstInsertLands (changes ops) := by
          cases op with
          | change c =>
              cases c with
              | insert garbage key file => exact absurd ⟨garbage, key, file, rfl⟩ hinsert
              | remove key =>
                  exact ⟨hE.remove key, Function.update_eq_self key _, hlands⟩
          | find key => exact ⟨rfl, rfl, hlands⟩
          | getFirst => exact ⟨rfl, rfl, hlands⟩
          | getNext current => exact ⟨rfl, rfl, hlands⟩
        rw [hstays.2.1] at htree
        obtain ⟨as, h₁'', h₂'', has₁, has₂⟩ := answers_empty hfit.2 hstays.2.2 htree hE
        rw [answers_cons (hanswer₁ _) hrun₁, answers_cons hanswer₂ hstays.1, has₁, has₂]
        exact ⟨_, _, _, rfl, rfl⟩

/-- The first answer of a run and the rest. -/
theorem answers_of_cons {op : Op} {ops : List Op} {answer : Option FileRef} {root' : Ptr}
    {h' h'' : Heap} {as : List (Option FileRef)} (hanswer : op.answer h root = some answer)
    (hrun : op.step root h = some (root', h')) (has : answers (op :: ops) root h = some (as, h'')) :
    ∃ rest, as = answer :: rest ∧ answers ops root' h' = some (rest, h'') := by
  rw [answers_cons hanswer hrun] at has
  obtain ⟨⟨rest, h₃⟩, hrest, heq⟩ := Option.map_eq_some_iff.mp has
  obtain ⟨rfl, rfl⟩ := Prod.mk.inj heq
  exact ⟨rest, rfl, hrest⟩

/-- A search for the name of a first insertion that was dropped tells the runs apart. -/
theorem answers_differ {key : CString} (hkey : key.strlen < maxKeyLen) {file : FileRef}
    {ops : List Op} : ∀ {before : List Call} {h₁ h₂ h₁' h₂' : Heap} {root : Ptr} {r : Addr}
    {as as' : List (Option FileRef)}, (∀ c ∈ before, ∃ key, c = .remove key) →
    HoldsTree h₁ root (fun _ => none) → EmptyLeaf h₂ r →
    answers (before.map .change ++ .change (.insert 0 key file) :: .find key :: ops) root h₁ =
      some (as, h₁') →
    answers (before.map .change ++ .change (.insert 0 key file) :: .find key :: ops) (some r) h₂ =
      some (as', h₂') → as ≠ as'
  | [], h₁, h₂, h₁', h₂', root, r, as, as', _, hT, hE, has, has' => by
      obtain ⟨root₁, h₃, hrun, htree⟩ := Call.run_spec (c := .insert 0 key file) hkey hT
      obtain ⟨h₄, hrun', hE'⟩ := hE.insert_dropped key file
      have hchange : ∀ h root, (Op.change (.insert 0 key file)).answer h root = some none :=
        fun _ _ => rfl
      have hfind : (Op.find key).answer h₃ root₁ = some _ := findFile_spec htree key
      obtain ⟨rest, rfl, hrest⟩ := answers_of_cons (hchange _ _) hrun has
      obtain ⟨rest', rfl, hrest'⟩ := answers_of_cons (hchange _ _) hrun' has'
      obtain ⟨rest₂, rfl, -⟩ := answers_of_cons hfind rfl hrest
      obtain ⟨rest₂', rfl, -⟩ := answers_of_cons (hE'.answer (.find key)) rfl hrest'
      have hfound : insertName (fun _ => none) key file key = some file := by
        rw [insertName_of_none file rfl, Function.update_self]
      intro heq
      have hhead := (List.cons.inj (List.cons.inj heq).2).1
      rw [Call.apply, hfound] at hhead
      cases hhead
  | c :: before, h₁, h₂, h₁', h₂', root, r, as, as', hremoves, hT, hE, has, has' => by
      obtain ⟨key', rfl⟩ := hremoves c List.mem_cons_self
      obtain ⟨root₁, h₃, hrun, htree, -⟩ := bPlusTreeRemove_spec hT key'
      have hnone : removeName (fun _ => none) key' = fun _ => none := Function.update_eq_self key' _
      rw [hnone] at htree
      have hchange : ∀ h root, (Op.change (.remove key')).answer h root = some none := fun _ _ =>
        rfl
      obtain ⟨rest, rfl, hrest⟩ := answers_of_cons (hchange _ _) hrun has
      obtain ⟨rest', rfl, hrest'⟩ := answers_of_cons (hchange _ _) (hE.remove key') has'
      intro heq
      exact answers_differ hkey (fun c hc => hremoves c (List.mem_cons_of_mem _ hc)) htree hE hrest
        hrest' (List.cons.inj heq).2

end runs

/-- **Two empty trees.**  All runs with these insertions and removals have the same
answers from `B_plus_tree_initial()` and from NULL just when the first insertion does
not find `cond` zero. -/
theorem answersFrom_alike_iff {calls : List Call} (hfit : ∀ c ∈ calls, c.Fits) :
    (∀ ops, changes ops = calls → ∃ as, answersFrom bPlusTreeInitial ops = some as ∧
      answersFrom (pure none) ops = some as) ↔ FirstInsertLands calls := by
  obtain ⟨h, r, hinitial, hE⟩ := EmptyLeaf.initial
  have hnull : ∀ ops, answersFrom (pure none) ops = (answers ops none Heap.empty).map Prod.fst :=
    fun ops => rfl
  have hleaf : ∀ ops, answersFrom bPlusTreeInitial ops = (answers ops (some r) h).map Prod.fst := by
    intro ops
    rw [answersFrom, CM.bind_run_of hinitial]
  constructor
  · rintro hall key file hfirst
    obtain ⟨hmatch, before, after, rfl, hbefore⟩ := List.find?_eq_some_iff_append.mp hfirst
    have hremoves : ∀ c ∈ before, ∃ key, c = .remove key := by
      intro c hc
      cases c with
      | insert garbage key file => cases hbefore _ hc
      | remove key => exact ⟨key, rfl⟩
    have hmap : ∀ cs : List Call, changes (cs.map .change) = cs := by
      intro cs
      rw [changes, List.filterMap_map]
      exact List.filterMap_some
    have hchanges : changes (before.map .change ++ .change (.insert 0 key file) :: .find key ::
        after.map .change) = before ++ .insert 0 key file :: after := by
      refine List.filterMap_append.trans (congrArg₂ _ (hmap before) ?_)
      exact congrArg (List.cons (.insert 0 key file)) (hmap after)
    obtain ⟨as, has', has⟩ := hall _ hchanges
    rw [hleaf] at has'
    rw [hnull] at has
    obtain ⟨⟨_, h₁'⟩, hrun, rfl⟩ := Option.map_eq_some_iff.mp has
    obtain ⟨⟨_, h₂'⟩, hrun', heq⟩ := Option.map_eq_some_iff.mp has'
    have hkey : (Call.insert 0 key file).Fits := hfit _ (by simp)
    exact answers_differ hkey hremoves holdsTree_empty hE hrun hrun' heq.symm
  · rintro hlands ops rfl
    obtain ⟨as, h₁', h₂', has₁, has₂⟩ := answers_empty hfit hlands holdsTree_empty hE
    exact ⟨as, by rw [hleaf, has₂]; rfl, by rw [hnull, has₁]; rfl⟩

def nameA : CString := ⟨[97], by decide⟩

/-- A first insertion that finds something else in `cond` lands in the empty leaf. -/
theorem answersFrom_alike_iff_one :
    answersFrom bPlusTreeInitial [.change (.insert 1 nameA 7), .find nameA, .getFirst] =
      answersFrom (pure none) [.change (.insert 1 nameA 7), .find nameA, .getFirst] := by
  have hfit : ∀ c ∈ [Call.insert 1 nameA 7], c.Fits := by decide
  have hlands : FirstInsertLands [.insert 1 nameA 7] := by
    intro key file h
    exact absurd (Call.insert.inj (Option.some.inj h)).1 (by decide)
  obtain ⟨as, has, has'⟩ := (answersFrom_alike_iff hfit).mpr hlands
    [.change (.insert 1 nameA 7), .find nameA, .getFirst] rfl
  rw [has, has']

/-- The first insertion into the empty leaf finds zero in `cond`, and is dropped. -/
theorem answersFrom_dropped : ¬ ∀ ops, (∀ c ∈ changes ops, c.Fits) →
    answersFrom bPlusTreeInitial ops = answersFrom (pure none) ops := by
  intro hall
  have hsame := hall [.change (.insert 0 nameA 7), .find nameA] (by decide)
  have hinitial : answersFrom bPlusTreeInitial [.change (.insert 0 nameA 7), .find nameA] =
      some [none, none] := by decide
  have hnull : answersFrom (pure none) [.change (.insert 0 nameA 7), .find nameA] =
      some [none, some 7] := by decide
  rw [hinitial, hnull] at hsame
  exact absurd hsame (by decide)

end Nbfs.BplusTree
