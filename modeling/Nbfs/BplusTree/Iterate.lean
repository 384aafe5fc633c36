import Nbfs.BplusTree.Shape
import Nbfs.Lib.LeafRow
import Mathlib.Data.List.Nodup
import Mathlib.Data.List.Perm.Subperm

set_option autoImplicit false

/-!
# Iteration over the directory

The leaf chain from the leftmost leaf on shows the names in order, and with it
`traverse_leaves` and the loop over `B_plus_tree_get_first` and
`B_plus_tree_get_next`.
-/

namespace Nbfs.BplusTree

open Nbfs.Lib Nbfs.Lib.Forest

/-! ## Runs along the chain -/

/-- The leaves from `p` on, following `pointers[MAX_KEY_NUM]` to NULL. -/
def chainFrom (h : Heap) : Nat → Ptr → Option (List Addr)
  | _, none => some []
  | 0, some _ => none
  | fuel + 1, some a => do
      let n ← h.nodes a
      let next ← n.pointers[maxKeyNum]?
      let rest ← chainFrom h fuel next
      some (a :: rest)

/-- The leaf chain of a tree. -/
def leafChain (h : Heap) (root : Ptr) : Option (List Addr) :=
  match root with
  | none => some []
  | some r => do
      let p ← leftmostLeaf h (h.brk + 1) r
      chainFrom h (h.brk + 1) (some p)

/-- The keys of one node. -/
def nodeKeys (h : Heap) (a : Addr) : Option (List CString) := do
  let n ← h.nodes a
  (List.range n.numKeys).mapM (keyAt h n)

/-- `for (r = p; r; r = B_plus_tree_get_next(root, r->file))`: the records met. -/
def iterateFrom (h : Heap) (root : Ptr) : Nat → Ptr → Option (List Addr)
  | _, none => some []
  | 0, some _ => none
  | fuel + 1, some r => do
      let rec ← h.recs r
      let next ← bPlusTreeGetNext h root rec.file
      let rest ← iterateFrom h root fuel next
      some (r :: rest)

/-- The loop from `B_plus_tree_get_first` on, ended after `fuel` records at the
latest. -/
def iterate (h : Heap) (root : Ptr) (fuel : Nat) : Option (List Addr) := do
  let first ← bPlusTreeGetFirst h root
  iterateFrom h root fuel first

/-- `p` is the start of a chain of the leaves `ls`, whose slots show the records
`rs` with their files. -/
inductive Leaves (h : Heap) : Ptr → List Addr → List (Addr × FileRef) → Prop where
  | nil : Leaves h none [] []
  | cons {a : Addr} {n : Node} {next : Ptr} {ls : List Addr} {rs rest : List (Addr × FileRef)} :
      h.nodes a = some n → n.numKeys = rs.length →
      (∀ i (hi : i < rs.length), n.pointers[i]? = some (some rs[i].1)) →
      (∀ r ∈ rs, h.recs r.1 = some ⟨r.2⟩) → n.pointers[maxKeyNum]? = some next →
      Leaves h next ls rest → Leaves h (some a) (a :: ls) (rs ++ rest)

variable {h : Heap} {p : Ptr} {ls : List Addr} {rs : List (Addr × FileRef)}

theorem Leaves.recs (hl : Leaves h p ls rs) : ∀ r ∈ rs, h.recs r.1 = some ⟨r.2⟩ := by
  induction hl with
  | nil => simp
  | cons _ _ _ hrecs _ _ ih =>
      intro r hr
      exact (List.mem_append.mp hr).elim (hrecs r) (ih r)

theorem Leaves.head (hl : Leaves h p ls rs) : p = ls.head? := by
  cases hl with
  | nil => rfl
  | cons => rfl

theorem chainFrom_eq (hl : Leaves h p ls rs) : ∀ fuel, ls.length ≤ fuel →
    chainFrom h fuel p = some ls := by
  induction hl with
  | nil =>
      intro fuel _
      cases fuel <;> rfl
  | cons hn _ _ _ hnext _ ih =>
      intro fuel hle
      obtain ⟨fuel, rfl⟩ : ∃ f, fuel = f + 1 := ⟨fuel - 1, by simp at hle; omega⟩
      have hrest := ih fuel (by simpa using hle)
      simp only [chainFrom, hn, hnext, hrest, Option.bind_eq_bind, Option.bind_some]

/-- The file in a slot that shows a record. -/
theorem fileAt_eq {n : Node} {r : Addr × FileRef} {i : Nat}
    (hslot : n.pointers[i]? = some (some r.1)) (hrec : h.recs r.1 = some ⟨r.2⟩) :
    fileAt h n i = some r.2 := by
  simp [fileAt, hslot, hrec]

theorem traverseFrom_eq (hl : Leaves h p ls rs) : ∀ fuel, ls.length ≤ fuel →
    traverseFrom h fuel p = some (rs.map Prod.snd) := by
  induction hl with
  | nil =>
      intro fuel _
      cases fuel <;> rfl
  | @cons a n next ls rs rest hn hnum hslots hrecs hnext _ ih =>
      intro fuel hle
      obtain ⟨fuel, rfl⟩ : ∃ f, fuel = f + 1 := ⟨fuel - 1, by simp at hle; omega⟩
      have hrest := ih fuel (by simpa using hle)
      have hfiles : leafFiles h n = some (rs.map Prod.snd) := by
        have hfile : ∀ i ∈ List.range rs.length,
            fileAt h n i = some ((rs.map Prod.snd)[i]?.getD 0) := by
          intro i hi
          have hlt : i < rs.length := List.mem_range.mp hi
          rw [fileAt_eq (hslots i hlt) (hrecs _ (List.getElem_mem hlt))]
          simp [hlt]
        rw [leafFiles, hnum, Slots.mapM_eq_some_map hfile]
        refine congrArg some (List.ext_getElem (by simp) fun i h₁ h₂ => ?_)
        have hlt : i < rs.length := by simpa using h₂
        simp [hlt]
      simp only [traverseFrom, hn, hfiles, hnext, hrest, Option.bind_eq_bind, Option.bind_some,
        List.map_append]

/-! ## One step of the iteration -/

/-- The search of `B_plus_tree_get_next` over a list of records: the record after
the one with the file `current`, or the value of `find` at the end. -/
def nextInList (current : FileRef) : List (Addr × FileRef) → Bool → Bool ⊕ Ptr
  | [], find => .inl find
  | r :: _, true => .inr (some r.1)
  | r :: rs, false => nextInList current rs (decide (r.2 = current))

theorem nextInList_append (current : FileRef) : ∀ (rs rs' : List (Addr × FileRef)) (find : Bool),
    nextInList current (rs ++ rs') find =
      match nextInList current rs find with
      | .inl find => nextInList current rs' find
      | .inr r => .inr r
  | [], _, _ => rfl
  | _ :: _, _, true => rfl
  | r :: rs, rs', false => nextInList_append current rs rs' (decide (r.2 = current))

/-- The record after the one with the file `current`. -/
theorem nextInList_found {current : FileRef} {r : Addr × FileRef} :
    ∀ {pre : List (Addr × FileRef)} (post : List (Addr × FileRef)), current ∉ pre.map Prod.snd →
      r.2 = current → nextInList current (pre ++ r :: post) false =
        match post.head? with
        | none => .inl true
        | some r' => .inr (some r'.1)
  | [], [], _, hr => by simp [nextInList, hr]
  | [], r' :: post, _, hr => by simp [nextInList, hr]
  | x :: pre, post, hnot, hr => by
      rw [List.map_cons, List.mem_cons, not_or] at hnot
      have hx : decide (x.2 = current) = false := by simpa using Ne.symm hnot.1
      rw [List.cons_append, nextInList, hx, nextInList_found post hnot.2 hr]

/-- The inner loop runs over the records of one leaf. -/
theorem nextInLeaf_eq {n : Node} (current : FileRef) (rs : List (Addr × FileRef)) :
    ∀ (count i : Nat) (find : Bool), i + count = rs.length →
      (∀ i (hi : i < rs.length), n.pointers[i]? = some (some rs[i].1)) →
      (∀ r ∈ rs, h.recs r.1 = some ⟨r.2⟩) →
      nextInLeaf h n current count i find = some (nextInList current (rs.drop i) find) := by
  intro count
  induction count with
  | zero =>
      intro i find hlen _ _
      rw [List.drop_of_length_le (by omega)]
      rfl
  | succ count ih =>
      intro i find hlen hslots hrecs
      have hlt : i < rs.length := by omega
      rw [List.drop_eq_getElem_cons hlt]
      cases find with
      | true => simp [nextInLeaf, hslots i hlt, nextInList]
      | false =>
          have hfile := fileAt_eq (hslots i hlt) (hrecs _ (List.getElem_mem hlt))
          have hrest := ih (i + 1) (decide (rs[i].2 = current)) (by omega) hslots hrecs
          simp only [nextInLeaf, Bool.false_eq_true, if_false, hfile, Option.bind_eq_bind,
            Option.bind_some, hrest, nextInList]

/-- The outer loop runs over the records of the chain. -/
theorem nextFrom_eq (current : FileRef) (hl : Leaves h p ls rs) :
    ∀ (fuel : Nat) (find : Bool), ls.length ≤ fuel →
      nextFrom h current fuel p find =
        match nextInList current rs find with
        | .inl _ => some none
        | .inr r => some r := by
  induction hl with
  | nil =>
      intro fuel find _
      cases fuel <;> cases find <;> rfl
  | @cons a n next ls rs rest hn hnum hslots hrecs hnext _ ih =>
      intro fuel find hle
      obtain ⟨fuel, rfl⟩ : ∃ f, fuel = f + 1 := ⟨fuel - 1, by simp at hle; omega⟩
      have hleaf := nextInLeaf_eq current rs n.numKeys 0 find (by omega) hslots hrecs
      rw [List.drop_zero] at hleaf
      rw [nextInList_append]
      simp only [nextFrom, hn, hleaf, Option.bind_eq_bind, Option.bind_some]
      cases nextInList current rs find with
      | inl find =>
          simp only [hnext, Option.bind_some]
          exact ih fuel find (by simpa using hle)
      | inr r => rfl

/-- The loop from a record on meets the records after it. -/
theorem iterateFrom_eq {root : Ptr} (all : List (Addr × FileRef))
    (hrecs : ∀ r ∈ all, h.recs r.1 = some ⟨r.2⟩) (hnd : (all.map Prod.snd).Nodup)
    (hnext : ∀ current, bPlusTreeGetNext h root current =
      match nextInList current all false with
      | .inl _ => some none
      | .inr r => some r) :
    ∀ (post pre : List (Addr × FileRef)), all = pre ++ post →
      iterateFrom h root post.length (post.head?.map Prod.fst) = some (post.map Prod.fst)
  | [], _, _ => rfl
  | r :: post, pre, hall => by
      have hnot : r.2 ∉ pre.map Prod.snd := by
        rw [hall, List.map_append, List.map_cons] at hnd
        exact fun hmem => (List.nodup_append.mp hnd).2.2 _ hmem _ (by simp) rfl
      have hrest := iterateFrom_eq all hrecs hnd hnext post (pre ++ [r]) (by simp [hall])
      have hstep := hnext r.2
      rw [hall, nextInList_found post hnot rfl] at hstep
      have hrec : h.recs r.1 = some ⟨r.2⟩ := hrecs r (by simp [hall])
      simp only [List.length_cons, List.head?_cons, Option.map_some, iterateFrom, hrec,
        Option.bind_eq_bind, Option.bind_some, hstep, List.map_cons]
      cases post with
      | nil => rfl
      | cons r' post =>
          simp only [List.head?_cons, Option.map_some] at hrest
          simp only [List.head?_cons, Option.bind_some, hrest]

/-! ## The chain of a well-formed tree -/

section Tree

variable {own : Owner} {F : Tree} {root : Addr} {content : CString → Option FileRef}
  {weak fat : Option Addr} {lo : WithBot CString} {hi : WithTop CString}
  {es : List (CString × FileRef)}

/-- The records of one leaf and what they show. -/
theorem LeafOK.records {a : Addr} {n : Node} {next : Ptr} {kps rps : List Addr}
    (hl : LeafOK own h a n es next kps rps) :
    ∃ rs : List (Addr × FileRef), n.numKeys = rs.length ∧ rs.map Prod.snd = es.map Prod.snd ∧
      (∀ i (hi : i < rs.length), n.pointers[i]? = some (some rs[i].1)) ∧
      ∀ r ∈ rs, h.recs r.1 = some ⟨r.2⟩ := by
  have hlen := hl.recs_length
  have hzip : (rps.zip (es.map Prod.snd)).length = es.length := by simp [hlen]
  refine ⟨rps.zip (es.map Prod.snd), hl.numKeys.trans hzip.symm, ?_, fun i hi => ?_, ?_⟩
  · rw [List.map_snd_zip]
    simp [hlen]
  · obtain ⟨pj, hps⟩ := hl.pointers
    have hlt : i < rps.length := by omega
    rw [hps, List.getElem?_append_left (by rwa [List.length_map]), List.getElem?_map,
      List.getElem?_eq_getElem hlt, Option.map_some, List.getElem_zip]
  · rintro ⟨r, f⟩ hmem
    obtain ⟨i, hi, hget⟩ := List.getElem_of_mem hmem
    rw [List.getElem_zip, Prod.mk.injEq] at hget
    have hlt : i < es.length := hzip ▸ hi
    have hrec := congrArg (fun l => l[i]?) hl.recs
    have hlt' : i < rps.length := by omega
    simp only [List.getElem?_map, List.getElem?_eq_getElem hlt', List.getElem?_eq_getElem hlt,
      Option.map_some, Option.some.injEq] at hrec
    rw [← hget.1, hrec, ← hget.2, List.getElem_map]

/-- The leaves of a row that reaches the top are chained in memory. -/
theorem leaves_of_row (hR : Rep own h F) (hwf : TreeWF F root content weak fat)
    (hrow : LeafRow F lo ls es hi) (htop : hi = ⊤) :
    ∃ rs, Leaves h ls.head? ls rs ∧ rs.map Prod.snd = es.map Prod.snd := by
  induction hrow with
  | last ha hb =>
      obtain ⟨n, kps, rps, hn, -, hl⟩ := hR.leaf ha hb
      obtain ⟨rs, hnum, hfiles, hslots, hrecs⟩ := hl.records
      have hnext := hl.next_slot
      rw [hwf.next_eq_none ha hb htop] at hnext
      refine ⟨rs ++ [], .cons hn hnum hslots hrecs hnext .nil, ?_⟩
      rw [List.append_nil, hfiles]
  | cons ha hb hk hrest ih =>
      obtain ⟨rest, hrest', hfiles'⟩ := ih htop
      obtain ⟨n, kps, rps, hn, -, hl⟩ := hR.leaf ha hb
      obtain ⟨rs, hnum, hfiles, hslots, hrecs⟩ := hl.records
      have hnext := hl.next_slot
      rw [hwf.next_eq_head ha hb hk hrest] at hnext
      refine ⟨rs ++ rest, .cons hn hnum hslots hrecs hnext hrest', ?_⟩
      rw [List.map_append, List.map_append, hfiles, hfiles']

theorem NodeOK.nodeKeys {a : Addr} {n : Node} {c : TreeCell} (hn : h.nodes a = some n)
    (hok : NodeOK own h a n c) : BplusTree.nodeKeys h a = some c.keys := by
  have hkey : ∀ i ∈ List.range c.keys.length,
      BplusTree.keyAt h n i = some (c.keys[i]?.getD default) := by
    intro i hi
    have hlt : i < c.keys.length := List.mem_range.mp hi
    rw [hok.keyAt hlt]
    simp [hlt]
  simp only [BplusTree.nodeKeys, hn, Option.bind_eq_bind, Option.bind_some]
  rw [hok.numKeys_eq, Slots.mapM_eq_some_map hkey]
  refine congrArg some (List.ext_getElem (by simp) fun i h₁ h₂ => ?_)
  simp [h₂]

/-- The keys of a row, leaf by leaf. -/
theorem keys_of_row (hR : Rep own h F) (hrow : LeafRow F lo ls es hi) :
    ∃ kss, ls.mapM (nodeKeys h) = some kss ∧ kss.flatten = es.map Prod.fst := by
  induction hrow with
  | @last a c es next ha hb =>
      obtain ⟨n, hn, hok⟩ := hR.cell a c ha
      refine ⟨[c.keys], ?_, ?_⟩
      · rw [List.mapM_cons, hok.nodeKeys hn, List.mapM_nil]
        rfl
      · rw [List.flatten_singleton, Cell.keys_leaf hb]
  | @cons a c es next k ls fs hi ha hb hk _ ih =>
      obtain ⟨kss, hkss, hflat⟩ := ih
      obtain ⟨n, hn, hok⟩ := hR.cell a c ha
      refine ⟨c.keys :: kss, ?_, ?_⟩
      · rw [List.mapM_cons, hok.nodeKeys hn, hkss]
        rfl
      · rw [List.flatten_cons, hflat, Cell.keys_leaf hb, List.map_append]

/-- The walk down the first children ends at the leaf where the range starts. -/
theorem leftmostLeaf_spec (hR : Rep own h F) (hwf : TreeWF F root content weak fat) :
    ∀ (fuel : Nat) {a : Addr} {c : TreeCell}, F a = some c → c.level < fuel →
      ∃ leaf cl es next, leftmostLeaf h fuel a = some leaf ∧ F leaf = some cl ∧
        cl.body = .leaf es next ∧ cl.lo = c.lo := by
  intro fuel
  induction fuel with
  | zero => exact fun _ hlt => absurd hlt (Nat.not_lt_zero _)
  | succ fuel ih =>
      intro a c hc hlevel
      obtain ⟨n, hn, hok⟩ := hR.cell a c hc
      rcases hok.isLeaf_eq with ⟨hleaf, es, next, hb⟩ | ⟨hinner, ks, cs, hb, hlen, hslots⟩
      · refine ⟨a, c, es, next, ?_, hc, hb, rfl⟩
        simp [leftmostLeaf, hn, hleaf]
      · obtain ⟨x, cs, rfl⟩ := List.exists_cons_of_length_pos (by omega : 0 < cs.length)
        obtain ⟨m, hm, hlv, hlo⟩ := (hwf.spans hc hb).first
        obtain ⟨leaf, cl, es, next, hrun, hcl, hbl, hlol⟩ := ih hm (by omega)
        refine ⟨leaf, cl, es, next, ?_, hcl, hbl, hlol.trans hlo⟩
        have hslot : n.pointers[0]? = some (some x) := hslots 0 (by simp)
        simp only [leftmostLeaf, hn, hinner, Bool.false_eq_true, if_false, hslot,
          Option.bind_eq_bind, Option.bind_some, hrun]

/-- Every cell is below the root. -/
theorem Below.snoc {a b c : Addr} {d : Nat} (hd : Below h a d b) (hc : Child h b c) :
    Below h a (d + 1) c := by
  induction hd with
  | here a => exact .down hc (.here c)
  | down hchild _ ih => exact .down hchild (ih hc)

theorem below_root (hR : Rep own h F) (hwf : TreeWF F root content weak fat) :
    ∀ (d : Nat) {a : Addr} {c : TreeCell}, F a = some c →
      (∀ r, F root = some r → r.level ≤ c.level + d) → ∃ e, Below h root e a := by
  intro d
  induction d with
  | zero =>
      intro a c hc htop
      by_cases hne : a = root
      · exact ⟨0, hne ▸ .here a⟩
      · obtain ⟨p, m, -, hp, hmem⟩ := hwf.link a c hc hne
        obtain ⟨c', hc', -, hlv⟩ := hwf.kid hp hmem
        rw [hc] at hc'
        cases hc'
        obtain ⟨r, hr, -, -, -, hmax⟩ := hwf.root_cell
        have := htop r hr
        have := hmax p m hp
        omega
  | succ d ih =>
      intro a c hc htop
      by_cases hne : a = root
      · exact ⟨0, hne ▸ .here a⟩
      · obtain ⟨p, m, -, hp, hmem⟩ := hwf.link a c hc hne
        obtain ⟨c', hc', -, hlv⟩ := hwf.kid hp hmem
        rw [hc] at hc'
        cases hc'
        obtain ⟨e, he⟩ := ih hp (fun r hr => by
          have := htop r hr
          omega)
        refine ⟨e + 1, he.snoc ?_⟩
        obtain ⟨n, hn, hok⟩ := hR.cell p m hp
        have hnum := hok.numKeys_eq
        rcases hok.isLeaf_eq with ⟨-, es, next, hb⟩ | ⟨hinner, ks, cs, hb, hlen, hslots⟩
        · rw [Cell.kids_leaf hb] at hmem
          simp at hmem
        · rw [Cell.kids_inner hb] at hmem
          rw [Cell.keys_inner hb] at hnum
          obtain ⟨i, hi, hget⟩ := List.getElem_of_mem hmem
          exact ⟨n, i, hn, hinner, by omega, by rw [hslots i hi, hget]⟩

/-- The leaves, entries and records of a tree, in order. -/
structure Listing (h : Heap) (root : Ptr) (content : CString → Option FileRef)
    (leaves : List Addr) (entries : List (CString × FileRef)) (records : List (Addr × FileRef)) :
    Prop where
  chain : Leaves h leaves.head? leaves records
  nodup : leaves.Nodup
  length : leaves.length ≤ h.brk
  all : ∀ a, a ∈ leaves ↔ ∃ r d n, root = some r ∧ Below h r d a ∧ h.nodes a = some n ∧
    n.isLeaf = true
  keys : ∃ kss, leaves.mapM (nodeKeys h) = some kss ∧ kss.flatten = entries.map Prod.fst
  files : records.map Prod.snd = entries.map Prod.snd
  sorted : (entries.map Prod.fst).Pairwise (· < ·)
  lookup : ∀ q, content q = entries.lookup q
  start : ∀ r, root = some r → leftmostLeaf h (h.brk + 1) r = leaves.head? ∧ ∃ a n, leaves.head? =
    some a ∧ h.nodes a = some n ∧ n.pointers[0]? = some (records.head?.map Prod.fst)

theorem HoldsTree.listing {root : Ptr} (hT : HoldsTree h root content) :
    ∃ leaves entries records, Listing h root content leaves entries records := by
  cases root with
  | none =>
      obtain ⟨-, rfl⟩ := hT
      exact ⟨[], [], [], .nil, List.nodup_nil, Nat.zero_le _, by simp, ⟨[], rfl, rfl⟩, rfl,
        List.Pairwise.nil, fun _ => rfl, by simp⟩
  | some root =>
      obtain ⟨own, F, hR, hwf, hlevel⟩ := hT
      obtain ⟨r, hr, -, hlo, hhi, htop⟩ := hwf.root_cell
      obtain ⟨ls, es, hrow⟩ := hwf.leafRow r.level hr rfl
      rw [hlo, hhi] at hrow
      obtain ⟨rs, hleaves, hfiles⟩ := leaves_of_row hR hwf hrow rfl
      have hholds := hwf.row_holds hrow rfl
      have hnd := hwf.row_nodup hrow
      have hlt : ∀ a ∈ ls, a < h.brk := by
        intro a ha
        obtain ⟨n, -, -, hn, -⟩ := hrow.leaf a ha
        exact hR.lt_brk_of_cell hn
      have hlen : ls.length ≤ h.brk := by
        have hsub : ls ⊆ List.range h.brk := fun a ha => List.mem_range.mpr (hlt a ha)
        simpa using (List.subperm_of_subset hnd hsub).length_le
      refine ⟨ls, es, rs, hleaves, hnd, hlen, fun a => ⟨fun ha => ?_, ?_⟩, keys_of_row hR hrow,
        hfiles, hholds.sorted, fun q => hholds.lookup q (inRange_bot_top q), ?_⟩
      · obtain ⟨c, es', next, hc, hb⟩ := hrow.leaf a ha
        obtain ⟨d, hd⟩ := below_root hR hwf r.level hc (fun r' hr' => by
          rw [hr] at hr'
          cases hr'
          exact Nat.le_add_left ..)
        obtain ⟨n, kps, rps, hn, -, hl⟩ := hR.leaf hc hb
        exact ⟨root, d, n, rfl, hd, hn, hl.isLeaf⟩
      · rintro ⟨r', d, n, hr', hd, hn, hleaf⟩
        cases hr'
        obtain ⟨c, hc, -⟩ := hd.cell hR hwf hr
        obtain ⟨n', hn', hok⟩ := hR.cell a c hc
        rw [hn] at hn'
        cases hn'
        rcases hok.isLeaf_eq with ⟨-, es', next, hb⟩ | ⟨hinner, -⟩
        · exact hwf.mem_row hrow hc hb
        · rw [hleaf] at hinner
          cases hinner
      · intro r' hr'
        cases hr'
        obtain ⟨leaf, cl, es₁, next, hrun, hcl, hbl, hlol⟩ :=
          leftmostLeaf_spec hR hwf (h.brk + 1) hr ((hlevel r hr).trans (Nat.lt_succ_self _))
        obtain ⟨b, cb, es₂, next₂, hhead, hcb, hbb, hlob⟩ := hrow.head
        have heq : leaf = b := hwf.unique_lo hcl hcb (hwf.holds hcl hbl).1 (hwf.holds hcb hbb).1
          (by rw [hlol, hlo, hlob])
        subst heq
        rw [hcl] at hcb
        cases hcb
        obtain ⟨n, kps, rps, hn, -, hl⟩ := hR.leaf hcl hbl
        refine ⟨by rw [hrun, hhead], leaf, n, hhead, hn, ?_⟩
        -- every leaf has a record
        have hpos : 0 < n.numKeys := by
          have hmin := (hwf.sound leaf cl hcl).min
          rw [minOf_none, Cell.keys_leaf hbl, List.length_map, ← hl.numKeys] at hmin
          refine lt_of_lt_of_le ?_ hmin
          split <;> decide
        rw [hhead] at hleaves
        cases hleaves with
        | @cons _ n' next' ls' rs₁ rest hn' hnum hslots _ _ _ =>
            rw [hn] at hn'
            cases hn'
            obtain ⟨x, rs₁, rfl⟩ := List.exists_cons_of_length_pos (hnum ▸ hpos)
            exact hslots 0 (by simp)

end Tree

/-! ## The listing in the code's own terms -/

namespace Listing

variable {root : Ptr} {content : CString → Option FileRef} {leaves : List Addr}
  {entries : List (CString × FileRef)} {records : List (Addr × FileRef)}

theorem leafChain (hL : Listing h root content leaves entries records) :
    BplusTree.leafChain h root = some leaves := by
  have hchain := chainFrom_eq hL.chain (h.brk + 1) (hL.length.trans (Nat.le_succ _))
  cases root with
  | none =>
      have hnil : leaves = [] := List.eq_nil_iff_forall_not_mem.mpr fun a ha => by
        obtain ⟨r, -, -, hr, -⟩ := (hL.all a).mp ha
        cases hr
      rw [hnil]
      rfl
  | some r =>
      obtain ⟨hleft, a, n, hhead, -, -⟩ := hL.start r rfl
      rw [hhead] at hleft hchain
      simp only [BplusTree.leafChain, hleft, Option.bind_eq_bind, Option.bind_some, hchain]

/-- Without a root there is nothing to list. -/
theorem eq_nil_of_none (hL : Listing h none content leaves entries records) :
    leaves = [] ∧ records = [] := by
  have hnil : leaves = [] := List.eq_nil_iff_forall_not_mem.mpr fun a ha => by
    obtain ⟨r, -, -, hr, -⟩ := (hL.all a).mp ha
    cases hr
  have hchain := hL.chain
  rw [hnil] at hchain
  cases hchain
  exact ⟨hnil, rfl⟩

theorem traverseLeaves (hL : Listing h root content leaves entries records) :
    BplusTree.traverseLeaves h root = some (entries.map Prod.snd) := by
  have hrun := traverseFrom_eq hL.chain (h.brk + 1) (hL.length.trans (Nat.le_succ _))
  rw [hL.files] at hrun
  cases root with
  | none =>
      have hfiles := hL.files
      rw [hL.eq_nil_of_none.2] at hfiles
      rw [← hfiles]
      rfl
  | some r =>
      obtain ⟨hleft, a, n, hhead, -, -⟩ := hL.start r rfl
      rw [hhead] at hleft hrun
      simp only [BplusTree.traverseLeaves, hleft, Option.bind_eq_bind, Option.bind_some, hrun]

theorem getFirst (hL : Listing h root content leaves entries records) :
    bPlusTreeGetFirst h root = some (records.head?.map Prod.fst) := by
  cases root with
  | none =>
      rw [hL.eq_nil_of_none.2]
      rfl
  | some r =>
      obtain ⟨hleft, a, n, hhead, hn, hslot⟩ := hL.start r rfl
      rw [hhead] at hleft
      simp only [bPlusTreeGetFirst, hleft, hn, Option.bind_eq_bind, Option.bind_some, hslot]

theorem getNext (hL : Listing h root content leaves entries records) (current : FileRef) :
    bPlusTreeGetNext h root current =
      match nextInList current records false with
      | .inl _ => some none
      | .inr r => some r := by
  have hrun := nextFrom_eq current hL.chain (h.brk + 1) false
    (hL.length.trans (Nat.le_succ _))
  cases root with
  | none =>
      rw [hL.eq_nil_of_none.2]
      rfl
  | some r =>
      obtain ⟨hleft, a, n, hhead, -, -⟩ := hL.start r rfl
      rw [hhead] at hleft hrun
      simp only [bPlusTreeGetNext, hleft, Option.bind_eq_bind, Option.bind_some, hrun]

/-- Files of different names are different. -/
theorem files_nodup (hL : Listing h root content leaves entries records)
    (honce : ∀ q q' f, content q = some f → content q' = some f → q = q') :
    (entries.map Prod.snd).Nodup := by
  have hkeys : (entries.map Prod.fst).Nodup := hL.sorted.imp fun hlt => hlt.ne
  refine List.Nodup.map_on ?_ hkeys.of_map
  rintro ⟨q, f⟩ hq ⟨q', f'⟩ hq' (rfl : f = f')
  have h₁ := (hL.lookup q).trans (lookup_of_sorted hL.sorted hq)
  have h₂ := (hL.lookup q').trans (lookup_of_sorted hL.sorted hq')
  rw [honce q q' f h₁ h₂]

/-- The records themselves are different, and each shows its file. -/
theorem records_spec (hL : Listing h root content leaves entries records)
    (honce : ∀ q q' f, content q = some f → content q' = some f → q = q') :
    (records.map Prod.fst).Nodup ∧
      (records.map Prod.fst).map h.recs = entries.map fun e => some ⟨e.2⟩ := by
  have hnd : (records.map Prod.snd).Nodup := hL.files ▸ hL.files_nodup honce
  refine ⟨List.Nodup.map_on ?_ hnd.of_map, ?_⟩
  · rintro ⟨r, f⟩ hr ⟨r', f'⟩ hr' (rfl : r = r')
    have h₁ := hL.chain.recs _ hr
    rw [hL.chain.recs _ hr'] at h₁
    cases h₁
    rfl
  · rw [List.map_map]
    have hfile : ∀ r ∈ records, (h.recs ∘ Prod.fst) r = some ⟨r.2⟩ := hL.chain.recs
    rw [List.map_congr_left hfile]
    have hsnd := congrArg (List.map fun f => some (⟨f⟩ : Record)) hL.files
    rwa [List.map_map, List.map_map] at hsnd

theorem iterate (hL : Listing h root content leaves entries records)
    (honce : ∀ q q' f, content q = some f → content q' = some f → q = q') :
    BplusTree.iterate h root records.length = some (records.map Prod.fst) := by
  have hnd : (records.map Prod.snd).Nodup := hL.files ▸ hL.files_nodup honce
  have hrun := iterateFrom_eq records hL.chain.recs hnd hL.getNext records [] rfl
  simp only [BplusTree.iterate, hL.getFirst, Option.bind_eq_bind, Option.bind_some, hrun]

end Listing

/-- **Iteration lists the directory.**  The leaf chain shows every leaf once, and the
names in order; the loop over `B_plus_tree_get_first` and `B_plus_tree_get_next`
meets one record for each name, in order, and ends; `traverse_leaves` calls its
argument once for each file. -/
theorem iterate_runCalls (calls : List Call) (hfit : ∀ c ∈ calls, c.Fits)
    (honce : ∀ q q' f, expected calls q = some f → expected calls q' = some f → q = q') :
    ∃ root h leaves, ∃ (entries : List (CString × FileRef)) (records : List Addr),
      runCalls calls none Heap.empty = some (root, h) ∧
      (leafChain h root = some leaves ∧ leaves.Nodup ∧
        (∀ a, a ∈ leaves ↔ ∃ r d n, root = some r ∧ Below h r d a ∧ h.nodes a = some n ∧
          n.isLeaf = true) ∧
        ∃ kss, leaves.mapM (nodeKeys h) = some kss ∧ kss.flatten = entries.map Prod.fst) ∧
      ((entries.map Prod.fst).Pairwise (fun k k' => CString.strcmp k k' < 0) ∧
        ∀ q, entries.lookup q = expected calls q) ∧
      ((∃ fuel, iterate h root fuel = some records) ∧ records.Nodup ∧
        records.map h.recs = entries.map fun e => some ⟨e.2⟩) ∧
      (traverseLeaves h root = some (entries.map Prod.snd) ∧ (entries.map Prod.snd).Nodup) := by
  obtain ⟨root, h, hrun, htree⟩ := runCalls_spec calls hfit
  obtain ⟨leaves, entries, records, hL⟩ := htree.listing
  obtain ⟨hnd, hrecs⟩ := hL.records_spec honce
  refine ⟨root, h, leaves, entries, records.map Prod.fst, hrun,
    ⟨hL.leafChain, hL.nodup, hL.all, hL.keys⟩, ⟨?_, fun q => (hL.lookup q).symm⟩,
    ⟨⟨_, hL.iterate honce⟩, hnd, hrecs⟩, hL.traverseLeaves, hL.files_nodup honce⟩
  exact hL.sorted.imp fun hlt => CString.strcmp_neg_iff.mpr hlt

/-- Two names, one of them removed. -/
theorem iterate_runCalls_one :
    let name (b : UInt8) (hb : b ≠ 0) : CString := ⟨[b], by simpa using hb.symm⟩
    let calls : List Call := [.insert 1 (name 1 (by decide)) 1, .insert 1 (name 2 (by decide)) 2,
      .remove (name 1 (by decide))]
    ∃ root h files, runCalls calls none Heap.empty = some (root, h) ∧
      traverseLeaves h root = some files ∧ files.Nodup := by
  intro name calls
  have hexp : ∀ q f, expected calls q = some f → q = name 2 (by decide) ∧ f = 2 := by
    intro q f hq
    by_cases h₁ : name 1 (by decide) = q
    · simp [expected, sinceRemoval, calls, Call.removes, h₁] at hq
    · by_cases h₂ : name 2 (by decide) = q
      · simp [expected, sinceRemoval, calls, Call.removes, Call.inserted, h₁, h₂] at hq
        exact ⟨h₂.symm, hq.symm⟩
      · simp [expected, sinceRemoval, calls, Call.removes, Call.inserted, h₁, h₂] at hq
  obtain ⟨root, h, -, entries, -, hrun, -, -, -, htraverse, hnd⟩ :=
    iterate_runCalls calls (by decide) fun q q' f hq hq' =>
      (hexp q f hq).1.trans (hexp q' f hq').1.symm
  exact ⟨root, h, _, hrun, htraverse, hnd⟩

end Nbfs.BplusTree
