import Nbfs.BplusTree.Rep

set_option autoImplicit false

/-!
# Searching (`find_leaf`, `B_plus_tree_find`)

On a heap that holds a well-formed tree, the descent ends at the leaf whose
range has the key, and the search in that leaf finds the record of the key if
there is one.
-/

namespace Nbfs.BplusTree

open Nbfs.Lib Nbfs.Lib.Forest Nbfs.Lib.Slots

/-- The least number of keys of a node other than the root: `(MAX_KEY_NUM + 1) / 2`
for a leaf and `MAX_KEY_NUM / 2` for an inner node, which are the same number. -/
def minKeyNum : Nat := maxKeyNum / 2

/-- The tree with the given root is a well-formed B+ tree that holds `content`. -/
abbrev TreeWF (F : Tree) (root : Addr) (content : CString → Option FileRef)
    (weak fat : Option Addr) : Prop :=
  WF minKeyNum maxKeyNum F root content weak fat

variable {own : Owner} {h : Heap} {F : Tree} {root : Addr} {content : CString → Option FileRef}
  {weak fat : Option Addr}

/-! ## Inside one node -/

theorem keyAt_eq {n : Node} {kps : List Addr} {kj : List Ptr} {ks : List CString}
    (hkeys : n.keys = kps.map some ++ kj) (hstrs : kps.map h.strs = ks.map some) {i : Nat}
    (hi : i < ks.length) : keyAt h n i = some ks[i] := by
  have hlen : kps.length = ks.length := by simpa using congrArg List.length hstrs
  have hstr : h.strs kps[i] = some ks[i] := by
    have hget := congrArg (fun l => l[i]?) hstrs
    simpa [hlen, hi] using hget
  have hslot : n.keys[i]? = some (some kps[i]) := by
    rw [hkeys, List.getElem?_append_left (by rw [List.length_map]; omega), List.getElem?_map,
      List.getElem?_eq_getElem (by omega), Option.map_some]
  simp only [keyAt, hslot, Option.bind_eq_bind, Option.bind_some]
  exact hstr

/-- A search over the keys of a node stops after the keys that pass its test. -/
theorem scanKeys {n : Node} {kps : List Addr} {kj : List Ptr} {ks : List CString}
    (hkeys : n.keys = kps.map some ++ kj) (hstrs : kps.map h.strs = ks.map some)
    (hnum : n.numKeys = ks.length) (test : CString → Bool) {p : CString → Bool}
    (htest : ∀ k, test k = p k) :
    scanFrom (fun i => (keyAt h n i).map test) n.numKeys 0 = some (ks.takeWhile p).length := by
  rw [hnum, scanFrom_eq_takeWhile ks 0 (fun j hj => ?_), Nat.zero_add]
  rw [Nat.zero_add, keyAt_eq hkeys hstrs hj, Option.map_some, htest]

/-- A search over the slots of a node for a child stops at the child. -/
theorem scanSlots {pointers pj : List Ptr} {cs₁ cs₂ : List Addr} {a : Addr}
    (hps : pointers = (cs₁ ++ a :: cs₂).map some ++ pj) (ha : a ∉ cs₁) (count : Nat)
    (hcount : cs₁.length ≤ count) :
    scanFrom (fun i => (pointers[i]?).map fun q => decide (q ≠ some a)) count 0 =
      some cs₁.length := by
  -- the loop runs over the children up to the last, where it stops at the latest
  have hgen : ∀ (cs : List Addr) (i count : Nat), (∀ j (hj : j < cs.length),
      pointers[i + j]? = some (some cs[j])) → pointers[i + cs.length]? = some (some a) →
      a ∉ cs → cs.length ≤ count →
      scanFrom (fun i => (pointers[i]?).map fun q => decide (q ≠ some a)) count i =
        some (i + cs.length) := by
    intro cs
    induction cs with
    | nil =>
        intro i count _ hlast _ _
        cases count with
        | zero => simp [scanFrom]
        | succ count =>
            have hlast' : pointers[i]? = some (some a) := hlast
            simp [scanFrom, hlast']
    | cons c cs ih =>
        intro i count hget hlast hnot hle
        obtain ⟨count, rfl⟩ : ∃ m, count = m + 1 := ⟨count - 1, by simp at hle; omega⟩
        have hhead : pointers[i]? = some (some c) := hget 0 (by simp)
        have hca : c ≠ a := fun heq => hnot (by simp [heq])
        have hrec := ih (i + 1) count
          (fun j hj => by
            have := hget (j + 1) (by simpa using hj)
            rwa [show i + (j + 1) = i + 1 + j by omega] at this)
          (by rw [show i + 1 + cs.length = i + (c :: cs).length by simp; omega]; exact hlast)
          (fun hmem => hnot (List.mem_cons_of_mem _ hmem)) (by simpa using hle)
        simp only [scanFrom, hhead, Option.map_some, Option.bind_eq_bind, Option.bind_some]
        rw [if_pos (by simpa using hca), hrec, List.length_cons]
        congr 1
        omega
  have hslot : ∀ j (hj : j < (cs₁ ++ a :: cs₂).length),
      pointers[j]? = some (some (cs₁ ++ a :: cs₂)[j]) := by
    intro j hj
    rw [hps, List.getElem?_append_left (by rwa [List.length_map]), List.getElem?_map,
      List.getElem?_eq_getElem hj, Option.map_some]
  have hmain := hgen cs₁ 0 count (fun j hj => ?_) ?_ ha hcount
  · rwa [Nat.zero_add] at hmain
  · rw [Nat.zero_add, hslot j (by rw [List.length_append]; omega), List.getElem_append_left hj]
  · rw [Nat.zero_add, hslot cs₁.length (by simp), List.getElem_append_right (by simp)]
    simp

/-! ## From the root to a leaf -/

/-- The descent ends at the leaf responsible for the key. -/
theorem findLeafFrom_spec (hR : Rep own h F) (hwf : TreeWF F root content weak fat)
    (key : CString) :
    ∀ (fuel : Nat) {a : Addr} {c : TreeCell}, F a = some c → InRange c.lo c.hi key →
      c.level < fuel → ∃ leaf c' es next, findLeafFrom h key fuel a = some leaf ∧
        F leaf = some c' ∧ c'.body = .leaf es next ∧ InRange c'.lo c'.hi key := by
  intro fuel
  induction fuel with
  | zero => exact fun _ _ hlt => absurd hlt (Nat.not_lt_zero _)
  | succ fuel ih =>
    intro a c ha hrange hlevel
    cases hb : c.body with
    | leaf es next =>
        obtain ⟨n, kps, rps, hn, -, hl⟩ := hR.leaf ha hb
        refine ⟨a, c, es, next, ?_, ha, hb, hrange⟩
        simp [findLeafFrom, hn, hl.isLeaf]
    | inner ks cs =>
        obtain ⟨n, kps, hn, -, hi⟩ := hR.inner ha hb
        obtain ⟨kj, hkeys⟩ := hi.keys
        obtain ⟨pj, hps⟩ := hi.pointers
        obtain ⟨child, lo, hiB, hget, hchild, hin⟩ := (hwf.spans ha hb).route hrange
        obtain ⟨m, hm, -, hlv, hlo, hhi⟩ := hchild
        have hscan := scanKeys (p := fun k => decide (k ≤ key)) hkeys hi.strs hi.numKeys
          (fun k => decide (CString.strcmp k key ≤ 0))
            (fun k => by simp only [CString.strcmp_nonpos_iff])
        have hslot : n.pointers[(ks.takeWhile (· ≤ key)).length]? = some (some child) := by
          rw [hps, List.getElem?_append_left, List.getElem?_map, hget, Option.map_some]
          rw [List.length_map]
          exact (List.getElem?_eq_some_iff.mp hget).1
        obtain ⟨leaf, c', es, next, hrun, hrest⟩ :=
          ih hm (hlo ▸ hhi ▸ hin) (by omega)
        refine ⟨leaf, c', es, next, ?_, hrest⟩
        simp only [findLeafFrom, hn, hi.isLeaf, hscan, hslot, Option.bind_eq_bind,
          Option.bind_some]
        exact hrun

theorem findLeaf_spec (hR : Rep own h F) (hwf : TreeWF F root content weak fat)
    (hlevel : ∀ c, F root = some c → c.level < h.brk) (key : CString) :
    ∃ leaf c es next, findLeaf h (some root) key = some (some leaf) ∧ F leaf = some c ∧
      c.body = .leaf es next ∧ InRange c.lo c.hi key := by
  obtain ⟨r, hr, -, hlo, hhi, -⟩ := hwf.root_cell
  have hrange : InRange r.lo r.hi key := by rw [hlo, hhi]; exact inRange_bot_top key
  obtain ⟨leaf, c, es, next, hrun, hrest⟩ :=
    findLeafFrom_spec hR hwf key (h.brk + 1) hr hrange (by have := hlevel r hr; omega)
  exact ⟨leaf, c, es, next, by simp [findLeaf, hrun], hrest⟩

/-! ## The record of a key -/

/-- The key of an entry splits the entries before and after it. -/
theorem findIndex_spec {own : Owner} {a : Addr} {n : Node} {es : List (CString × FileRef)}
    {next : Ptr} {kps rps : List Addr} (hl : LeafOK own h a n es next kps rps) (key : CString) :
    findIndex h n key = some ((es.map Prod.fst).takeWhile (· ≠ key)).length := by
  obtain ⟨kj, hkeys⟩ := hl.keys
  have hstrs : kps.map h.strs = (es.map Prod.fst).map some := by
    rw [hl.strs, List.map_map]
    rfl
  exact scanKeys (p := fun k => decide (k ≠ key)) hkeys hstrs (by rw [hl.numKeys, List.length_map])
    (fun k => decide (CString.strcmp k key ≠ 0))
    (fun k => by simp only [ne_eq, CString.strcmp_eq_zero_iff])

/-- Where a search for a key stops: at its entry, or past the last. -/
theorem takeWhile_ne_cases (es : List (CString × FileRef)) (key : CString) :
    (((es.map Prod.fst).takeWhile (· ≠ key)).length = es.length ∧ es.lookup key = none) ∨
      ∃ es₁ f es₂, es = es₁ ++ (key, f) :: es₂ ∧ es.lookup key = some f ∧
        ((es.map Prod.fst).takeWhile (· ≠ key)).length = es₁.length := by
  induction es with
  | nil => exact .inl (by simp)
  | cons e es ih =>
      by_cases hek : e.1 = key
      · refine .inr ⟨[], e.2, es, ?_, ?_, ?_⟩
        · rw [← hek]
          rfl
        · rw [List.lookup_cons]
          simp [hek]
        · simp [hek]
      · have hbeq : (key == e.1) = false := by simpa using Ne.symm hek
        rcases ih with ⟨hlen, hnone⟩ | ⟨es₁, f, es₂, heq, hlookup, hlen⟩
        · refine .inl ⟨?_, by rw [List.lookup_cons, hbeq]; exact hnone⟩
          rw [List.map_cons, List.takeWhile_cons_of_pos (by simpa using hek), List.length_cons,
            hlen, List.length_cons]
        · refine .inr ⟨e :: es₁, f, es₂, by rw [heq]; rfl, ?_, ?_⟩
          · rw [List.lookup_cons, hbeq]
            exact hlookup
          · rw [List.map_cons, List.takeWhile_cons_of_pos (by simpa using hek), List.length_cons,
              hlen, List.length_cons]

/-- The slot of a record shows its file. -/
theorem LeafOK.slot {own : Owner} {a : Addr} {n : Node} {es : List (CString × FileRef)}
    {next : Ptr} {kps rps : List Addr} (hl : LeafOK own h a n es next kps rps) {i : Nat}
    (hi : i < es.length) :
    ∃ r, n.pointers[i]? = some (some r) ∧ h.recs r = some ⟨es[i].2⟩ := by
  obtain ⟨pj, hps⟩ := hl.pointers
  have hlen := hl.recs_length
  refine ⟨rps[i], ?_, ?_⟩
  · rw [hps, List.getElem?_append_left (by rw [List.length_map]; omega), List.getElem?_map,
      List.getElem?_eq_getElem (by omega), Option.map_some]
  · have hget := congrArg (fun l => l[i]?) hl.recs
    simpa [hlen, hi] using hget

/-- The answer of `B_plus_tree_find`: a record with the file of the key, or NULL. -/
def Answers (h : Heap) (q : Ptr) (file : Option FileRef) : Prop :=
  match file with
  | none => q = none
  | some f => ∃ r, q = some r ∧ h.recs r = some ⟨f⟩

theorem bPlusTreeFind_spec (hR : Rep own h F) (hwf : TreeWF F root content weak fat)
    (hlevel : ∀ c, F root = some c → c.level < h.brk) (key : CString) :
    ∃ q, bPlusTreeFind h (some root) key = some q ∧ Answers h q (content key) := by
  obtain ⟨leaf, c, es, next, hleaf, hc, hb, hrange⟩ := findLeaf_spec hR hwf hlevel key
  obtain ⟨n, kps, rps, hn, -, hl⟩ := hR.leaf hc hb
  obtain ⟨-, hholds, -⟩ := hwf.holds hc hb
  have hcontent : content key = es.lookup key := hholds.lookup key hrange
  have hindex := findIndex_spec hl key
  rcases takeWhile_ne_cases es key with ⟨hlen, hnone⟩ | ⟨es₁, f, es₂, heq, hlookup, hlen⟩
  · refine ⟨none, ?_, by rw [hcontent, hnone]; rfl⟩
    simp only [bPlusTreeFind, hleaf, hn, hindex, hlen, hl.numKeys, Option.bind_eq_bind,
      Option.bind_some, if_true]
  · have hlt : es₁.length < es.length := by rw [heq]; simp
    obtain ⟨r, hslot, hrec⟩ := hl.slot hlt
    have hne : es₁.length ≠ n.numKeys := by rw [hl.numKeys]; omega
    refine ⟨some r, ?_, ?_⟩
    · simp only [bPlusTreeFind, hleaf, hn, hindex, hlen, hslot, Option.bind_eq_bind,
        Option.bind_some, if_neg hne]
    · rw [hcontent, hlookup]
      refine ⟨r, rfl, ?_⟩
      rw [hrec]
      simp [heq]

end Nbfs.BplusTree
