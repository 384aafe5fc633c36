import Nbfs.BplusTree.Find

set_option autoImplicit false

/-!
# Insertion (`B_plus_tree_insert`)

A new entry goes into its leaf.  A leaf or an inner node without room is split,
and its parent is told, which may split the parent in turn; `Pending` is what
holds between the two.
-/

namespace Nbfs.BplusTree

open Nbfs.Lib Nbfs.Lib.Forest Nbfs.Lib.Slots

/-- A heap that holds a B+ tree with the given root and contents.  The height of
the tree is bounded by the number of addresses handed out. -/
def HoldsTree (h : Heap) (root : Ptr) (content : CString → Option FileRef) : Prop :=
  match root with
  | none => (∃ own, Rep own h fun _ => none) ∧ content = fun _ => none
  | some r => ∃ own F, Rep own h F ∧ TreeWF F r content none none ∧
      ∀ c, F r = some c → c.level < h.brk

variable {own : Owner} {h : Heap} {F F' : Tree} {root : Addr}
  {content : CString → Option FileRef} {weak fat : Option Addr}

/-! ## One more entry in a node -/

/-- A record nobody refers to yet. -/
theorem Rep.newRecord (hR : Rep own h F) (file : FileRef) :
    Rep own { h with
      recs := Function.update h.recs h.brk (some ⟨file⟩), brk := h.brk + 1 } F := by
  refine hR.update (fun _ => False) (fun a ha => ?_) hR.short (fun _ _ hf => hf.elim)
    (fun _ hf => hf.elim) (fun _ _ => ⟨rfl, rfl⟩) (fun _ _ _ hs => ⟨hs, rfl⟩)
    (fun p r _ hr => ⟨?_, rfl⟩)
  · have hlt : h.brk < a := ha
    obtain ⟨hn, hs, hr⟩ := hR.fresh a hlt.le
    exact ⟨hn, hs, (Function.update_of_ne hlt.ne' ..).trans hr⟩
  · exact (Function.update_of_ne (hR.lt_brk_of_rec hr).ne ..).trans hr

/-- Where the search of `B_plus_tree_insert` stops, and when it leaves `cond`
zero. -/
theorem findPlace_spec {n : Node} (key : CString) :
    ∀ (ks : List CString) (index : Nat) (cond : Int),
      (∀ j (hj : j < ks.length), keyAt h n (index + j) = some ks[j]) →
      ks.Pairwise (· < ·) →
      ∃ c, findPlace h n key ks.length index cond =
          some (index + (ks.takeWhile (· < key)).length, c) ∧
        (c = 0 ↔ ks = [] ∧ cond = 0 ∨ key ∈ ks)
  | [], index, cond, _, _ => ⟨cond, by simp [findPlace], by simp⟩
  | k :: ks, index, cond, hget, hsorted => by
      obtain ⟨hhead, htail⟩ := List.pairwise_cons.mp hsorted
      have hk : keyAt h n index = some k := hget 0 (by simp)
      by_cases hlt : k < key
      · have hcond : CString.strcmp k key < 0 := CString.strcmp_neg_iff.mpr hlt
        obtain ⟨c, hrun, hc⟩ := findPlace_spec key ks (index + 1) (CString.strcmp k key)
          (fun j hj => by
            have := hget (j + 1) (by simpa using hj)
            rwa [show index + (j + 1) = index + 1 + j by omega] at this) htail
        refine ⟨c, ?_, ?_⟩
        · simp only [List.length_cons, findPlace, hk, Option.bind_eq_bind, Option.bind_some,
            if_pos hcond, hrun]
          rw [List.takeWhile_cons, if_pos (decide_eq_true hlt), List.length_cons,
            Nat.add_right_comm, Nat.add_assoc]
        · rw [hc, List.mem_cons]
          have hne : key ≠ k := hlt.ne'
          simp [hne, hcond.ne]
      · have hcond : ¬ CString.strcmp k key < 0 := fun hneg =>
          hlt (CString.strcmp_neg_iff.mp hneg)
        refine ⟨CString.strcmp k key, ?_, ?_⟩
        · simp only [List.length_cons, findPlace, hk, Option.bind_eq_bind, Option.bind_some,
            if_neg hcond]
          simp [hlt]
        · rw [CString.strcmp_eq_zero_iff, List.mem_cons]
          constructor
          · rintro rfl
            exact .inr (.inl rfl)
          · rintro (⟨hnil, -⟩ | rfl | hmem)
            · cases hnil
            · rfl
            · exact absurd (hhead key hmem) hlt

/-- The sorted keys below a key are a prefix. -/
theorem takeWhile_lt_split {es : List (CString × FileRef)} {key : CString}
    (hs : (es.map Prod.fst).Pairwise (· < ·)) (hnot : key ∉ es.map Prod.fst) :
    ∃ es₁ es₂, es = es₁ ++ es₂ ∧ es₁.length = ((es.map Prod.fst).takeWhile (· < key)).length ∧
      (∀ k ∈ es₁.map Prod.fst, k < key) ∧ ∀ k ∈ es₂.map Prod.fst, key < k := by
  induction es with
  | nil => exact ⟨[], [], rfl, by simp, by simp, by simp⟩
  | cons e es ih =>
      rw [List.map_cons, List.pairwise_cons] at hs
      rw [List.map_cons, List.mem_cons, not_or] at hnot
      by_cases hlt : e.1 < key
      · obtain ⟨es₁, es₂, heq, hlen, hlow, hhigh⟩ := ih hs.2 hnot.2
        refine ⟨e :: es₁, es₂, by rw [heq]; rfl, ?_, ?_, hhigh⟩
        · rw [List.map_cons, List.takeWhile_cons, if_pos (decide_eq_true hlt), List.length_cons,
            List.length_cons, hlen]
        · intro k hk
          rcases List.mem_cons.mp hk with rfl | hk
          · exact hlt
          · exact hlow k hk
      · refine ⟨[], e :: es, rfl, by simp [hlt], by simp, ?_⟩
        intro k hk
        have hge : key < e.1 := lt_of_le_of_ne (not_lt.mp hlt) hnot.1
        rcases List.mem_cons.mp hk with rfl | hk
        · exact hge
        · exact hge.trans (hs.1 k hk)

/-- Inserting at a position commutes with reading the cells. -/
theorem map_insert {α β : Type} (f : α → β) (ps : List α) (q : α) (i : Nat) :
    (ps.take i ++ q :: ps.drop i).map f = (ps.map f).take i ++ f q :: (ps.map f).drop i := by
  simp [List.map_take, List.map_drop]

/-- A fresh address among owned ones. -/
theorem Owned.insert {own : Addr → Addr} {a q : Addr} {ps : List Addr} (h : Owned own a ps)
    (hq : q ∉ ps) (i : Nat) : Owned (give own [q] a) a (ps.take i ++ q :: ps.drop i) := by
  have happ : Owned (give own [q] a) a (ps ++ [q]) :=
    h.give_append (by simp) (fun p hp hmem => hq (List.mem_singleton.mp hmem ▸ hp))
  refine happ.perm ?_
  have hperm : (ps.take i ++ q :: ps.drop i).Perm (q :: (ps.take i ++ ps.drop i)) :=
    List.perm_middle
  rw [List.take_append_drop] at hperm
  exact hperm.trans (List.perm_append_singleton q ps).symm

/-- The slots of an array whose used part is `ps`, after shifting up from `i` and
storing `q` there. -/
theorem shiftUp_store_slots {slots rest : List Ptr} {ps : List Addr} {j : Ptr}
    (hslots : slots = ps.map some ++ j :: rest) {i count : Nat} (hi : i ≤ ps.length)
    (hcount : count = ps.length) (q : Addr) :
    ∃ mid, shiftUp slots i (count - i) = some mid ∧
      store mid i (some q) = some ((ps.take i ++ q :: ps.drop i).map some ++ rest) := by
  have h := shiftUp_store (ps.map some) (i := i) (by rwa [List.length_map]) (some q) j rest
  rw [List.length_map, ← hslots, ← hcount] at h
  obtain ⟨mid, hmid, hstore⟩ := Option.bind_eq_some_iff.mp h
  refine ⟨mid, hmid, hstore.trans ?_⟩
  rw [map_insert, List.append_assoc, List.cons_append]

/-- Key buffers and records that are allocated are not the new ones. -/
theorem Rep.str_ne_fresh (hR : Rep own h F) {p : Addr} {s : CString} (hs : h.strs p = some s)
    {q : Addr} (hq : h.brk ≤ q) : p ≠ q :=
  ((hR.lt_brk_of_str hs).trans_le hq).ne

theorem Rep.rec_ne_fresh (hR : Rep own h F) {p : Addr} {r : Record} (hr : h.recs p = some r)
    {q : Addr} (hq : h.brk ≤ q) : p ≠ q :=
  ((hR.lt_brk_of_rec hr).trans_le hq).ne

/-- What is at an address after a store. -/
theorem update_some_cases {β : Type} {f : Addr → Option β} {q p : Addr} {v x : β}
    (h : Function.update f q (some v) p = some x) : p = q ∧ x = v ∨ p ≠ q ∧ f p = some x := by
  by_cases hp : p = q
  · subst hp
    rw [Function.update_self] at h
    exact .inl ⟨rfl, (Option.some.inj h).symm⟩
  · rw [Function.update_of_ne hp] at h
    exact .inr ⟨hp, h⟩

/-- The keys and records of a leaf with a new key at `h.brk + 1` and a new record
at `h.brk` among them. -/
theorem Rep.entryLists (hR : Rep own h F) {a : Addr} {n : Node}
    {es₁ es₂ : List (CString × FileRef)} {next : Ptr} {kps rps : List Addr}
    (hl : LeafOK own h a n (es₁ ++ es₂) next kps rps) (key : CString) (file : FileRef) :
    (kps.take es₁.length ++ (h.brk + 1) :: kps.drop es₁.length).map
        (Function.update h.strs (h.brk + 1) (some key)) =
      (es₁ ++ (key, file) :: es₂).map (fun e => some e.1) ∧
    (rps.take es₁.length ++ h.brk :: rps.drop es₁.length).map
        (Function.update h.recs h.brk (some ⟨file⟩)) =
      (es₁ ++ (key, file) :: es₂).map (fun e => some ⟨e.2⟩) ∧
    Owned (give own.key [h.brk + 1] a) a
      (kps.take es₁.length ++ (h.brk + 1) :: kps.drop es₁.length) ∧
    Owned (give own.record [h.brk] a) a
      (rps.take es₁.length ++ h.brk :: rps.drop es₁.length) := by
  have hkfresh : ∀ p ∈ kps, p ≠ h.brk + 1 := by
    intro p hp
    have hs : h.strs p ∈ (es₁ ++ es₂).map fun e => some e.1 := hl.strs ▸ List.mem_map_of_mem hp
    obtain ⟨e, -, he⟩ := List.mem_map.mp hs
    exact hR.str_ne_fresh he.symm (Nat.le_succ _)
  have hrfresh : ∀ p ∈ rps, p ≠ h.brk := by
    intro p hp
    have hr : h.recs p ∈ (es₁ ++ es₂).map fun e => some (⟨e.2⟩ : Record) :=
      hl.recs ▸ List.mem_map_of_mem hp
    obtain ⟨e, -, he⟩ := List.mem_map.mp hr
    exact hR.rec_ne_fresh he.symm le_rfl
  have hstrs : kps.map (Function.update h.strs (h.brk + 1) (some key)) =
      (es₁ ++ es₂).map fun e => some e.1 := by
    rw [← hl.strs]
    exact List.map_congr_left fun p hp => Function.update_of_ne (hkfresh p hp) ..
  have hrecs : rps.map (Function.update h.recs h.brk (some ⟨file⟩)) =
      (es₁ ++ es₂).map fun e => some (⟨e.2⟩ : Record) := by
    rw [← hl.recs]
    exact List.map_congr_left fun p hp => Function.update_of_ne (hrfresh p hp) ..
  refine ⟨?_, ?_, hl.ownKey.insert (fun hmem => hkfresh _ hmem rfl) _,
    hl.ownRec.insert (fun hmem => hrfresh _ hmem rfl) _⟩
  · rw [map_insert, hstrs, Function.update_self]
    simp
  · rw [map_insert, hrecs, Function.update_self]
    simp

/-- The heap after a new record and a new key went into the leaf at `a`. -/
def entryHeap (h : Heap) (a : Addr) (n : Node) (key : CString) (file : FileRef) : Heap where
  nodes := Function.update h.nodes a (some n)
  strs := Function.update h.strs (h.brk + 1) (some key)
  recs := Function.update h.recs h.brk (some ⟨file⟩)
  brk := h.brk + 2

/-- A leaf with room takes a new entry between two others. -/
theorem Rep.putEntry (hR : Rep own h F) {a : Addr} {c : TreeCell}
    {es₁ es₂ : List (CString × FileRef)} {next : Ptr} {n : Node} {kps rps : List Addr}
    (ha : F a = some c) (hpar : n.parent = c.par)
    (hl : LeafOK own h a n (es₁ ++ es₂) next kps rps) (hroom : n.numKeys < maxKeyNum)
    {key : CString} (hkey : key.strlen < maxKeyLen) (file : FileRef) :
    ∃ own' ks₁ ps₁ keys pointers,
      shiftUp n.keys es₁.length (n.numKeys - es₁.length) = some ks₁ ∧
      shiftUp n.pointers es₁.length (n.numKeys - es₁.length) = some ps₁ ∧
      store ks₁ es₁.length (some (h.brk + 1)) = some keys ∧
      store ps₁ es₁.length (some h.brk) = some pointers ∧
      Rep own' (entryHeap h a { n with
          pointers := pointers, keys := keys, numKeys := n.numKeys + 1 } key file)
        (Function.update F a
          (some { c with body := .leaf (es₁ ++ (key, file) :: es₂) next })) := by
  obtain ⟨kj, hkeys⟩ := hl.keys
  obtain ⟨pj, hps⟩ := hl.pointers
  have hklen := hl.keys_length
  have hrlen := hl.recs_length
  have hnum := hl.numKeys
  have hkeysLen := hl.keysLen
  have hpsLen := hl.pointersLen
  rw [hkeys, List.length_append, List.length_map] at hkeysLen
  rw [hps, List.length_append, List.length_append, List.length_map] at hpsLen
  obtain ⟨j, kj', rfl⟩ : ∃ j js, kj = j :: js := List.exists_cons_of_length_pos (by omega)
  obtain ⟨j', pj', rfl⟩ : ∃ j js, pj = j :: js :=
    List.exists_cons_of_length_pos (by simp at hpsLen; omega)
  rw [List.cons_append] at hps
  have hi : es₁.length ≤ (es₁ ++ es₂).length := by simp
  obtain ⟨ks₁, hks₁, hstoreK⟩ :=
    shiftUp_store_slots (i := es₁.length) hkeys (hi.trans hklen.ge) (hnum.trans hklen.symm)
      (h.brk + 1)
  obtain ⟨ps₁, hps₁, hstoreP⟩ :=
    shiftUp_store_slots (i := es₁.length) hps (hi.trans hrlen.ge) (hnum.trans hrlen.symm) h.brk
  obtain ⟨hstrs, hrecs, hownK, hownR⟩ := hR.entryLists hl key file
  refine ⟨⟨give own.key [h.brk + 1] a, give own.record [h.brk] a⟩, ks₁, ps₁, _, _, hks₁, hps₁,
    hstoreK, hstoreP, ?_⟩
  refine hR.write (Nat.le_add_right _ 2) ((hR.lt_brk_of_cell ha).trans_le (Nat.le_add_right _ 2))
    rfl ?_ (fun p s hp hs => ?_) (fun p r hp hr => ?_) (fun p s hs => ?_) (fun p r hr => ?_)
  · refine (nodeOK_leaf rfl).mpr ⟨hpar, kps.take es₁.length ++ (h.brk + 1) :: kps.drop es₁.length,
      rps.take es₁.length ++ h.brk :: rps.drop es₁.length, ?_⟩
    exact
      { isLeaf := hl.isLeaf
        numKeys := by simp only [hnum, List.length_append, List.length_cons]; omega
        keys := ⟨kj', rfl⟩
        keysLen := by
          simp only [List.length_append, List.length_map, List.length_cons, List.length_take,
            List.length_drop] at hkeysLen hklen ⊢
          omega
        pointers := ⟨pj', rfl⟩
        pointersLen := by
          simp only [List.length_append, List.length_map, List.length_cons, List.length_take,
            List.length_drop, List.length_nil] at hpsLen hrlen ⊢
          omega
        strs := hstrs
        recs := hrecs
        ownKey := hownK
        ownRec := hownR }
  · have hne := hR.str_ne_fresh hs (Nat.le_succ h.brk)
    exact ⟨(Function.update_of_ne hne ..).trans hs, give_of_not_mem (by simpa using hne)⟩
  · have hne := hR.rec_ne_fresh hr (le_refl h.brk)
    exact ⟨(Function.update_of_ne hne ..).trans hr, give_of_not_mem (by simpa using hne)⟩
  · rcases update_some_cases hs with ⟨rfl, rfl⟩ | ⟨-, hs⟩
    · exact .inr ⟨Nat.lt_succ_self _, hkey⟩
    · exact .inl hs
  · rcases update_some_cases hr with ⟨rfl, -⟩ | ⟨-, hr⟩
    · exact .inr (Nat.lt_succ_of_lt (Nat.lt_succ_self _))
    · exact .inl hr

/-! ## A leaf without room -/

/-- The temporary array of a split holds the used slots with the new one among
them. -/
theorem spread_slots {slots rest : List Ptr} {ps : List Addr} (hslots : slots = ps.map some ++ rest)
    {i : Nat} (hi : i ≤ ps.length) (q : Addr) :
    spread slots i (some q) (ps.length + 1) =
      some ((ps.take i ++ q :: ps.drop i).map some) := by
  have hi' : i ≤ (ps.map some).length := by rwa [List.length_map]
  have htake : slots.take i = (ps.map some).take i := by
    rw [hslots, List.take_append_of_le_length hi']
  have hdrop : slots.drop i = (ps.map some).drop i ++ rest := by
    rw [hslots, List.drop_append_of_le_length hi']
  have hlen : slots.length = ps.length + rest.length := by
    rw [hslots, List.length_append, List.length_map]
  rw [spread_eq _ (by omega) (by omega), map_insert, htake, hdrop, ← List.cons_append,
    ← List.append_assoc]
  have hcount : ((ps.map some).take i ++ some q :: (ps.map some).drop i).length =
    ps.length + 1 := by
    simp only [List.length_append, List.length_take, List.length_map, List.length_cons,
      List.length_drop]
    omega
  rw [← hcount, List.take_left]

/-- Copying used slots of a temporary array to the front of an array. -/
theorem copyRange_slots (ps : List Addr) (dst : List Ptr) (si count : Nat)
    (hs : si + count ≤ ps.length) (hd : count ≤ dst.length) :
    copyRange (ps.map some) si dst 0 count =
      some (((ps.drop si).take count).map some ++ dst.drop count) := by
  rw [copyRange_eq (by rwa [List.length_map]) (by rwa [Nat.zero_add])]
  simp [List.map_take, List.map_drop]

/-- Between the split of `left` and the moment its parent is told: the heap
shows the two parts of `left`, and `kp` points to the key that separates them. -/
structure Pending (own : Owner) (h : Heap) (F F' : Tree) (root left right : Addr)
    (content : CString → Option FileRef) (k : CString) (kp : Addr) (n n₁ n₂ : TreeCell) :
    Prop where
  rep : Rep own h F'
  wf : TreeWF F root content none (some left)
  split : Split minKeyNum maxKeyNum F F' content left right k n n₁ n₂
  key : h.strs kp = some k
  level : ∀ c, F root = some c → c.level < h.brk

theorem Rep.none_of_le (hR : Rep own h F) {a : Addr} (ha : h.brk ≤ a) : F a = none := by
  cases hF : F a with
  | none => rfl
  | some c => exact absurd (hR.lt_brk_of_cell hF) (not_lt.mpr ha)

/-- What splitting the array of records does: the first `splitLeaf` slots and
the link stay, the others move to the new array. -/
theorem splitLeaf_pointers {slots : List Ptr} {rps : List Addr} {next : Ptr} {q : Addr} {i : Nat}
    (hslots : slots = rps.map some ++ [next]) (hlen : rps.length = maxKeyNum) (hi : i ≤ rps.length)
    (leaf : Addr) :
    ∃ pj pj₂ mid mid₂, spread slots i (some q) (maxKeyNum + 1) =
        some ((rps.take i ++ q :: rps.drop i).map some) ∧
      copyRange ((rps.take i ++ q :: rps.drop i).map some) 0 slots 0 splitLeaf = some mid ∧
      mid[maxKeyNum]? = some next ∧
      copyRange ((rps.take i ++ q :: rps.drop i).map some) splitLeaf (Node.blank true).pointers 0
        (maxKeyNum + 1 - splitLeaf) = some mid₂ ∧
      store mid₂ maxKeyNum next =
        some (((rps.take i ++ q :: rps.drop i).drop splitLeaf).map some ++ (pj₂ ++ [next])) ∧
      store mid maxKeyNum (some leaf) =
        some (((rps.take i ++ q :: rps.drop i).take splitLeaf).map some ++ (pj ++ [some leaf])) ∧
      pj.length = maxKeyNum - splitLeaf ∧ pj₂.length = splitLeaf - 1 := by
  have hfull : (rps.take i ++ q :: rps.drop i).length = maxKeyNum + 1 := by
    simp only [List.length_append, List.length_take, List.length_cons, List.length_drop]
    omega
  generalize hRP : rps.take i ++ q :: rps.drop i = RP at hfull
  have hcut : splitLeaf ≤ maxKeyNum := by decide
  have hpos : 0 < splitLeaf := by decide
  have hmid := copyRange_slots RP slots 0 splitLeaf
    (by omega) (by simp [hslots]; omega)
  have hmid₂ := copyRange_slots RP (Node.blank true).pointers splitLeaf
    (maxKeyNum + 1 - splitLeaf) (by omega) (by simp [Node.blank])
  have hdrop : slots.drop splitLeaf = (rps.drop splitLeaf).map some ++ [next] := by
    rw [hslots, List.drop_append_of_le_length (by rw [List.length_map]; omega), List.map_drop]
  have hall : (RP.drop splitLeaf).take (maxKeyNum + 1 - splitLeaf) = RP.drop splitLeaf :=
    List.take_of_length_le (by rw [List.length_drop]; omega)
  have hblank : (Node.blank true).pointers.drop (maxKeyNum + 1 - splitLeaf) =
      List.replicate (splitLeaf - 1) none ++ none :: [] := by decide
  rw [List.drop_zero, hdrop] at hmid
  rw [hall, hblank] at hmid₂
  refine ⟨(rps.drop splitLeaf).map some, List.replicate (splitLeaf - 1) none, _, _, ?_, hmid, ?_,
    hmid₂, ?_, ?_, by simp; omega, by simp⟩
  · rw [← hRP, ← hlen]
    exact spread_slots hslots hi q
  · have hused : ((RP.take splitLeaf).map some ++ (rps.drop splitLeaf).map some).length =
        maxKeyNum := by
      simp
      omega
    rw [← List.append_assoc, List.getElem?_append_right hused.le, hused, Nat.sub_self]
    rfl
  · rw [← List.append_assoc, store_append_cons_of_eq none next [] ?_, List.append_assoc]
    simp
    omega
  · rw [← List.append_assoc, store_append_cons_of_eq next (some leaf) [] ?_, List.append_assoc]
    simp
    omega

/-- What splitting the array of keys does. -/
theorem splitLeaf_keys {slots : List Ptr} {kps : List Addr} {q : Addr} {i : Nat}
    (hslots : slots = kps.map some) (hlen : kps.length = maxKeyNum) (hi : i ≤ kps.length) :
    ∃ kj kj₂, spread slots i (some q) (maxKeyNum + 1) =
        some ((kps.take i ++ q :: kps.drop i).map some) ∧
      copyRange ((kps.take i ++ q :: kps.drop i).map some) 0 slots 0 splitLeaf =
        some (((kps.take i ++ q :: kps.drop i).take splitLeaf).map some ++ kj) ∧
      copyRange ((kps.take i ++ q :: kps.drop i).map some) splitLeaf (Node.blank true).keys 0
        (maxKeyNum + 1 - splitLeaf) =
        some (((kps.take i ++ q :: kps.drop i).drop splitLeaf).map some ++ kj₂) ∧
      kj.length = maxKeyNum - splitLeaf ∧ kj₂.length = splitLeaf - 1 := by
  have hfull : (kps.take i ++ q :: kps.drop i).length = maxKeyNum + 1 := by
    simp only [List.length_append, List.length_take, List.length_cons, List.length_drop]
    omega
  generalize hKP : kps.take i ++ q :: kps.drop i = KP at hfull
  have hcut : splitLeaf ≤ maxKeyNum := by decide
  have hmid := copyRange_slots KP slots 0 splitLeaf
    (by omega) (by simp [hslots]; omega)
  have hmid₂ := copyRange_slots KP (Node.blank true).keys splitLeaf
    (maxKeyNum + 1 - splitLeaf) (by omega) (by decide)
  have hall : (KP.drop splitLeaf).take (maxKeyNum + 1 - splitLeaf) = KP.drop splitLeaf :=
    List.take_of_length_le (by rw [List.length_drop]; omega)
  rw [List.drop_zero] at hmid
  rw [hall] at hmid₂
  refine ⟨_, _, ?_, hmid, hmid₂, ?_, by decide⟩
  · rw [← hKP, ← hlen]
    exact spread_slots (by rw [hslots, List.append_nil] : slots = kps.map some ++ []) hi q
  · rw [List.length_drop, hslots, List.length_map, hlen]

/-- Reading a list of cells at its front and at its back. -/
theorem map_take_eq {α β : Type} {f : α → β} {ps : List α} {ys : List β} (h : ps.map f = ys)
    (i : Nat) : (ps.take i).map f = ys.take i ∧ (ps.drop i).map f = ys.drop i := by
  rw [← h, List.map_take, List.map_drop]
  exact ⟨rfl, rfl⟩

/-- The heap after a new record, a new key and a new leaf, with `n₁` stored in the
leaf at `a` and `n₂` in the new one. -/
def splitLeafHeap (h : Heap) (a : Addr) (n₁ n₂ : Node) (key : CString) (file : FileRef) : Heap where
  nodes := Function.update (Function.update (Function.update h.nodes (h.brk + 2)
    (some (Node.blank true))) a (some n₁)) (h.brk + 2) (some n₂)
  strs := Function.update h.strs (h.brk + 1) (some key)
  recs := Function.update h.recs h.brk (some ⟨file⟩)
  brk := h.brk + 3

theorem splitLeafHeap_nodes {h : Heap} {a : Addr} (ha : a ≠ h.brk + 2) (n₁ n₂ : Node)
    (key : CString) (file : FileRef) : (splitLeafHeap h a n₁ n₂ key file).nodes =
      Function.update (entryHeap h a n₁ key file).nodes (h.brk + 2) (some n₂) := by
  simp only [splitLeafHeap, entryHeap]
  rw [Function.update_comm ha, Function.update_idem, Function.update_comm ha]

/-- A full leaf and a new one share the old entries and the new one. -/
theorem Rep.divideLeaf (hR : Rep own h F) {a : Addr} {c : TreeCell} (c₁ c₂ : TreeCell)
    {es₁ es₂ : List (CString × FileRef)} {next : Ptr} {n : Node} {kps rps : List Addr}
    (ha : F a = some c) (hpar : n.parent = c.par)
    (hl : LeafOK own h a n (es₁ ++ es₂) next kps rps) {key : CString}
    (hkey : key.strlen < maxKeyLen) (file : FileRef) {KP RP : List Addr} {kj kj₂ pj pj₂ : List Ptr}
    (hKP : KP = kps.take es₁.length ++ (h.brk + 1) :: kps.drop es₁.length)
    (hRP : RP = rps.take es₁.length ++ h.brk :: rps.drop es₁.length)
    (hlen : (es₁ ++ es₂).length = maxKeyNum)
    (hkj : kj.length = maxKeyNum - splitLeaf ∧ kj₂.length = splitLeaf - 1)
    (hpj : pj.length = maxKeyNum - splitLeaf ∧ pj₂.length = splitLeaf - 1)
    (hc₁ : c₁.par = c.par ∧
      c₁.body = .leaf ((es₁ ++ (key, file) :: es₂).take splitLeaf) (some (h.brk + 2)))
    (hc₂ : c₂.par = c.par ∧ c₂.body = .leaf ((es₁ ++ (key, file) :: es₂).drop splitLeaf) next) :
    ∃ own', Rep own' (splitLeafHeap h a
      { n with
        pointers := (RP.take splitLeaf).map some ++ (pj ++ [some (h.brk + 2)])
        keys := (KP.take splitLeaf).map some ++ kj
        numKeys := splitLeaf }
      { Node.blank true with
        pointers := (RP.drop splitLeaf).map some ++ (pj₂ ++ [next])
        keys := (KP.drop splitLeaf).map some ++ kj₂
        parent := n.parent
        numKeys := maxKeyNum + 1 - splitLeaf } key file)
      (Function.update (Function.update F a (some c₁)) (h.brk + 2) (some c₂)) := by
  obtain ⟨hstrs, hrecs, hownK, hownR⟩ := hR.entryLists hl key file
  rw [← hKP] at hstrs hownK
  rw [← hRP] at hrecs hownR
  obtain ⟨hstrs₁, hstrs₂⟩ := map_take_eq hstrs splitLeaf
  obtain ⟨hrecs₁, hrecs₂⟩ := map_take_eq hrecs splitLeaf
  rw [← List.map_take] at hstrs₁ hrecs₁
  rw [← List.map_drop] at hstrs₂ hrecs₂
  have hElen : (es₁ ++ (key, file) :: es₂).length = maxKeyNum + 1 := by
    rw [← hlen]
    simp
    omega
  have hKlen : KP.length = maxKeyNum + 1 := by
    rw [← hElen]
    simpa using congrArg List.length hstrs
  have hRlen : RP.length = maxKeyNum + 1 := by
    rw [← hElen]
    simpa using congrArg List.length hrecs
  have hcut : splitLeaf ≤ maxKeyNum ∧ 0 < splitLeaf := by decide
  have hmin : min splitLeaf (maxKeyNum + 1) = splitLeaf := Nat.min_eq_left (by omega)
  have ha2 : a ≠ h.brk + 2 := ((hR.lt_brk_of_cell ha).trans_le (Nat.le_add_right _ 2)).ne
  have hdisjoint : ∀ {ps : List Addr}, ps.Nodup → ∀ p ∈ ps.take splitLeaf,
    p ∉ ps.drop splitLeaf := by
    intro ps hps p hp hp'
    rw [← List.take_append_drop splitLeaf ps, List.nodup_append] at hps
    exact hps.2.2 p hp p hp' rfl
  have hsub₁ : ∀ {ps : List Addr}, (ps.take splitLeaf).Sublist ps := List.take_sublist ..
  have hsub₂ : ∀ {ps : List Addr}, (ps.drop splitLeaf).Sublist ps := List.drop_sublist ..
  generalize hown' : (⟨give (give own.key [h.brk + 1] a) (KP.drop splitLeaf) (h.brk + 2),
    give (give own.record [h.brk] a) (RP.drop splitLeaf) (h.brk + 2)⟩ : Owner) = own'
  have hgiveK : ∀ p, own.key p ≠ a → p ≠ h.brk + 1 → own'.key p = own.key p := by
    intro p hp hne
    have hnot : p ∉ [h.brk + 1] := by simpa using hne
    subst hown'
    refine (give_of_not_mem fun hmem => hp ?_).trans (give_of_not_mem hnot)
    rw [← hownK.2 p (hsub₂.subset hmem), give_of_not_mem hnot]
  have hgiveR : ∀ p, own.record p ≠ a → p ≠ h.brk → own'.record p = own.record p := by
    intro p hp hne
    have hnot : p ∉ [h.brk] := by simpa using hne
    subst hown'
    refine (give_of_not_mem fun hmem => hp ?_).trans (give_of_not_mem hnot)
    rw [← hownR.2 p (hsub₂.subset hmem), give_of_not_mem hnot]
  refine ⟨own', ?_⟩
  -- first the old leaf, which no longer has the upper entries, then the new one
  have hR₁ : Rep own' (entryHeap h a
      { n with
        pointers := (RP.take splitLeaf).map some ++ (pj ++ [some (h.brk + 2)])
        keys := (KP.take splitLeaf).map some ++ kj
        numKeys := splitLeaf } key file) (Function.update F a (some c₁)) := by
    refine hR.write (Nat.le_add_right _ 2)
      ((hR.lt_brk_of_cell ha).trans_le (Nat.le_add_right _ 2)) rfl ?_ (fun p s hp hs => ?_)
      (fun p r hp hr => ?_) (fun p s hs => ?_) (fun p r hr => ?_)
    · refine (nodeOK_leaf hc₁.2).mpr ⟨hpar.trans hc₁.1.symm, KP.take splitLeaf,
        RP.take splitLeaf, ?_⟩
      exact
        { isLeaf := hl.isLeaf
          numKeys := by
            rw [List.length_take, hElen]
            exact hmin.symm
          keys := ⟨kj, rfl⟩
          keysLen := by simp; omega
          pointers := ⟨pj, rfl⟩
          pointersLen := by simp; omega
          strs := hstrs₁
          recs := hrecs₁
          ownKey := by
            subst hown'
            exact (hownK.sublist hsub₁).congr fun p hp => give_of_not_mem (hdisjoint hownK.1 p hp)
          ownRec := by
            subst hown'
            exact (hownR.sublist hsub₁).congr fun p hp =>
              give_of_not_mem (hdisjoint hownR.1 p hp) }
    · have hne := hR.str_ne_fresh hs (Nat.le_succ h.brk)
      exact ⟨(Function.update_of_ne hne ..).trans hs, hgiveK p hp hne⟩
    · have hne := hR.rec_ne_fresh hr (le_refl h.brk)
      exact ⟨(Function.update_of_ne hne ..).trans hr, hgiveR p hp hne⟩
    · rcases update_some_cases hs with ⟨rfl, rfl⟩ | ⟨-, hs⟩
      · exact .inr ⟨Nat.lt_succ_self _, hkey⟩
      · exact .inl hs
    · rcases update_some_cases hr with ⟨rfl, -⟩ | ⟨-, hr⟩
      · exact .inr (Nat.lt_succ_of_lt (Nat.lt_succ_self _))
      · exact .inl hr
  refine hR₁.write (Nat.le_succ _) (Nat.lt_succ_self _) (splitLeafHeap_nodes ha2 ..) ?_
    (fun p s _ hs => ⟨hs, rfl⟩) (fun p r _ hr => ⟨hr, rfl⟩) (fun p s hs => .inl hs)
    (fun p r hr => .inl hr)
  · refine (nodeOK_leaf hc₂.2).mpr ⟨hpar.trans hc₂.1.symm, KP.drop splitLeaf,
      RP.drop splitLeaf, ?_⟩
    exact
      { isLeaf := rfl
        numKeys := by rw [List.length_drop, hElen]
        keys := ⟨kj₂, rfl⟩
        keysLen := by simp; omega
        pointers := ⟨pj₂, rfl⟩
        pointersLen := by simp; omega
        strs := hstrs₂
        recs := hrecs₂
        ownKey := by subst hown'; exact owned_give (hownK.1.sublist hsub₂)
        ownRec := by subst hown'; exact owned_give (hownR.1.sublist hsub₂) }

/-- `halveLeaf` puts the new entry into the leaf and splits it. -/
theorem halveLeaf_run (hR : Rep own h F)
    (hwf : TreeWF F root content none none) (hlevel : ∀ c, F root = some c → c.level < h.brk)
    {a : Addr} {c : TreeCell} {es₁ es₂ : List (CString × FileRef)} {next : Ptr} {n : Node}
    {kps rps : List Addr} (ha : F a = some c) (hb : c.body = .leaf (es₁ ++ es₂) next)
    (hn : h.nodes a = some n) (hpar : n.parent = c.par)
    (hl : LeafOK own h a n (es₁ ++ es₂) next kps rps) (hfull : n.numKeys = maxKeyNum)
    {key : CString} (hkey : key.strlen < maxKeyLen) (file : FileRef)
    (hrange : InRange c.lo c.hi key) (hlow : ∀ k ∈ es₁.map Prod.fst, k < key)
    (hhigh : ∀ k ∈ es₂.map Prod.fst, key < k) :
    ∃ own' G F' k kp n₀ n₁ n₂ h',
      halveLeaf a es₁.length key h.brk
          { h with recs := Function.update h.recs h.brk (some ⟨file⟩), brk := h.brk + 1 } =
        some ((h.brk + 2, kp), h') ∧
      Pending own' h' G F' root a (h.brk + 2) (Function.update content key (some file)) k kp
        n₀ n₁ n₂ ∧ n₀.level = c.level ∧ h.brk ≤ h'.brk ∧
        ∀ c', G root = some c' → c'.level < h.brk := by
  have hlen : (es₁ ++ es₂).length = maxKeyNum := hl.numKeys ▸ hfull
  have hElen : (es₁ ++ (key, file) :: es₂).length = maxKeyNum + 1 := by
    rw [← hlen]
    simp
    omega
  have hklen : kps.length = maxKeyNum := hl.keys_length.trans hlen
  have hrlen : rps.length = maxKeyNum := hl.recs_length.trans hlen
  have hi : es₁.length ≤ maxKeyNum := by rw [← hlen]; simp
  have hcut : splitLeaf ≤ maxKeyNum ∧ 0 < splitLeaf ∧ minKeyNum ≤ splitLeaf ∧
      minKeyNum + splitLeaf ≤ maxKeyNum + 1 := by decide
  -- the arrays of a full leaf have no slots to spare
  obtain ⟨kj₀, hkeys⟩ := hl.keys
  obtain ⟨pj₀, hps⟩ := hl.pointers
  have hkeysLen := hl.keysLen
  have hpsLen := hl.pointersLen
  rw [hkeys, List.length_append, List.length_map, hklen] at hkeysLen
  rw [hps, List.length_append, List.length_append, List.length_map, hrlen] at hpsLen
  have hkj₀ : kj₀ = [] := List.eq_nil_of_length_eq_zero (by omega)
  have hpj₀ : pj₀ = [] := List.eq_nil_of_length_eq_zero (by
    rw [List.length_singleton] at hpsLen
    omega)
  rw [hkj₀, List.append_nil] at hkeys
  rw [hpj₀, List.nil_append] at hps
  obtain ⟨kj, kj₂, hspreadK, hcopyK, hcopyK₂, hkj⟩ :=
    splitLeaf_keys (q := h.brk + 1) hkeys hklen (hi.trans hklen.ge)
  obtain ⟨pj, pj₂, mid, mid₂, hspreadP, hcopyP, hmid, hcopyP₂, hstoreP₂, hstoreP, hpj⟩ :=
    splitLeaf_pointers (q := h.brk) hps hrlen (hi.trans hrlen.ge) (h.brk + 2)
  obtain ⟨hstrs, -, -, -⟩ := hR.entryLists hl key file
  generalize hKP : kps.take es₁.length ++ (h.brk + 1) :: kps.drop es₁.length = KP at *
  generalize hRP : rps.take es₁.length ++ h.brk :: rps.drop es₁.length = RP at *
  have hKlen : KP.length = maxKeyNum + 1 := by
    rw [← hElen]
    simpa using congrArg List.length hstrs
  -- the first entry of the new leaf separates the two
  obtain ⟨⟨k, f⟩, rest, hE₂⟩ : ∃ e rest, (es₁ ++ (key, file) :: es₂).drop splitLeaf = e :: rest :=
    List.exists_cons_of_length_pos (by rw [List.length_drop, hElen]; omega)
  obtain ⟨kp, kprest, hK₂⟩ : ∃ kp rest, KP.drop splitLeaf = kp :: rest :=
    List.exists_cons_of_length_pos (by rw [List.length_drop, hKlen]; omega)
  have hE : es₁ ++ (key, file) :: es₂ =
      (es₁ ++ (key, file) :: es₂).take splitLeaf ++ (k, f) :: rest := by
    rw [← hE₂, List.take_append_drop]
  have hElen₁ : ((es₁ ++ (key, file) :: es₂).take splitLeaf).length = splitLeaf := by
    rw [List.length_take, hElen]
    omega
  have hElen₂ : rest.length + 1 = maxKeyNum + 1 - splitLeaf := by
    rw [← List.length_cons, ← hE₂, List.length_drop, hElen]
  obtain ⟨-, hholds, -⟩ := hwf.holds ha hb
  -- the tree with all five entries in the old leaf
  have hfat : TreeWF (Function.update F a (some { c with
      body := .leaf (es₁ ++ (key, file) :: es₂) next })) root
      (Function.update content key (some file)) none (some a) :=
    hwf.setLeaf (by decide) ha hb (by simp) (by simp) (hholds.insert hrange hlow hhigh)
    (fun q hq => Function.update_of_ne (by rintro rfl; exact hq hrange) ..)
    (by rw [hElen, minOf_none]; split <;> decide)
    (by rw [hElen, maxOf, if_pos rfl])
  have hnone : Function.update F a (some { c with
      body := .leaf (es₁ ++ (key, file) :: es₂) next }) (h.brk + 2) = none := by
    rw [Function.update_of_ne ((hR.lt_brk_of_cell ha).trans_le (Nat.le_add_right _ 2)).ne']
    exact hR.none_of_le (Nat.le_add_right _ 2)
  have hsplit := hfat.splitLeaf (by decide) (Function.update_self ..) (by rw [← hE]) hnone
    (by rw [hElen₁]; omega) (by rw [hElen₂]; omega)
  obtain ⟨own', hR'⟩ := hR.divideLeaf
    { c with
      hi := (k : WithTop CString)
      body := .leaf ((es₁ ++ (key, file) :: es₂).take splitLeaf) (some (h.brk + 2)) }
    { c with lo := (k : WithBot CString), body := .leaf ((k, f) :: rest) next }
    ha hpar hl hkey file hKP.symm hRP.symm hlen hkj hpj ⟨rfl, rfl⟩ ⟨rfl, by rw [hE₂]⟩
  have hparts : WF.cutLeaf (Function.update F a (some { c with
        body := .leaf (es₁ ++ (key, file) :: es₂) next })) a (h.brk + 2)
        { c with body := .leaf (es₁ ++ (key, file) :: es₂) next }
        ((es₁ ++ (key, file) :: es₂).take splitLeaf) k ((k, f) :: rest) next =
      Function.update (Function.update F a (some { c with
        hi := (k : WithTop CString)
        body := .leaf ((es₁ ++ (key, file) :: es₂).take splitLeaf) (some (h.brk + 2)) }))
        (h.brk + 2) (some { c with
          lo := (k : WithBot CString), body := .leaf ((k, f) :: rest) next }) := by
    rw [WF.cutLeaf, Function.update_idem]
  rw [← hparts] at hR'
  have hstrs₂ := (map_take_eq hstrs splitLeaf).2
  rw [hK₂, ← List.map_drop, hE₂, List.map_cons, List.map_cons, List.cons.injEq] at hstrs₂
  have hroot : ∀ c', Function.update F a (some { c with
      body := .leaf (es₁ ++ (key, file) :: es₂) next }) root = some c' → c'.level < h.brk := by
    intro c' hc'
    by_cases hra : root = a
    · subst hra
      rw [Function.update_self] at hc'
      cases hc'
      exact hlevel c ha
    · rw [Function.update_of_ne hra] at hc'
      exact hlevel c' hc'
  refine ⟨own', _, _, k, kp, _, _, _, _, ?_, ⟨hR', hfat, hsplit, hstrs₂.1, fun c' hc' =>
    (hroot c' hc').trans_le (Nat.le_add_right _ 3)⟩, rfl, Nat.le_add_right _ 3, hroot⟩
  · have hfirst : (KP.drop splitLeaf).map some ++ kj₂ = some kp :: (kprest.map some ++ kj₂) := by
      rw [hK₂, List.map_cons, List.cons_append]
    have hne : a ≠ h.brk + 2 := ((hR.lt_brk_of_cell ha).trans_le (Nat.le_add_right _ 2)).ne
    simp only [halveLeaf, CM.bind_run, CM.andThen_some, CM.liftM_run,
      readNode, CM.query_run, hn, Option.map_some, hspreadP, newKey_run hkey, hspreadK, hcopyP,
      hcopyK, makeNewLeaf, allocNode_run, Nat.add_assoc, Nat.reduceAdd, Function.update_self,
      hcopyP₂, hcopyK₂, hmid, hstoreP₂, hstoreP, writeNode, Function.update_of_ne hne,
      Function.update_of_ne hne.symm, Option.isSome_some, if_true, hfirst, List.getElem?_cons_zero,
      deref_some, CM.pure_run]
    rfl

/-- Up to its call of `insertIntoParent`, `insertIntoLeafAfterSplitting` puts the
new entry into the leaf and splits it. -/
theorem insertIntoLeafAfterSplitting_run (hR : Rep own h F)
    (hwf : TreeWF F root content none none) (hlevel : ∀ c, F root = some c → c.level < h.brk)
    {a : Addr} {c : TreeCell} {es₁ es₂ : List (CString × FileRef)} {next : Ptr} {n : Node}
    {kps rps : List Addr} (ha : F a = some c) (hb : c.body = .leaf (es₁ ++ es₂) next)
    (hn : h.nodes a = some n) (hpar : n.parent = c.par)
    (hl : LeafOK own h a n (es₁ ++ es₂) next kps rps) (hfull : n.numKeys = maxKeyNum)
    {key : CString} (hkey : key.strlen < maxKeyLen) (file : FileRef)
    (hrange : InRange c.lo c.hi key) (hlow : ∀ k ∈ es₁.map Prod.fst, k < key)
    (hhigh : ∀ k ∈ es₂.map Prod.fst, key < k) (fuel : Nat) :
    ∃ own' G F' k kp n₀ n₁ n₂ h',
      insertIntoLeafAfterSplitting fuel root a es₁.length key h.brk
          { h with recs := Function.update h.recs h.brk (some ⟨file⟩), brk := h.brk + 1 } =
        insertIntoParent fuel root a (h.brk + 2) kp h' ∧
      Pending own' h' G F' root a (h.brk + 2) (Function.update content key (some file)) k kp
        n₀ n₁ n₂ ∧ n₀.level = c.level ∧ h.brk ≤ h'.brk ∧
        ∀ c', G root = some c' → c'.level < h.brk := by
  obtain ⟨own', G, F', k, kp, n₀, n₁, n₂, h', hrun, hrest⟩ :=
    halveLeaf_run hR hwf hlevel ha hb hn hpar hl hfull hkey file hrange hlow hhigh
  refine ⟨own', G, F', k, kp, n₀, n₁, n₂, h', ?_, hrest⟩
  rw [insertIntoLeafAfterSplitting_eq, CM.bind_run_of hrun]

end Nbfs.BplusTree
