import Nbfs.BplusTree.Ops
import Nbfs.Lib.Merge

set_option autoImplicit false

/-!
# What a heap represents

`Rep own h F` says that the nodes of `h` are the cells of the forest `F`: the
used slots of a node's arrays hold the key buffers and records whose contents
the cell lists, or its children, and every key buffer and record belongs to one
node, its owner.  The ghost parts of a cell, its height and range, play no role
here; the forest need not even be a tree.
-/

namespace Nbfs.BplusTree

open Nbfs.Lib Nbfs.Lib.Forest

/-- A node of the tree, seen as a cell. -/
abbrev TreeCell := Cell CString FileRef

/-- The nodes of the tree, seen as cells. -/
abbrev Tree := Forest CString FileRef

/-- The node each key buffer and each record belongs to. -/
structure Owner where
  key : Addr → Addr
  record : Addr → Addr

/-- `ps` are different addresses, all owned by `a`. -/
def Owned (own : Addr → Addr) (a : Addr) (ps : List Addr) : Prop :=
  ps.Nodup ∧ ∀ p ∈ ps, own p = a

/-- The addresses `ps` pass to `a`. -/
def give (own : Addr → Addr) (ps : List Addr) (a : Addr) : Addr → Addr := fun p =>
  if p ∈ ps then a else own p

/-- A leaf with the entries `es` and the next leaf `next`. -/
structure LeafOK (own : Owner) (h : Heap) (a : Addr) (n : Node) (es : List (CString × FileRef))
    (next : Ptr) (kps rps : List Addr) : Prop where
  isLeaf : n.isLeaf = true
  numKeys : n.numKeys = es.length
  keys : ∃ kj, n.keys = kps.map some ++ kj
  keysLen : n.keys.length = maxKeyNum
  pointers : ∃ pj, n.pointers = rps.map some ++ (pj ++ [next])
  pointersLen : n.pointers.length = maxKeyNum + 1
  strs : kps.map h.strs = es.map fun e => some e.1
  recs : rps.map h.recs = es.map fun e => some ⟨e.2⟩
  ownKey : Owned own.key a kps
  ownRec : Owned own.record a rps

/-- An inner node with the separators `ks` and the children `cs`. -/
structure InnerOK (own : Owner) (h : Heap) (a : Addr) (n : Node) (ks : List CString)
    (cs : List Addr) (kps : List Addr) : Prop where
  isLeaf : n.isLeaf = false
  numKeys : n.numKeys = ks.length
  children : cs.length = ks.length + 1
  keys : ∃ kj, n.keys = kps.map some ++ kj
  keysLen : n.keys.length = maxKeyNum
  pointers : ∃ pj, n.pointers = cs.map some ++ pj
  pointersLen : n.pointers.length = maxKeyNum + 1
  strs : kps.map h.strs = ks.map some
  ownKey : Owned own.key a kps

/-- The node `n` at `a` shows the cell `c`. -/
def NodeOK (own : Owner) (h : Heap) (a : Addr) (n : Node) (c : TreeCell) : Prop :=
  n.parent = c.par ∧
    match c.body with
    | .leaf es next => ∃ kps rps, LeafOK own h a n es next kps rps
    | .inner ks cs => ∃ kps, InnerOK own h a n ks cs kps

/-- The heap holds the nodes of `F`, and nothing at addresses not handed out. -/
structure Rep (own : Owner) (h : Heap) (F : Tree) : Prop where
  cell : ∀ a c, F a = some c → ∃ n, h.nodes a = some n ∧ NodeOK own h a n c
  free : ∀ a, F a = none → h.nodes a = none
  fresh : ∀ a, h.brk ≤ a → h.nodes a = none ∧ h.strs a = none ∧ h.recs a = none
  short : ∀ p s, h.strs p = some s → s.strlen < maxKeyLen

/-! ## Owners -/

section Owned

variable {own own' : Addr → Addr} {a b : Addr} {ps qs : List Addr}

theorem Owned.sublist (h : Owned own a ps) (hs : qs.Sublist ps) : Owned own a qs :=
  ⟨h.1.sublist hs, fun p hp => h.2 p (hs.subset hp)⟩

theorem Owned.congr (h : Owned own a ps) (heq : ∀ p ∈ ps, own' p = own p) : Owned own' a ps :=
  ⟨h.1, fun p hp => (heq p hp).trans (h.2 p hp)⟩

theorem Owned.disjoint (h : Owned own a ps) (h' : Owned own b qs) (hab : a ≠ b) :
    ∀ p ∈ ps, p ∉ qs := fun p hp hq => hab ((h.2 p hp).symm.trans (h'.2 p hq))

theorem give_of_mem {p : Addr} (hp : p ∈ ps) : give own ps a p = a := by
  simp [give, hp]

theorem give_of_not_mem {p : Addr} (hp : p ∉ ps) : give own ps a p = own p := by
  simp [give, hp]

/-- Two lists of one owner that share nothing belong to it together. -/
theorem Owned.append (h : Owned own a ps) (h' : Owned own a qs) (hdisj : ∀ p ∈ ps, p ∉ qs) :
    Owned own a (ps ++ qs) := by
  refine ⟨List.nodup_append.mpr ⟨h.1, h'.1, ?_⟩, fun p hp => ?_⟩
  · rintro p hp q hq rfl
    exact hdisj p hp hq
  · exact (List.mem_append.mp hp).elim (h.2 p) (h'.2 p)

theorem Owned.perm (h : Owned own a ps) (hp : qs.Perm ps) : Owned own a qs :=
  ⟨hp.nodup_iff.mpr h.1, fun p hq => h.2 p (hp.mem_iff.mp hq)⟩

/-- What `a` is given and what it has. -/
theorem Owned.give_append (h : Owned own a ps) (hq : qs.Nodup) (hdisj : ∀ p ∈ ps, p ∉ qs) :
    Owned (give own qs a) a (ps ++ qs) :=
  Owned.append (h.congr fun p hp => give_of_not_mem (hdisj p hp))
    ⟨hq, fun _ hp => give_of_mem hp⟩ hdisj

theorem owned_give (hq : qs.Nodup) : Owned (give own qs a) a qs :=
  ⟨hq, fun _ hp => give_of_mem hp⟩

end Owned

/-! ## Adopting children -/

/-- The nodes of `cs` with the parent `owner`. -/
def adoptNodes (nodes : Addr → Option Node) (cs : List Addr) (owner : Addr) : Addr → Option Node :=
  fun a => if a ∈ cs then (nodes a).map fun n => { n with parent := some owner } else nodes a

theorem adoptNodes_of_mem {nodes : Addr → Option Node} {cs : List Addr} {owner a : Addr} {n : Node}
    (ha : a ∈ cs) (hn : nodes a = some n) :
    adoptNodes nodes cs owner a = some { n with parent := some owner } := by
  simp [adoptNodes, ha, hn]

theorem adoptNodes_of_not_mem {nodes : Addr → Option Node} {cs : List Addr} {owner a : Addr}
    (ha : a ∉ cs) : adoptNodes nodes cs owner a = nodes a := by
  simp [adoptNodes, ha]

theorem adoptNodes_cons {nodes : Addr → Option Node} {cs : List Addr} {owner a : Addr} {n : Node}
    (hn : nodes a = some n) : adoptNodes (Function.update nodes a
      (some { n with parent := some owner })) cs owner = adoptNodes nodes (a :: cs) owner := by
  funext b
  unfold adoptNodes
  by_cases hba : b = a
  · subst hba
    simp [hn]
  · simp [hba]

/-- `adoptChildren` over the slots that hold `cs`. -/
theorem adoptChildren_run (owner : Addr) (pointers post : List Ptr) :
    ∀ (cs : List Addr) (pre : List Ptr) {h : Heap}, (∀ c ∈ cs, ∃ n, h.nodes c = some n) →
      pointers = pre ++ (cs.map some ++ post) →
      adoptChildren owner pointers pre.length cs.length h =
        some ((), { h with nodes := adoptNodes h.nodes cs owner })
  | [], _, h, _, _ => by
      have hnodes : adoptNodes h.nodes [] owner = h.nodes := by
        funext a
        simp [adoptNodes]
      rw [hnodes]
      rfl
  | a :: cs, pre, h, hcells, hps => by
      obtain ⟨n, hn⟩ := hcells a (by simp)
      have hget : pointers[pre.length]? = some (some a) := by
        rw [hps]
        simp
      have hrec := adoptChildren_run owner pointers post cs (pre ++ [some a])
        (h := { h with
          nodes := Function.update h.nodes a (some { n with parent := some owner }) })
        (fun b hb => by
          by_cases hba : b = a
          · subst hba
            exact ⟨_, Function.update_self ..⟩
          · obtain ⟨m, hm⟩ := hcells b (List.mem_cons_of_mem _ hb)
            exact ⟨m, (Function.update_of_ne hba ..).trans hm⟩)
        (by simp [hps])
      rw [List.length_append, List.length_singleton, adoptNodes_cons hn] at hrec
      simp only [List.length_cons, adoptChildren, CM.bind_run, CM.liftM_run, hget,
        Option.map_some, CM.andThen_some, deref_some, setParent_run (some owner) hn, hrec]

/-! ## Cells and their nodes -/

section NodeOK

variable {own own' : Owner} {h h' : Heap} {a : Addr} {n : Node} {c c' : TreeCell}

theorem nodeOK_leaf {es : List (CString × FileRef)} {next : Ptr} (hb : c.body = .leaf es next) :
    NodeOK own h a n c ↔ n.parent = c.par ∧ ∃ kps rps, LeafOK own h a n es next kps rps := by
  simp [NodeOK, hb]

theorem nodeOK_inner {ks : List CString} {cs : List Addr} (hb : c.body = .inner ks cs) :
    NodeOK own h a n c ↔ n.parent = c.par ∧ ∃ kps, InnerOK own h a n ks cs kps := by
  simp [NodeOK, hb]

theorem LeafOK.keys_length {es : List (CString × FileRef)} {next : Ptr} {kps rps : List Addr}
    (hl : LeafOK own h a n es next kps rps) : kps.length = es.length := by
  simpa using congrArg List.length hl.strs

theorem LeafOK.recs_length {es : List (CString × FileRef)} {next : Ptr} {kps rps : List Addr}
    (hl : LeafOK own h a n es next kps rps) : rps.length = es.length := by
  simpa using congrArg List.length hl.recs

theorem InnerOK.keys_length {ks : List CString} {cs kps : List Addr}
    (hi : InnerOK own h a n ks cs kps) : kps.length = ks.length := by
  simpa using congrArg List.length hi.strs

/-- A leaf whose arrays are written anew. -/
theorem LeafOK.of_slots {es : List (CString × FileRef)} {next : Ptr} {kps rps : List Addr}
    (kj pj : List Ptr) {num : Nat} (hleaf : n.isLeaf = true) (hnum : num = es.length)
    (hkj : kps.length + kj.length = maxKeyNum) (hpj : rps.length + pj.length = maxKeyNum)
    (hstrs : kps.map h.strs = es.map fun e => some e.1)
    (hrecs : rps.map h.recs = es.map fun e => some ⟨e.2⟩) (hownK : Owned own.key a kps)
    (hownR : Owned own.record a rps) :
    LeafOK own h a { n with
      pointers := rps.map some ++ (pj ++ [next])
      keys := kps.map some ++ kj
      numKeys := num } es next kps rps where
  isLeaf := hleaf
  numKeys := hnum
  keys := ⟨kj, rfl⟩
  keysLen := by rw [List.length_append, List.length_map, hkj]
  pointers := ⟨pj, rfl⟩
  pointersLen := by
    rw [List.length_append, List.length_map, List.length_append, List.length_singleton,
      ← Nat.add_assoc, hpj]
  strs := hstrs
  recs := hrecs
  ownKey := hownK
  ownRec := hownR

/-- An inner node whose arrays are written anew. -/
theorem InnerOK.of_slots {ks : List CString} {cs kps : List Addr} (kj pj : List Ptr) {num : Nat}
    (hinner : n.isLeaf = false) (hnum : num = ks.length) (hchildren : cs.length = ks.length + 1)
    (hkj : kps.length + kj.length = maxKeyNum) (hpj : cs.length + pj.length = maxKeyNum + 1)
    (hstrs : kps.map h.strs = ks.map some) (hownK : Owned own.key a kps) :
    InnerOK own h a { n with
      pointers := cs.map some ++ pj
      keys := kps.map some ++ kj
      numKeys := num } ks cs kps where
  isLeaf := hinner
  numKeys := hnum
  children := hchildren
  keys := ⟨kj, rfl⟩
  keysLen := by rw [List.length_append, List.length_map, hkj]
  pointers := ⟨pj, rfl⟩
  pointersLen := by rw [List.length_append, List.length_map, hpj]
  strs := hstrs
  ownKey := hownK

/-- Only the keys and records of the heap are looked at. -/
theorem LeafOK.of_heap {es : List (CString × FileRef)} {next : Ptr} {kps rps : List Addr}
    (hl : LeafOK own h a n es next kps rps) (hstrs : h'.strs = h.strs) (hrecs : h'.recs = h.recs) :
    LeafOK own h' a n es next kps rps :=
  { hl with
    strs := by rw [hstrs, hl.strs]
    recs := by rw [hrecs, hl.recs] }

theorem InnerOK.of_heap {ks : List CString} {cs kps : List Addr}
    (hi : InnerOK own h a n ks cs kps) (hstrs : h'.strs = h.strs) :
    InnerOK own h' a n ks cs kps :=
  { hi with strs := by rw [hstrs, hi.strs] }

theorem LeafOK.keys_room {es : List (CString × FileRef)} {next : Ptr} {kps rps : List Addr}
    {kj : List Ptr} (hl : LeafOK own h a n es next kps rps) (hkeys : n.keys = kps.map some ++ kj) :
    kps.length + kj.length = maxKeyNum := by
  have hlen := hl.keysLen
  rwa [hkeys, List.length_append, List.length_map] at hlen

theorem LeafOK.recs_room {es : List (CString × FileRef)} {next : Ptr} {kps rps : List Addr}
    {pj : List Ptr} (hl : LeafOK own h a n es next kps rps)
    (hps : n.pointers = rps.map some ++ (pj ++ [next])) : rps.length + pj.length = maxKeyNum := by
  have hlen := hl.pointersLen
  rw [hps, List.length_append, List.length_map, List.length_append, List.length_singleton,
    ← Nat.add_assoc] at hlen
  exact Nat.add_right_cancel hlen

/-- The last slot of a leaf is its next pointer. -/
theorem LeafOK.next_slot {es : List (CString × FileRef)} {next : Ptr} {kps rps : List Addr}
    (hl : LeafOK own h a n es next kps rps) : n.pointers[maxKeyNum]? = some next := by
  obtain ⟨pj, hps⟩ := hl.pointers
  have hlen : (rps.map some ++ pj).length = maxKeyNum := by
    rw [List.length_append, List.length_map]
    exact hl.recs_room hps
  rw [hps, ← List.append_assoc, List.getElem?_append_right hlen.le, hlen, Nat.sub_self]
  rfl

theorem InnerOK.keys_room {ks : List CString} {cs kps : List Addr} {kj : List Ptr}
    (hi : InnerOK own h a n ks cs kps) (hkeys : n.keys = kps.map some ++ kj) :
    kps.length + kj.length = maxKeyNum := by
  have hlen := hi.keysLen
  rwa [hkeys, List.length_append, List.length_map] at hlen

theorem InnerOK.kids_room {ks : List CString} {cs kps : List Addr} {pj : List Ptr}
    (hi : InnerOK own h a n ks cs kps) (hps : n.pointers = cs.map some ++ pj) :
    cs.length + pj.length = maxKeyNum + 1 := by
  have hlen := hi.pointersLen
  rwa [hps, List.length_append, List.length_map] at hlen

/-- The parent of a node is not among what its arrays show. -/
theorem NodeOK.setParent (hn : NodeOK own h a n c) (p : Ptr) (hstrs : h'.strs = h.strs)
    (hrecs : h'.recs = h.recs) :
    NodeOK own h' a { n with parent := p } { c with par := p } := by
  cases hb : c.body with
  | leaf es next =>
      obtain ⟨-, kps, rps, hl⟩ := (nodeOK_leaf hb).mp hn
      refine (nodeOK_leaf rfl).mpr ⟨rfl, kps, rps, { hl with strs := ?_, recs := ?_ }⟩
      · rw [hstrs]
        exact hl.strs
      · rw [hrecs]
        exact hl.recs
  | inner ks cs =>
      obtain ⟨-, kps, hi⟩ := (nodeOK_inner hb).mp hn
      refine (nodeOK_inner rfl).mpr ⟨rfl, kps, { hi with strs := ?_ }⟩
      rw [hstrs]
      exact hi.strs

/-- Keys and records that stay where they are leave a node as it is. -/
theorem NodeOK.frame (hn : NodeOK own h a n c)
    (hstrs : ∀ p s, own.key p = a → h.strs p = some s →
      h'.strs p = some s ∧ own'.key p = a)
    (hrecs : ∀ p r, own.record p = a → h.recs p = some r →
      h'.recs p = some r ∧ own'.record p = a)
    (hc : c'.par = c.par ∧ c'.body = c.body) : NodeOK own' h' a n c' := by
  have hkeys : ∀ {kps : List Addr} {ks : List CString}, Owned own.key a kps →
      kps.map h.strs = ks.map some → kps.map h'.strs = ks.map some ∧ Owned own'.key a kps := by
    intro kps ks hown hmap
    have hstr : ∀ p ∈ kps, ∃ s, h.strs p = some s := by
      intro p hp
      have hmem : h.strs p ∈ ks.map some := hmap ▸ List.mem_map_of_mem hp
      obtain ⟨s, -, hs⟩ := List.mem_map.mp hmem
      exact ⟨s, hs.symm⟩
    refine ⟨?_, hown.1, fun p hp => ?_⟩
    · rw [← hmap]
      refine List.map_congr_left fun p hp => ?_
      obtain ⟨s, hs⟩ := hstr p hp
      rw [hs, (hstrs p s (hown.2 p hp) hs).1]
    · obtain ⟨s, hs⟩ := hstr p hp
      exact (hstrs p s (hown.2 p hp) hs).2
  cases hb : c.body with
  | leaf es next =>
      obtain ⟨hpar, kps, rps, hl⟩ := (nodeOK_leaf hb).mp hn
      obtain ⟨hmap, hown⟩ := hkeys hl.ownKey (by rw [hl.strs, List.map_map]; rfl :
        kps.map h.strs = (es.map Prod.fst).map some)
      have hrec : ∀ p ∈ rps, ∃ r, h.recs p = some r := by
        intro p hp
        have hmem : h.recs p ∈ es.map fun e => some (⟨e.2⟩ : Record) :=
          hl.recs ▸ List.mem_map_of_mem hp
        obtain ⟨e, -, he⟩ := List.mem_map.mp hmem
        exact ⟨_, he.symm⟩
      refine (nodeOK_leaf (hc.2.trans hb)).mpr ⟨hpar.trans hc.1.symm, kps, rps,
        { hl with strs := ?_, recs := ?_, ownKey := hown, ownRec := ⟨hl.ownRec.1, fun p hp => ?_⟩ }⟩
      · rw [hmap, List.map_map]
        rfl
      · rw [← hl.recs]
        refine List.map_congr_left fun p hp => ?_
        obtain ⟨r, hr⟩ := hrec p hp
        rw [hr, (hrecs p r (hl.ownRec.2 p hp) hr).1]
      · obtain ⟨r, hr⟩ := hrec p hp
        exact (hrecs p r (hl.ownRec.2 p hp) hr).2
  | inner ks cs =>
      obtain ⟨hpar, kps, hi⟩ := (nodeOK_inner hb).mp hn
      obtain ⟨hmap, hown⟩ := hkeys hi.ownKey hi.strs
      exact (nodeOK_inner (hc.2.trans hb)).mpr ⟨hpar.trans hc.1.symm, kps,
        { hi with strs := hmap, ownKey := hown }⟩

end NodeOK

namespace Rep

variable {own own' : Owner} {h h' : Heap} {F F' : Tree}

theorem leaf (hR : Rep own h F) {a : Addr} {c : TreeCell} {es : List (CString × FileRef)}
    {next : Ptr} (ha : F a = some c) (hb : c.body = .leaf es next) :
    ∃ n kps rps, h.nodes a = some n ∧ n.parent = c.par ∧ LeafOK own h a n es next kps rps := by
  obtain ⟨n, hn, hok⟩ := hR.cell a c ha
  obtain ⟨hpar, kps, rps, hl⟩ := (nodeOK_leaf hb).mp hok
  exact ⟨n, kps, rps, hn, hpar, hl⟩

theorem inner (hR : Rep own h F) {a : Addr} {c : TreeCell} {ks : List CString} {cs : List Addr}
    (ha : F a = some c) (hb : c.body = .inner ks cs) :
    ∃ n kps, h.nodes a = some n ∧ n.parent = c.par ∧ InnerOK own h a n ks cs kps := by
  obtain ⟨n, hn, hok⟩ := hR.cell a c ha
  obtain ⟨hpar, kps, hi⟩ := (nodeOK_inner hb).mp hok
  exact ⟨n, kps, hn, hpar, hi⟩

theorem lt_brk_of_cell (hR : Rep own h F) {a : Addr} {c : TreeCell} (ha : F a = some c) :
    a < h.brk := by
  by_contra hle
  obtain ⟨n, hn, -⟩ := hR.cell a c ha
  rw [(hR.fresh a (not_lt.mp hle)).1] at hn
  cases hn

theorem lt_brk_of_str (hR : Rep own h F) {p : Addr} {s : CString} (hp : h.strs p = some s) :
    p < h.brk := by
  by_contra hle
  rw [(hR.fresh p (not_lt.mp hle)).2.1] at hp
  cases hp

theorem lt_brk_of_rec (hR : Rep own h F) {p : Addr} {r : Record} (hp : h.recs p = some r) :
    p < h.brk := by
  by_contra hle
  rw [(hR.fresh p (not_lt.mp hle)).2.2] at hp
  cases hp

/-- A change that touches the cells in `S`, their keys and their records only. -/
theorem update (hR : Rep own h F) (S : Addr → Prop)
    (hfresh : ∀ a, h'.brk ≤ a → h'.nodes a = none ∧ h'.strs a = none ∧ h'.recs a = none)
    (hshort : ∀ p s, h'.strs p = some s → s.strlen < maxKeyLen)
    (hcell : ∀ a c, S a → F' a = some c → ∃ n, h'.nodes a = some n ∧ NodeOK own' h' a n c)
    (hnone : ∀ a, S a → F' a = none → h'.nodes a = none)
    (hsame : ∀ a, ¬ S a → h'.nodes a = h.nodes a ∧ F' a = F a)
    (hstrs : ∀ p s, ¬ S (own.key p) → h.strs p = some s →
      h'.strs p = some s ∧ own'.key p = own.key p)
    (hrecs : ∀ p r, ¬ S (own.record p) → h.recs p = some r →
      h'.recs p = some r ∧ own'.record p = own.record p) :
    Rep own' h' F' where
  cell := by
    intro a c hc
    by_cases hS : S a
    · exact hcell a c hS hc
    · obtain ⟨hnodes, hF⟩ := hsame a hS
      obtain ⟨n, hn, hok⟩ := hR.cell a c (hF ▸ hc)
      refine ⟨n, hnodes.trans hn, hok.frame (fun p s hp hs => ?_) (fun p r hp hr => ?_) ⟨rfl, rfl⟩⟩
      · obtain ⟨hs', ho⟩ := hstrs p s (hp ▸ hS) hs
        exact ⟨hs', ho.trans hp⟩
      · obtain ⟨hr', ho⟩ := hrecs p r (hp ▸ hS) hr
        exact ⟨hr', ho.trans hp⟩
  free := by
    intro a ha
    by_cases hS : S a
    · exact hnone a hS ha
    · obtain ⟨hnodes, hF⟩ := hsame a hS
      exact hnodes.trans (hR.free a (hF ▸ ha))
  fresh := hfresh
  short := hshort

/-- A new node, or new contents in an old one.  Keys and records of other nodes
stay, and new ones are at addresses handed out. -/
theorem write (hR : Rep own h F) {a : Addr} {n : Node} {c : TreeCell} (hbrk : h.brk ≤ h'.brk)
    (ha : a < h'.brk) (hnodes : h'.nodes = Function.update h.nodes a (some n))
    (hok : NodeOK own' h' a n c)
    (hstrs : ∀ p s, own.key p ≠ a → h.strs p = some s →
      h'.strs p = some s ∧ own'.key p = own.key p)
    (hrecs : ∀ p r, own.record p ≠ a → h.recs p = some r →
      h'.recs p = some r ∧ own'.record p = own.record p)
    (hnewStrs : ∀ p s, h'.strs p = some s → h.strs p = some s ∨ p < h'.brk ∧ s.strlen < maxKeyLen)
    (hnewRecs : ∀ p r, h'.recs p = some r → h.recs p = some r ∨ p < h'.brk) :
    Rep own' h' (Function.update F a (some c)) := by
  refine hR.update (· = a) (fun b hb => ⟨?_, ?_, ?_⟩) (fun p s hs => ?_) ?_ ?_ ?_ hstrs hrecs
  · have hba : b ≠ a := fun heq => absurd ha (not_lt.mpr (heq ▸ hb))
    rw [hnodes, Function.update_of_ne hba]
    exact (hR.fresh b (hbrk.trans hb)).1
  · cases hs : h'.strs b with
    | none => rfl
    | some s =>
        rcases hnewStrs b s hs with hold | ⟨hlt, -⟩
        · exact absurd (hR.lt_brk_of_str hold) (not_lt.mpr (hbrk.trans hb))
        · exact absurd hlt (not_lt.mpr hb)
  · cases hr : h'.recs b with
    | none => rfl
    | some r =>
        rcases hnewRecs b r hr with hold | hlt
        · exact absurd (hR.lt_brk_of_rec hold) (not_lt.mpr (hbrk.trans hb))
        · exact absurd hlt (not_lt.mpr hb)
  · rcases hnewStrs p s hs with hold | ⟨-, hlen⟩
    · exact hR.short p s hold
    · exact hlen
  · rintro b c' rfl hc'
    rw [Function.update_self] at hc'
    cases hc'
    exact ⟨n, by rw [hnodes, Function.update_self], hok⟩
  · rintro b rfl hb
    rw [Function.update_self] at hb
    cases hb
  · intro b hb
    exact ⟨by rw [hnodes, Function.update_of_ne hb], Function.update_of_ne hb ..⟩

/-! ## Steps that leave the arrays alone -/

/-- Storing a node again with another parent. -/
theorem setParent (hR : Rep own h F) {a : Addr} {c : TreeCell} (ha : F a = some c) (p : Ptr) :
    ∃ h', BplusTree.setParent a p h = some ((), h') ∧
      Rep own h' (Function.update F a (some { c with par := p })) ∧ h'.brk = h.brk ∧
        h'.strs = h.strs ∧ h'.recs = h.recs := by
  obtain ⟨n, hn, hok⟩ := hR.cell a c ha
  refine ⟨_, setParent_run p hn, ?_, rfl, rfl, rfl⟩
  exact hR.write le_rfl (hR.lt_brk_of_cell ha) rfl (hok.setParent p rfl rfl)
    (fun q s _ hs => ⟨hs, rfl⟩)
    (fun q r _ hr => ⟨hr, rfl⟩) (fun q s hs => .inl hs) (fun q r hr => .inl hr)

/-- The cells of `cs` get the parent `owner`. -/
theorem adopt (hR : Rep own h F) {cs : List Addr} (hcells : ∀ c ∈ cs, ∃ n, F c = some n)
    (owner : Addr) : Rep own { h with nodes := adoptNodes h.nodes cs owner }
      (Forest.adopt F cs owner) := by
  refine hR.update (· ∈ cs) (fun a ha => ?_) hR.short ?_ ?_ ?_ (fun q s _ hs => ⟨hs, rfl⟩)
    (fun q r _ hr => ⟨hr, rfl⟩)
  · obtain ⟨hnodes, hrest⟩ := hR.fresh a ha
    refine ⟨?_, hrest⟩
    have hnot : a ∉ cs := fun hmem => by
      obtain ⟨n, hn⟩ := hcells a hmem
      exact absurd (hR.lt_brk_of_cell hn) (not_lt.mpr ha)
    exact (adoptNodes_of_not_mem hnot).trans hnodes
  · intro a c' ha hc'
    obtain ⟨c, hc⟩ := hcells a ha
    rw [adopt_of_mem ha hc] at hc'
    cases hc'
    obtain ⟨n, hn, hok⟩ := hR.cell a c hc
    exact ⟨_, adoptNodes_of_mem ha hn, hok.setParent _ rfl rfl⟩
  · intro a ha hnone
    obtain ⟨c, hc⟩ := hcells a ha
    rw [adopt_of_mem ha hc] at hnone
    cases hnone
  · exact fun a ha => ⟨adoptNodes_of_not_mem ha, adopt_of_not_mem ha⟩

/-- A node that goes may leave its keys and records to others. -/
theorem release (hR : Rep own h F) (own' : Owner) {a : Addr} {c : TreeCell} (ha : F a = some c)
    (hkey : ∀ p, own.key p ≠ a → own'.key p = own.key p)
    (hrec : ∀ p, own.record p ≠ a → own'.record p = own.record p) :
    Rep own' { h with nodes := Function.update h.nodes a none } (Function.update F a none) := by
  refine hR.update (· = a) (fun b hb => ?_) hR.short ?_ ?_ ?_ (fun q s hq hs => ⟨hs, hkey q hq⟩)
    (fun q r hq hr => ⟨hr, hrec q hq⟩)
  · obtain ⟨hnodes, hrest⟩ := hR.fresh b hb
    refine ⟨?_, hrest⟩
    have hba : b ≠ a := fun heq => absurd (hR.lt_brk_of_cell ha) (not_lt.mpr (heq ▸ hb))
    simp only [Function.update_of_ne hba, hnodes]
  · rintro b c' rfl hc'
    rw [Function.update_self] at hc'
    cases hc'
  · rintro b rfl _
    exact Function.update_self ..
  · intro b hb
    exact ⟨Function.update_of_ne hb .., Function.update_of_ne hb ..⟩

/-- Destroying a node. -/
theorem destroyNode (hR : Rep own h F) {a : Addr} {c : TreeCell} (ha : F a = some c) :
    ∃ h', BplusTree.destroyNode a h = some ((), h') ∧ Rep own h' (Function.update F a none) ∧
      h'.brk = h.brk ∧ h'.strs = h.strs ∧ h'.recs = h.recs := by
  obtain ⟨n, hn, -⟩ := hR.cell a c ha
  exact ⟨_, destroyNode_run hn, hR.release own ha (fun _ _ => rfl) (fun _ _ => rfl), rfl, rfl, rfl⟩

end Rep

end Nbfs.BplusTree
