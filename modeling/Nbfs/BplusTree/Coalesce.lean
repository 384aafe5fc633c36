import Nbfs.BplusTree.InsertParent
import Nbfs.BplusTree.Remove

set_option autoImplicit false

/-!
# Merging two nodes (`coalesce_nodes` up to `delete_entry`)

The keys of a node move into the neighbour on its left, in an inner node
together with a copy of the separator, and the node goes.
-/

namespace Nbfs.BplusTree

open Nbfs.Lib Nbfs.Lib.Forest Nbfs.Lib.Slots

variable {own : Owner} {h : Heap} {F F' : Tree} {root : Addr}
  {content : CString → Option FileRef} {weak fat : Option Addr}

/-- Copying the used slots of one array behind those of another. -/
theorem copyRange_join {src sj dst dj : List Ptr} {ps qs : List Addr} {start count : Nat}
    (hsrc : src = qs.map some ++ sj) (hdst : dst = ps.map some ++ dj) (hstart : start = ps.length)
    (hcount : count = qs.length) (hroom : start + count ≤ dst.length) :
    copyRange src 0 dst start count =
      some ((ps ++ qs).map some ++ dst.drop (start + count)) := by
  have hsrcLen : 0 + count ≤ src.length := by
    rw [hsrc, List.length_append, List.length_map]
    omega
  have htake : dst.take start = ps.map some := by
    rw [hdst, hstart, List.take_append_of_le_length (by simp)]
    exact List.take_of_length_le (by simp)
  have hcopy : src.take count = qs.map some := by
    rw [hsrc, hcount, List.take_append_of_le_length (by simp)]
    exact List.take_of_length_le (by simp)
  rw [copyRange_eq hsrcLen hroom, htake, List.drop_zero, hcopy, List.map_append, List.append_assoc]

/-- The last slot of an array stays the last when slots before it are dropped. -/
theorem drop_append_last {α : Type} {xs : List α} {x : α} {i : Nat} (hi : i ≤ xs.length) :
    (xs ++ [x]).drop i = xs.drop i ++ [x] := by
  rw [List.drop_append_of_le_length hi]

/-- `moveIntoNeighbor` between leaves. -/
theorem moveIntoNeighbor_leaf (hR : Rep own h F) {l r p : Addr} {c₁ c₂ c : TreeCell}
    {es₁ es₂ : List (CString × FileRef)} {nx₁ nx₂ : Ptr} (hl : F l = some c₁) (hr : F r = some c₂)
    (hlr : l ≠ r) (hb₁ : c₁.body = .leaf es₁ nx₁) (hb₂ : c₂.body = .leaf es₂ nx₂)
    (hpar : c₂.par = some p) (hsum : es₁.length + es₂.length ≤ maxKeyNum) (hc : c.par = c₁.par)
    (hcb : c.body = .leaf (es₁ ++ es₂) nx₂) (index : Nat) :
    ∃ own' h', moveIntoNeighbor r l index h = some (p, h') ∧
      Rep own' h' (Function.update (Function.update F r none) l (some c)) ∧ h'.brk = h.brk := by
  obtain ⟨n, kps₂, rps₂, hn, hnpar, hl₂⟩ := hR.leaf hr hb₂
  obtain ⟨b, kps₁, rps₁, hb, hbpar, hl₁⟩ := hR.leaf hl hb₁
  obtain ⟨kj₁, hkeys₁⟩ := hl₁.keys
  obtain ⟨pj₁, hps₁⟩ := hl₁.pointers
  obtain ⟨kj₂, hkeys₂⟩ := hl₂.keys
  obtain ⟨pj₂, hps₂⟩ := hl₂.pointers
  have hk₁ := hl₁.keys_length
  have hr₁ := hl₁.recs_length
  have hk₂ := hl₂.keys_length
  have hr₂ := hl₂.recs_length
  have hnum₁ := hl₁.numKeys
  have hnum₂ := hl₂.numKeys
  have hklen := hl₁.keysLen
  have hplen := hl₁.pointersLen
  have hcopyK := copyRange_join hkeys₂ hkeys₁ (hnum₁.trans hk₁.symm) (hnum₂.trans hk₂.symm)
    (by rw [hklen]; omega)
  have hps₁' : b.pointers = (rps₁.map some ++ pj₁) ++ [nx₁] := by
    rw [hps₁, List.append_assoc]
  have husedLen : (rps₁.map some ++ pj₁).length = maxKeyNum := by
    rw [hps₁', List.length_append, List.length_singleton] at hplen
    omega
  have hcopyP := copyRange_join hps₂ hps₁ (hnum₁.trans hr₁.symm) (hnum₂.trans hr₂.symm)
    (by rw [hplen]; omega)
  have hnext := hl₂.next_slot
  have hdrop : b.pointers.drop (b.numKeys + n.numKeys) =
      (rps₁.map some ++ pj₁).drop (b.numKeys + n.numKeys) ++ [nx₁] := by
    conv_lhs => rw [hps₁']
    exact drop_append_last (by rw [husedLen]; omega)
  rw [hdrop] at hcopyP
  have hstore : store ((rps₁ ++ rps₂).map some ++
      ((rps₁.map some ++ pj₁).drop (b.numKeys + n.numKeys) ++ [nx₁])) maxKeyNum nx₂ =
      some ((rps₁ ++ rps₂).map some ++
        ((rps₁.map some ++ pj₁).drop (b.numKeys + n.numKeys) ++ [nx₂])) := by
    rw [← List.append_assoc, store_append_cons_of_eq nx₁ nx₂ [], List.append_assoc]
    rw [List.length_append, List.length_drop, husedLen, List.length_map, List.length_append]
    omega
  have hnpar' : n.parent = some p := hnpar.trans hpar
  have hnotK : ∀ q, own.key q ≠ r → q ∉ kps₂ := fun q hq hmem => hq (hl₂.ownKey.2 q hmem)
  have hnotR : ∀ q, own.record q ≠ r → q ∉ rps₂ := fun q hq hmem => hq (hl₂.ownRec.2 q hmem)
  have hdisjK := hl₁.ownKey.disjoint hl₂.ownKey hlr
  have hdisjR := hl₁.ownRec.disjoint hl₂.ownRec hlr
  refine ⟨⟨give own.key kps₂ l, give own.record rps₂ l⟩, { h with
    nodes := Function.update (Function.update h.nodes l (some { b with
      pointers := (rps₁ ++ rps₂).map some ++
        ((rps₁.map some ++ pj₁).drop (b.numKeys + n.numKeys) ++ [nx₂])
      keys := (kps₁ ++ kps₂).map some ++ b.keys.drop (b.numKeys + n.numKeys)
      numKeys := b.numKeys + n.numKeys })) r none }, ?_, ?_, rfl⟩
  · simp only [moveIntoNeighbor, CM.bind_run, CM.andThen_some, CM.liftM_run, readNode,
      CM.query_run, hn, hb, Option.map_some, hnpar', deref_some, hl₂.isLeaf, if_true, hcopyK,
        hcopyP,
      hnext, hstore, writeNode, Option.isSome_some, destroyNode, Function.update_of_ne hlr.symm,
      CM.pure_run]
  · -- the node on the right goes first and leaves its keys to its neighbour
    have hR₁ := hR.release ⟨give own.key kps₂ l, give own.record rps₂ l⟩ hr
      (fun q hq => give_of_not_mem (hnotK q hq)) (fun q hq => give_of_not_mem (hnotR q hq))
    refine hR₁.write le_rfl (hR.lt_brk_of_cell hl) (Function.update_comm hlr ..) ?_
      (fun q s _ hs => ⟨hs, rfl⟩) (fun q x _ hx => ⟨hx, rfl⟩) (fun q s hs => .inl hs)
      (fun q x hx => .inl hx)
    · refine (nodeOK_leaf hcb).mpr ⟨hbpar.trans hc.symm, kps₁ ++ kps₂, rps₁ ++ rps₂, ?_⟩
      exact
        { isLeaf := hl₁.isLeaf
          numKeys := by rw [List.length_append, hnum₁, hnum₂]
          keys := ⟨_, rfl⟩
          keysLen := by
            simp only [List.length_append, List.length_map, List.length_drop, hklen]
            omega
          pointers := ⟨_, rfl⟩
          pointersLen := by
            rw [List.length_append, List.length_append, List.length_drop, husedLen,
              List.length_map, List.length_append, List.length_singleton]
            omega
          strs := by rw [List.map_append, hl₁.strs, hl₂.strs, List.map_append]
          recs := by rw [List.map_append, hl₁.recs, hl₂.recs, List.map_append]
          ownKey := hl₁.ownKey.give_append hl₂.ownKey.1 hdisjK
          ownRec := hl₁.ownRec.give_append hl₂.ownRec.1 hdisjR }

/-- A copy loop and the store after it, which copies one more slot. -/
theorem copyRange_join_store {src sj dst dj : List Ptr} {ps qs : List Addr} {x : Addr}
    {start count : Nat} (hsrc : src = (qs ++ [x]).map some ++ sj) (hdst : dst = ps.map some ++ dj)
    (hstart : start = ps.length) (hcount : count = qs.length)
    (hroom : start + count < dst.length) :
    ∃ mid, copyRange src 0 dst start count = some mid ∧ src[count]? = some (some x) ∧
      store mid (start + count) (some x) =
        some ((ps ++ (qs ++ [x])).map some ++ dst.drop (start + count + 1)) := by
  have hsrc' : src = qs.map some ++ (some x :: sj) := by
    rw [hsrc]
    simp
  refine ⟨_, copyRange_join hsrc' hdst hstart hcount hroom.le, ?_, ?_⟩
  · have hlen : (qs.map some).length = qs.length := List.length_map ..
    rw [hsrc', hcount, ← hlen, List.getElem?_append_right le_rfl, Nat.sub_self]
    rfl
  · rw [List.drop_eq_getElem_cons hroom, store_append_cons_of_eq _ _ _ (by simp; omega)]
    simp

/-- Destroying a node that adopts nothing, before or after the adoption. -/
theorem adoptNodes_update_none {nodes : Addr → Option Node} {cs : List Addr} {owner r : Addr}
    (hr : r ∉ cs) : adoptNodes (Function.update nodes r none) cs owner =
      Function.update (adoptNodes nodes cs owner) r none := by
  funext a
  by_cases har : a = r
  · subst har
    rw [adoptNodes_of_not_mem hr, Function.update_self, Function.update_self]
  · rw [Function.update_of_ne har]
    unfold adoptNodes
    rw [Function.update_of_ne har]

/-- The key buffer of a separator. -/
theorem InnerOK.separator {a : Addr} {n : Node} {ks₁ ks₂ : List CString} {s : CString}
    {cs kps : List Addr} (hi : InnerOK own h a n (ks₁ ++ s :: ks₂) cs kps) :
    ∃ k₁ p k₂, kps = k₁ ++ p :: k₂ ∧ k₁.length = ks₁.length ∧ k₁.map h.strs = ks₁.map some ∧
      n.keys[ks₁.length]? = some (some p) ∧ h.strs p = some s ∧
        k₂.map h.strs = ks₂.map some := by
  obtain ⟨kj, hkeys⟩ := hi.keys
  have hstrs := hi.strs
  rw [List.map_append, List.map_cons] at hstrs
  obtain ⟨k₁, p, k₂, rfl, hk₁, hp, hk₂⟩ := map_eq_split hstrs
  have hlen : k₁.length = ks₁.length := by simpa using congrArg List.length hk₁
  refine ⟨k₁, p, k₂, rfl, hlen, hk₁, ?_, hp, hk₂⟩
  rw [hkeys, ← hlen]
  simp

/-- `moveIntoNeighbor` between inner nodes: the copy of the separator is a new
key buffer. -/
theorem moveIntoNeighbor_inner (hR : Rep own h F) {l r p : Addr} {c₁ c₂ m c : TreeCell}
    {ksl ksr ks₁ ks₂ : List CString} {s : CString} {csl csr cs : List Addr} (hl : F l = some c₁)
    (hr : F r = some c₂) (hp : F p = some m) (hlr : l ≠ r) (hb₁ : c₁.body = .inner ksl csl)
    (hb₂ : c₂.body = .inner ksr csr) (hbp : m.body = .inner (ks₁ ++ s :: ks₂) cs)
    (hpar : c₂.par = some p) (hsum : ksl.length + ksr.length + 1 ≤ maxKeyNum)
    (hkids : ∀ g ∈ csl ++ csr, (∃ n, F g = some n) ∧ g ≠ l ∧ g ≠ r) (hc : c.par = c₁.par)
    (hcb : c.body = .inner (ksl ++ s :: ksr) (csl ++ csr)) :
    ∃ own' h', moveIntoNeighbor r l (ks₁.length + 1) h = some (p, h') ∧
      Rep own' h'
        (adopt (Function.update (Function.update F r none) l (some c)) (csl ++ csr) l) ∧
      h'.brk = h.brk + 1 := by
  obtain ⟨n, kps₂, hn, hnpar, hi₂⟩ := hR.inner hr hb₂
  obtain ⟨b, kps₁, hb, hbpar, hi₁⟩ := hR.inner hl hb₁
  obtain ⟨np, kps, hnp, -, hip⟩ := hR.inner hp hbp
  obtain ⟨kj₁, hkeys₁⟩ := hi₁.keys
  obtain ⟨pj₁, hps₁⟩ := hi₁.pointers
  obtain ⟨kj₂, hkeys₂⟩ := hi₂.keys
  obtain ⟨pj₂, hps₂⟩ := hi₂.pointers
  have hk₁ := hi₁.keys_length
  have hk₂ := hi₂.keys_length
  have hnum₁ := hi₁.numKeys
  have hnum₂ := hi₂.numKeys
  have hchildren₁ := hi₁.children
  have hchildren₂ := hi₂.children
  have hklen := hi₁.keysLen
  have hplen := hi₁.pointersLen
  have hnpar' : n.parent = some p := hnpar.trans hpar
  obtain ⟨k₁, sp, k₂, -, -, -, hslot, hsp, -⟩ := hip.separator
  have hshort := hR.short sp s hsp
  -- the arrays of the neighbour
  obtain ⟨csr', x, rfl⟩ : ∃ csr' x, csr = csr' ++ [x] :=
    ⟨_, _, (List.dropLast_append_getLast (List.ne_nil_of_length_eq_add_one hchildren₂)).symm⟩
  rw [List.length_append, List.length_singleton] at hchildren₂
  obtain ⟨midP, hcopyP, hlast, hstoreP⟩ := copyRange_join_store hps₂ hps₁
    (hnum₁ ▸ hchildren₁.symm : b.numKeys + 1 = csl.length)
    (by omega : n.numKeys = csr'.length) (by rw [hplen]; omega)
  have hstoreK : store b.keys b.numKeys (some h.brk) =
      some ((kps₁ ++ [h.brk]).map some ++ b.keys.drop (b.numKeys + 1)) := by
    have htake : b.keys.take b.numKeys = kps₁.map some := by
      rw [hkeys₁, hnum₁, ← hk₁, List.take_append_of_le_length (by simp)]
      exact List.take_of_length_le (by simp)
    rw [store_eq _ (by rw [hklen]; omega), htake]
    simp
  have hcopyK := copyRange_join hkeys₂ (rfl : (kps₁ ++ [h.brk]).map some ++
      b.keys.drop (b.numKeys + 1) = (kps₁ ++ [h.brk]).map some ++ b.keys.drop (b.numKeys + 1))
    (by rw [List.length_append, List.length_singleton, hnum₁, hk₁] :
      b.numKeys + 1 = (kps₁ ++ [h.brk]).length)
    (hnum₂.trans hk₂.symm) (by simp; omega)
  generalize hkj : ((kps₁ ++ [h.brk]).map some ++ b.keys.drop (b.numKeys + 1)).drop
    (b.numKeys + 1 + n.numKeys) = kj at hcopyK
  have hkjLen : kj.length = maxKeyNum - (b.numKeys + 1 + n.numKeys) := by
    rw [← hkj]
    simp
    omega
  generalize hpj : b.pointers.drop (b.numKeys + 1 + n.numKeys + 1) = pj at hstoreP
  have hpjLen : pj.length = maxKeyNum + 1 - (b.numKeys + 1 + n.numKeys + 1) := by
    rw [← hpj, List.length_drop, hplen]
  -- the node on the right goes first and leaves its keys to its neighbour
  have hR₁ := hR.release ⟨give own.key kps₂ l, own.record⟩ hr
    (fun q hq => give_of_not_mem fun hmem => hq (hi₂.ownKey.2 q hmem)) (fun _ _ => rfl)
  have hown₁ : Owned (give own.key kps₂ l) l (kps₁ ++ kps₂) :=
    hi₁.ownKey.give_append hi₂.ownKey.1 (hi₁.ownKey.disjoint hi₂.ownKey hlr)
  have hstrs₁ : (kps₁ ++ kps₂).map h.strs = (ksl ++ ksr).map some := by
    rw [List.map_append, hi₁.strs, hi₂.strs, List.map_append]
  obtain ⟨hstrs, hown⟩ := hR₁.innerKeys (h := { h with nodes := _ }) hstrs₁ hown₁ s
  rw [← hk₁, List.take_left, List.drop_left] at hstrs hown
  generalize hb' : ({ b with
    pointers := (csl ++ (csr' ++ [x])).map some ++ pj
    keys := (kps₁ ++ [h.brk] ++ kps₂).map some ++ kj
    numKeys := b.numKeys + n.numKeys + 1 } : Node) = b'
  have hR₂ : Rep ⟨give (give own.key kps₂ l) [h.brk] l, own.record⟩
      { h with
        nodes := Function.update (Function.update h.nodes r none) l (some b')
        strs := Function.update h.strs h.brk (some s)
        brk := h.brk + 1 }
      (Function.update (Function.update F r none) l (some c)) := by
    refine hR₁.write (Nat.le_succ _) ((hR.lt_brk_of_cell hl).trans (Nat.lt_succ_self _)) rfl ?_
      (fun q t _ ht => ?_) (fun q y _ hy => ⟨hy, rfl⟩) (fun q t ht => ?_) (fun q y hy => .inl hy)
    · refine (nodeOK_inner hcb).mpr ⟨?_, kps₁ ++ [h.brk] ++ kps₂, ?_⟩
      · subst hb'
        exact hbpar.trans hc.symm
      subst hb'
      exact
        { isLeaf := hi₁.isLeaf
          numKeys := by
            simp only [List.length_append, List.length_cons]
            omega
          children := by
            simp only [List.length_append, List.length_cons, List.length_nil]
            omega
          keys := ⟨kj, rfl⟩
          keysLen := by
            simp only [List.length_append, List.length_map, List.length_cons, List.length_nil]
            omega
          pointers := ⟨pj, rfl⟩
          pointersLen := by
            simp only [List.length_append, List.length_map, List.length_cons, List.length_nil]
            omega
          strs := by
            rw [List.append_assoc]
            exact hstrs
          ownKey := by
            rw [List.append_assoc]
            exact hown }
    · have hne := hR.str_ne_fresh ht le_rfl
      exact ⟨(Function.update_of_ne hne ..).trans ht, give_of_not_mem (by simpa using hne)⟩
    · rcases update_some_cases ht with ⟨rfl, rfl⟩ | ⟨-, ht⟩
      · exact .inr ⟨Nat.lt_succ_self _, hshort⟩
      · exact .inl ht
  have hcells : ∀ g ∈ csl ++ (csr' ++ [x]),
      ∃ ng, Function.update (Function.update F r none) l (some c) g = some ng := by
    intro g hg
    obtain ⟨⟨ng, hng⟩, hgl, hgr⟩ := hkids g hg
    exact ⟨ng, by rw [Function.update_of_ne hgl, Function.update_of_ne hgr, hng]⟩
  have hR₃ := hR₂.adopt hcells l
  have hrc : r ∉ csl ++ (csr' ++ [x]) := fun hmem => (hkids r hmem).2.2 rfl
  have hrun := adoptChildren_run l ((csl ++ (csr' ++ [x])).map some ++ pj) pj
    (csl ++ (csr' ++ [x])) [] (h := { h with
      nodes := Function.update h.nodes l (some b')
      strs := Function.update h.strs h.brk (some s)
      brk := h.brk + 1 }) (fun g hg => by
        obtain ⟨⟨ng, hng⟩, hgl, -⟩ := hkids g hg
        obtain ⟨n', hn', -⟩ := hR.cell g ng hng
        exact ⟨n', (Function.update_of_ne hgl ..).trans hn'⟩) rfl
  have hcount : (csl ++ (csr' ++ [x])).length = b.numKeys + n.numKeys + 1 + 1 := by
    simp only [List.length_append, List.length_cons, List.length_nil]
    omega
  have hdestroy : adoptNodes (Function.update h.nodes l (some b')) (csl ++ (csr' ++ [x])) l r =
      some n := by
    rw [adoptNodes_of_not_mem hrc, Function.update_of_ne hlr.symm, hn]
  refine ⟨⟨give (give own.key kps₂ l) [h.brk] l, own.record⟩, { h with
    nodes := Function.update
      (adoptNodes (Function.update h.nodes l (some b')) (csl ++ (csr' ++ [x])) l) r none
    strs := Function.update h.strs h.brk (some s)
    brk := h.brk + 1 }, ?_, ?_, rfl⟩
  · rw [hcount] at hrun
    simp only [moveIntoNeighbor, CM.bind_run, CM.andThen_some, CM.liftM_run, readNode,
      CM.query_run, hn, hb, Option.map_some, hnpar', deref_some, hi₂.isLeaf, Bool.false_eq_true,
      if_false, hnp, show pred (ks₁.length + 1) = some ks₁.length from rfl, hslot, readStr, hsp,
      newKey_run hshort, hstoreK, hcopyK, hcopyP, hlast, hstoreP, writeNode, Option.isSome_some,
      if_true, hb']
    refine (CM.andThen_of hrun).trans ?_
    simp only [CM.bind_run, destroyNode, hdestroy, Option.isSome_some, if_true, CM.andThen_some,
      CM.pure_run]
  · rw [← adoptNodes_update_none hrc, Function.update_comm hlr]
    exact hR₃

end Nbfs.BplusTree
