import Nbfs.BplusTree.Insert

set_option autoImplicit false

/-!
# Telling the parent of a split (`insert_into_parent`)

The parent of a node that was split takes the separator and the new node, or,
without room, is split in turn; above a root that was split there is a new root.
-/

namespace Nbfs.BplusTree

open Nbfs.Lib Nbfs.Lib.Forest Nbfs.Lib.Slots

variable {own : Owner} {h : Heap} {F F' : Tree} {root : Addr}
  {content : CString → Option FileRef} {weak fat : Option Addr}

/-- A root that was split gets a new root above it. -/
theorem insertIntoParent_root {left right : Addr} {k : CString} {kp : Addr} {n n₁ n₂ : TreeCell}
    (hP : Pending own h F F' root left right content k kp n n₁ n₂) (hpar : n.par = none)
    (fuel : Nat) :
    ∃ r h', insertIntoParent (fuel + 1) root left right kp h = some (r, h') ∧
      HoldsTree h' (some r) content ∧ h.brk ≤ h'.brk := by
  obtain ⟨hR, hwf, hs, hkp, hlevel⟩ := hP
  have hroot : left = root := hwf.eq_root_of_par hs.old hpar
  subst hroot
  obtain ⟨m, hm, hok⟩ := hR.cell left n₁ hs.left
  have hmpar : m.parent = none := hok.1.trans (hs.par.1.trans hpar)
  have hltL : left < h.brk := hR.lt_brk_of_cell hs.left
  have hltR : right < h.brk := hR.lt_brk_of_cell hs.right
  have hshort := hR.short kp k hkp
  have hkfresh := hR.str_ne_fresh hkp (Nat.le_succ h.brk)
  -- the new root
  have hR₁ : Rep ⟨give own.key [h.brk + 1] h.brk, own.record⟩
      { h with
        nodes := Function.update h.nodes h.brk (some
          { Node.blank false with
            pointers := [some left, some right, none, none, none]
            keys := [some (h.brk + 1), none, none, none]
            numKeys := 1 })
        strs := Function.update h.strs (h.brk + 1) (some k)
        brk := h.brk + 2 }
      (Function.update F' h.brk
        (some ⟨none, n.level + 1, ⊥, ⊤, .inner [k] [left, right]⟩)) := by
    refine hR.write (Nat.le_add_right _ 2) (Nat.lt_add_of_pos_right (by decide)) rfl ?_
      (fun p s _ hps => ?_) (fun p r _ hr => ⟨hr, rfl⟩) (fun p s hps => ?_) (fun p r hr => .inl hr)
    · refine (nodeOK_inner rfl).mpr ⟨rfl, [h.brk + 1], ?_⟩
      exact
        { isLeaf := rfl
          numKeys := rfl
          children := rfl
          keys := ⟨[none, none, none], rfl⟩
          keysLen := rfl
          pointers := ⟨[none, none, none], rfl⟩
          pointersLen := rfl
          strs := by simp
          ownKey := owned_give (by simp) }
    · have hne := hR.str_ne_fresh hps (Nat.le_succ h.brk)
      exact ⟨(Function.update_of_ne hne ..).trans hps, give_of_not_mem (by simpa using hne)⟩
    · rcases update_some_cases hps with ⟨rfl, rfl⟩ | ⟨-, hps⟩
      · exact .inr ⟨Nat.lt_succ_self _, hshort⟩
      · exact .inl hps
  have hleft₁ : Function.update F' h.brk
      (some ⟨none, n.level + 1, ⊥, ⊤, .inner [k] [left, right]⟩) left = some n₁ :=
    (Function.update_of_ne hltL.ne ..).trans hs.left
  obtain ⟨h₂, hrun₂, hR₂, hbrk₂, -, -⟩ := hR₁.setParent hleft₁ (some h.brk)
  have hright₂ : Function.update (Function.update F' h.brk
      (some ⟨none, n.level + 1, ⊥, ⊤, .inner [k] [left, right]⟩)) left
        (some { n₁ with par := some h.brk }) right = some n₂ :=
    (Function.update_of_ne hs.ne.symm ..).trans
      ((Function.update_of_ne hltR.ne ..).trans hs.right)
  obtain ⟨h₃, hrun₃, hR₃, hbrk₃, -, -⟩ := hR₂.setParent hright₂ (some h.brk)
  refine ⟨h.brk, h₃, ?_, ⟨_, _, hR₃, ?_, fun c hc => ?_⟩, ?_⟩
  · have hst₀ : store (Node.blank false).pointers 0 (some left) =
        some [some left, none, none, none, none] := rfl
    have hst₁ : store [some left, none, none, none, none] 1 (some right) =
        some [some left, some right, none, none, none] := rfl
    have hst₂ : store (Node.blank false).keys 0 (some (h.brk + 1)) =
        some [some (h.brk + 1), none, none, none] := rfl
    simp only [insertIntoParent, CM.bind_run, CM.andThen_some, CM.liftM_run, readNode,
      CM.query_run, hm, Option.map_some, hmpar, makeNewNode, allocNode_run, Function.update_self,
      hst₀, hst₁, readStr, hkp, newKey_run hshort, hst₂, writeNode, Option.isSome_some, if_true,
      Nat.add_assoc, Nat.reduceAdd]
    rw [Function.update_idem]
    refine (CM.andThen_of hrun₂).trans ?_
    simp only [CM.bind_run, hrun₃, CM.andThen_some, CM.pure_run]
  · have hF : F h.brk = none := hs.none_of_none (hR.none_of_le le_rfl)
    refine hwf.splitRoot (by decide) (by decide) hs hF hltR.ne' ?_ ?_ ?_ ?_
    · rw [Function.update_of_ne hltR.ne', Function.update_of_ne hltL.ne', Function.update_self]
    · rw [Function.update_of_ne hs.ne, Function.update_self]
    · rw [Function.update_self]
    · intro a hat hal har
      rw [Function.update_of_ne har, Function.update_of_ne hal, Function.update_of_ne hat]
  · rw [Function.update_of_ne hltR.ne', Function.update_of_ne hltL.ne', Function.update_self] at hc
    cases hc
    have hlv := hlevel n hs.old
    have hbrk : h₃.brk = h.brk + 2 := hbrk₃.trans hbrk₂
    simp only [hbrk]
    omega
  · have hbrk : h₃.brk = h.brk + 2 := hbrk₃.trans hbrk₂
    rw [hbrk]
    exact Nat.le_add_right _ 2

/-- The keys of an inner node with a new one at `h.brk` among them. -/
theorem Rep.innerKeys (hR : Rep own h F) {a : Addr} {ks₁ ks₂ : List CString} {kps : List Addr}
    (hstrs : kps.map h.strs = (ks₁ ++ ks₂).map some) (hown : Owned own.key a kps) (k : CString) :
    (kps.take ks₁.length ++ h.brk :: kps.drop ks₁.length).map
        (Function.update h.strs h.brk (some k)) = (ks₁ ++ k :: ks₂).map some ∧
      Owned (give own.key [h.brk] a) a
        (kps.take ks₁.length ++ h.brk :: kps.drop ks₁.length) := by
  have hfresh : ∀ p ∈ kps, p ≠ h.brk := by
    intro p hp
    have hs : h.strs p ∈ (ks₁ ++ ks₂).map some := hstrs ▸ List.mem_map_of_mem hp
    obtain ⟨k', -, hk'⟩ := List.mem_map.mp hs
    exact hR.str_ne_fresh hk'.symm le_rfl
  refine ⟨?_, hown.insert (fun hmem => hfresh _ hmem rfl) _⟩
  have hold : kps.map (Function.update h.strs h.brk (some k)) = (ks₁ ++ ks₂).map some := by
    rw [← hstrs]
    exact List.map_congr_left fun p hp => Function.update_of_ne (hfresh p hp) ..
  rw [map_insert, hold, Function.update_self]
  simp

/-- A parent with room takes the new key and the new child. -/
theorem insertIntoParent_room {left right p : Addr} {k : CString} {kp : Addr}
    {n n₁ n₂ m : TreeCell} {ks₁ ks₂ : List CString} {cs₁ cs₂ : List Addr}
    (hP : Pending own h F F' root left right content k kp n n₁ n₂) (hpar : n.par = some p)
    (hp : F p = some m) (hbody : m.body = .inner (ks₁ ++ ks₂) (cs₁ ++ left :: cs₂))
    (hlen : cs₁.length = ks₁.length) (hnot : left ∉ cs₁) (hroom : (ks₁ ++ ks₂).length < maxKeyNum)
    (fuel : Nat) :
    ∃ h', insertIntoParent (fuel + 1) root left right kp h = some (root, h') ∧
      HoldsTree h' (some root) content ∧ h.brk ≤ h'.brk := by
  obtain ⟨hR, hwf, hs, hkp, hlevel⟩ := hP
  have hshort := hR.short kp k hkp
  obtain ⟨nl, hnl, hok⟩ := hR.cell left n₁ hs.left
  have hnlpar : nl.parent = some p := hok.1.trans (hs.par.1.trans hpar)
  have hlm : left ∈ m.kids := by rw [Cell.kids_inner hbody]; simp
  obtain ⟨hp', -, -, -⟩ := hwf.split_parent hs hp hlm
  obtain ⟨np, kps, hnp, hnppar, hi⟩ := hR.inner hp' hbody
  obtain ⟨kj, hkeys⟩ := hi.keys
  obtain ⟨pj, hps⟩ := hi.pointers
  have hklen := hi.keys_length
  have hclen := hi.children
  have hnum := hi.numKeys
  have hkeysLen := hi.keysLen
  have hpsLen := hi.pointersLen
  rw [hkeys, List.length_append, List.length_map, hklen] at hkeysLen
  rw [hps, List.length_append, List.length_map, hclen] at hpsLen
  obtain ⟨j, kj, rfl⟩ : ∃ j js, kj = j :: js := List.exists_cons_of_length_pos (by omega)
  obtain ⟨j', pj, rfl⟩ : ∃ j js, pj = j :: js := List.exists_cons_of_length_pos (by omega)
  have hi₁ : ks₁.length ≤ (ks₁ ++ ks₂).length := by simp
  have hscan := scanSlots hps hnot np.numKeys (by rw [hnum]; omega)
  obtain ⟨mid, hmid, hstoreK⟩ :=
    shiftUp_store_slots (i := ks₁.length) hkeys (hi₁.trans hklen.ge) (hnum.trans hklen.symm) h.brk
  obtain ⟨midP, hmidP, hstoreP⟩ :=
    shiftUp_store_slots (i := ks₁.length + 1) hps (by rw [hclen]; omega) rfl right
  have hcount : np.numKeys - ks₁.length = (cs₁ ++ left :: cs₂).length - (ks₁.length + 1) := by
    rw [hnum, hclen]
    omega
  have hcs : (cs₁ ++ left :: cs₂).take (ks₁.length + 1) ++
      right :: (cs₁ ++ left :: cs₂).drop (ks₁.length + 1) = cs₁ ++ left :: right :: cs₂ := by
    rw [← hlen]
    simp [List.take_append, List.take_of_length_le]
  rw [hcs] at hstoreP
  rw [← hcount] at hmidP
  obtain ⟨hstrs, hown⟩ := hR.innerKeys hi.strs hi.ownKey k
  refine ⟨{ h with
    nodes := Function.update h.nodes p (some { np with
      pointers := (cs₁ ++ left :: right :: cs₂).map some ++ pj
      keys := (kps.take ks₁.length ++ h.brk :: kps.drop ks₁.length).map some ++ kj
      numKeys := np.numKeys + 1 })
    strs := Function.update h.strs h.brk (some k)
    brk := h.brk + 1 }, ?_, ⟨⟨give own.key [h.brk] p, own.record⟩, Function.update F' p
      (some { m with body := .inner (ks₁ ++ k :: ks₂) (cs₁ ++ left :: right :: cs₂) }), ?_, ?_,
        fun c hc => ?_⟩, Nat.le_succ _⟩
  · have hroom' : np.numKeys < maxKeyNum := hnum ▸ hroom
    simp only [insertIntoParent, CM.bind_run, CM.andThen_some, CM.liftM_run, readNode,
      CM.query_run, hnl, Option.map_some, hnlpar, hnp, hscan, if_pos hroom', hlen, hmid, hmidP,
      readStr, hkp, newKey_run hshort, hstoreK, hstoreP, writeNode, Option.isSome_some, if_true,
      CM.pure_run]
  · refine hR.write (Nat.le_succ _) ((hR.lt_brk_of_cell hp').trans (Nat.lt_succ_self _)) rfl ?_
      (fun q s _ hqs => ?_) (fun q r _ hr => ⟨hr, rfl⟩) (fun q s hqs => ?_) (fun q r hr => .inl hr)
    · refine (nodeOK_inner rfl).mpr ⟨hnppar,
        kps.take ks₁.length ++ h.brk :: kps.drop ks₁.length, ?_⟩
      exact
        { isLeaf := hi.isLeaf
          numKeys := by simp only [hnum, List.length_append, List.length_cons]; omega
          children := by
            simp only [List.length_append, List.length_cons] at hclen ⊢
            omega
          keys := ⟨kj, rfl⟩
          keysLen := by
            simp only [List.length_append, List.length_map, List.length_cons, List.length_take,
              List.length_drop] at hkeysLen hklen ⊢
            omega
          pointers := ⟨pj, rfl⟩
          pointersLen := by
            simp only [List.length_append, List.length_map, List.length_cons] at hpsLen hclen ⊢
            omega
          strs := hstrs
          ownKey := hown }
    · have hne := hR.str_ne_fresh hqs (le_refl h.brk)
      exact ⟨(Function.update_of_ne hne ..).trans hqs, give_of_not_mem (by simpa using hne)⟩
    · rcases update_some_cases hqs with ⟨rfl, rfl⟩ | ⟨-, hqs⟩
      · exact .inr ⟨Nat.lt_succ_self _, hshort⟩
      · exact .inl hqs
  · refine hwf.splitInto none (by decide) hs hp hbody hlen ?_
    rw [maxOf_none]
    simp only [List.length_append, List.length_cons] at hroom ⊢
    omega
  · have hroot : root ≠ left := (hwf.kid_ne_root hp hlm).symm
    have hF : F' root = F root := hwf.split_root hs hroot
    by_cases hrp : root = p
    · subst hrp
      rw [Function.update_self] at hc
      cases hc
      exact Nat.lt_succ_of_lt (hlevel m hp)
    · rw [Function.update_of_ne hrp, hF] at hc
      exact Nat.lt_succ_of_lt (hlevel c hc)

/-- Copying slots to the front of an array, the last of them by itself. -/
theorem copyRange_store_slots (ps : List Addr) (dst : List Ptr) (si count : Nat)
    (hs : si + count < ps.length) (hd : count < dst.length) :
    ∃ mid last, copyRange (ps.map some) si dst 0 count = some mid ∧
      (ps.map some)[si + count]? = some last ∧
      store mid count last =
        some (((ps.drop si).take (count + 1)).map some ++ dst.drop (count + 1)) := by
  refine ⟨_, some ps[si + count], copyRange_slots ps dst si count hs.le hd.le, ?_, ?_⟩
  · rw [List.getElem?_map, List.getElem?_eq_getElem hs, Option.map_some]
  · have hlen : count < (ps.drop si).length := by rw [List.length_drop]; omega
    rw [List.drop_eq_getElem_cons hd, store_append_cons_of_eq _ _ _ (by simp; omega),
      ← List.take_append_getElem hlen, List.map_append, List.append_assoc, List.getElem_drop]
    rfl

/-- A full inner node and a new one share the old separators and children and the
new ones, but for the separator that goes up. -/
theorem Rep.divideNode (hR : Rep own h F) {a : Addr} {c : TreeCell} (c₁ c₂ : TreeCell)
    {ks₁ ks₂ : List CString} {cs cs' : List Addr} {n : Node} {kps : List Addr}
    (ha : F a = some c) (hpar : n.parent = c.par) (hi : InnerOK own h a n (ks₁ ++ ks₂) cs kps)
    {k : CString} (hk : k.strlen < maxKeyLen) {KP : List Addr}
    (kj kj₂ pj pj₂ : List Ptr) (hKP : KP = kps.take ks₁.length ++ h.brk :: kps.drop ks₁.length)
    (hlen : (ks₁ ++ ks₂).length = maxKeyNum) (hcs' : cs'.length = maxKeyNum + 2)
    (hkj : kj.length = maxKeyNum + 1 - splitNode ∧ kj₂.length = splitNode - 1)
    (hpj : pj.length = maxKeyNum + 1 - splitNode ∧ pj₂.length = splitNode - 1)
    (hc₁ : c₁.par = c.par ∧
      c₁.body = .inner ((ks₁ ++ k :: ks₂).take (splitNode - 1)) (cs'.take splitNode))
    (hc₂ : c₂.par = c.par ∧
      c₂.body = .inner ((ks₁ ++ k :: ks₂).drop splitNode) (cs'.drop splitNode)) :
    ∃ own', Rep own'
      { h with
        nodes := Function.update (Function.update h.nodes a (some { n with
            pointers := (cs'.take splitNode).map some ++ pj
            keys := (KP.take (splitNode - 1)).map some ++ kj
            numKeys := splitNode - 1 })) (h.brk + 1)
          (some { Node.blank false with
            pointers := (cs'.drop splitNode).map some ++ pj₂
            keys := (KP.drop splitNode).map some ++ kj₂
            parent := n.parent
            numKeys := maxKeyNum + 1 - splitNode })
        strs := Function.update h.strs h.brk (some k)
        brk := h.brk + 2 }
      (Function.update (Function.update F a (some c₁)) (h.brk + 1) (some c₂)) := by
  obtain ⟨hstrs, hownK⟩ := hR.innerKeys hi.strs hi.ownKey k
  rw [← hKP] at hstrs hownK
  have hstrs₁ := (map_take_eq hstrs (splitNode - 1)).1
  have hstrs₂ := (map_take_eq hstrs splitNode).2
  rw [← List.map_take] at hstrs₁
  rw [← List.map_drop] at hstrs₂
  have hKlen' : (ks₁ ++ k :: ks₂).length = maxKeyNum + 1 := by
    rw [← hlen]
    simp
    omega
  have hKlen : KP.length = maxKeyNum + 1 := by
    rw [← hKlen']
    simpa using congrArg List.length hstrs
  have hcut : splitNode ≤ maxKeyNum ∧ 1 < splitNode := by decide
  have hmin : min (splitNode - 1) (maxKeyNum + 1) = splitNode - 1 := Nat.min_eq_left (by omega)
  have hmin' : min splitNode (maxKeyNum + 2) = splitNode := Nat.min_eq_left (by omega)
  have hlt := hR.lt_brk_of_cell ha
  have hdisjoint : ∀ p ∈ KP.take (splitNode - 1), p ∉ KP.drop splitNode := by
    intro p hp hp'
    have hnd := hownK.1
    rw [← List.take_append_drop (splitNode - 1) KP, List.nodup_append] at hnd
    have hsub : p ∈ KP.drop (splitNode - 1) :=
      (List.drop_sublist_drop_left KP (Nat.sub_le splitNode 1)).subset hp'
    exact hnd.2.2 p hp p hsub rfl
  have hsub₁ : (KP.take (splitNode - 1)).Sublist KP := List.take_sublist ..
  have hsub₂ : (KP.drop splitNode).Sublist KP := List.drop_sublist ..
  generalize hown' : (⟨give (give own.key [h.brk] a) (KP.drop splitNode) (h.brk + 1),
    own.record⟩ : Owner) = own'
  refine ⟨own', ?_⟩
  have hR₁ : Rep own'
      { h with
        nodes := Function.update h.nodes a (some { n with
          pointers := (cs'.take splitNode).map some ++ pj
          keys := (KP.take (splitNode - 1)).map some ++ kj
          numKeys := splitNode - 1 })
        strs := Function.update h.strs h.brk (some k)
        brk := h.brk + 1 } (Function.update F a (some c₁)) := by
    refine hR.write (Nat.le_succ _) (hlt.trans (Nat.lt_succ_self _)) rfl ?_
      (fun p s hp hs => ?_) (fun p r _ hr => ⟨hr, ?_⟩) (fun p s hs => ?_) (fun p r hr => .inl hr)
    · refine (nodeOK_inner hc₁.2).mpr ⟨hpar.trans hc₁.1.symm, KP.take (splitNode - 1), ?_⟩
      exact
        { isLeaf := hi.isLeaf
          numKeys := by
            rw [List.length_take, hKlen']
            exact hmin.symm
          children := by
            rw [List.length_take, List.length_take, hKlen', hcs', hmin, hmin']
            omega
          keys := ⟨kj, rfl⟩
          keysLen := by simp; omega
          pointers := ⟨pj, rfl⟩
          pointersLen := by simp; omega
          strs := hstrs₁
          ownKey := by
            subst hown'
            exact (hownK.sublist hsub₁).congr fun p hp => give_of_not_mem (hdisjoint p hp) }
    · have hne := hR.str_ne_fresh hs (le_refl h.brk)
      have hnot : p ∉ [h.brk] := by simpa using hne
      refine ⟨(Function.update_of_ne hne ..).trans hs, ?_⟩
      subst hown'
      refine (give_of_not_mem fun hmem => hp ?_).trans (give_of_not_mem hnot)
      rw [← hownK.2 p (hsub₂.subset hmem), give_of_not_mem hnot]
    · subst hown'
      rfl
    · rcases update_some_cases hs with ⟨rfl, rfl⟩ | ⟨-, hs⟩
      · exact .inr ⟨Nat.lt_succ_self _, hk⟩
      · exact .inl hs
  refine hR₁.write (Nat.le_succ _) (Nat.lt_succ_self _) rfl ?_
    (fun p s _ hs => ⟨hs, rfl⟩) (fun p r _ hr => ⟨hr, rfl⟩) (fun p s hs => .inl hs)
    (fun p r hr => .inl hr)
  refine (nodeOK_inner hc₂.2).mpr ⟨hpar.trans hc₂.1.symm, KP.drop splitNode, ?_⟩
  exact
    { isLeaf := rfl
      numKeys := by rw [List.length_drop, hKlen']
      children := by
        rw [List.length_drop, List.length_drop, hKlen', hcs']
        omega
      keys := ⟨kj₂, rfl⟩
      keysLen := by simp; omega
      pointers := ⟨pj₂, rfl⟩
      pointersLen := by simp; omega
      strs := hstrs₂
      ownKey := by subst hown'; exact owned_give (hownK.1.sublist hsub₂) }

/-- The parent of a node that was split, and the place of the node in it. -/
theorem Pending.parent {left right p : Addr} {k : CString} {kp : Addr} {n n₁ n₂ : TreeCell}
    (hP : Pending own h F F' root left right content k kp n n₁ n₂) (hpar : n.par = some p) :
    ∃ m ks₁ ks₂ cs₁ cs₂, F p = some m ∧ m.body = .inner (ks₁ ++ ks₂) (cs₁ ++ left :: cs₂) ∧
      cs₁.length = ks₁.length ∧ left ∉ cs₁ ∧ m.level = n.level + 1 ∧
      (ks₁ ++ ks₂).length ≤ maxKeyNum := by
  obtain ⟨m, ks₁, ks₂, cs₁, cs₂, hm, hbody, hlen, hnot, hlevel⟩ :=
    hP.wf.parent_place hP.split.old hpar
  refine ⟨m, ks₁, ks₂, cs₁, cs₂, hm, hbody, hlen, hnot, hlevel, ?_⟩
  have hmax := (hP.wf.sound p m hm).max
  have hpl : some left ≠ some p := by
    intro heq
    cases heq
    rw [hP.split.old] at hm
    cases hm
    omega
  rwa [Cell.keys_inner hbody, maxOf, if_neg hpl] at hmax

/-- The search of `insertIntoParent` finds the node. -/
theorem Pending.search {left right p : Addr} {k : CString} {kp : Addr}
    {n n₁ n₂ m : TreeCell} {ks₁ ks₂ : List CString} {cs₁ cs₂ : List Addr}
    (hP : Pending own h F F' root left right content k kp n n₁ n₂) (hpar : n.par = some p)
    (hp : F p = some m) (hbody : m.body = .inner (ks₁ ++ ks₂) (cs₁ ++ left :: cs₂))
    (hlen : cs₁.length = ks₁.length) (hnot : left ∉ cs₁) :
    ∃ nl np, h.nodes left = some nl ∧ nl.parent = some p ∧ h.nodes p = some np ∧
      np.numKeys = (ks₁ ++ ks₂).length ∧
      scanFrom (fun i => (np.pointers[i]?).map fun q => decide (q ≠ some left)) np.numKeys 0 =
        some ks₁.length ∧ np.pointers[ks₁.length]? = some (some left) := by
  obtain ⟨nl, hnl, hok⟩ := hP.rep.cell left n₁ hP.split.left
  obtain ⟨hp', -⟩ := hP.wf.split_parent hP.split hp (by rw [Cell.kids_inner hbody]; simp)
  obtain ⟨np, kps, hnp, -, hi⟩ := hP.rep.inner hp' hbody
  obtain ⟨pj, hps⟩ := hi.pointers
  have hscan := scanSlots hps hnot np.numKeys (by
    rw [hi.numKeys, hlen, List.length_append]
    exact Nat.le_add_right ..)
  rw [hlen] at hscan
  refine ⟨nl, np, hnl, hok.1.trans (hP.split.par.1.trans hpar), hnp, hi.numKeys, hscan, ?_⟩
  rw [hps, ← hlen]
  simp

/-- A parent without room is split. -/
theorem insertIntoParent_full {left right p : Addr} {k : CString} {kp : Addr}
    {n n₁ n₂ m : TreeCell} {ks₁ ks₂ : List CString} {cs₁ cs₂ : List Addr}
    (hP : Pending own h F F' root left right content k kp n n₁ n₂) (hpar : n.par = some p)
    (hp : F p = some m) (hbody : m.body = .inner (ks₁ ++ ks₂) (cs₁ ++ left :: cs₂))
    (hlen : cs₁.length = ks₁.length) (hnot : left ∉ cs₁) (hfull : (ks₁ ++ ks₂).length = maxKeyNum)
    (fuel : Nat) : insertIntoParent (fuel + 1) root left right kp h =
      insertIntoNodeAfterSplitting fuel root p right ks₁.length kp h := by
  obtain ⟨nl, np, hnl, hnlpar, hnp, hnum, hscan, -⟩ := hP.search hpar hp hbody hlen hnot
  have hroom : ¬ np.numKeys < maxKeyNum := by rw [hnum, hfull]; exact lt_irrefl _
  simp only [insertIntoParent, CM.bind_run, CM.andThen_some, CM.liftM_run, readNode, CM.query_run,
    hnl, Option.map_some, hnlpar, hnp, hscan, if_neg hroom]

/-- `halveNode` puts the new separator and the new child into the parent and splits it. -/
theorem halveNode_run {left right p : Addr} {k : CString} {kp : Addr}
    {n n₁ n₂ m : TreeCell} {ks₁ ks₂ : List CString} {cs₁ cs₂ : List Addr}
    (hP : Pending own h F F' root left right content k kp n n₁ n₂)
    (hp : F p = some m) (hbody : m.body = .inner (ks₁ ++ ks₂) (cs₁ ++ left :: cs₂))
    (hlen : cs₁.length = ks₁.length) (hfull : (ks₁ ++ ks₂).length = maxKeyNum) :
    ∃ own' G G' k' kp' m₀ m₁ m₂ q h',
      halveNode p right ks₁.length kp h = some ((q, kp'), h') ∧
      Pending own' h' G G' root p q content k' kp' m₀ m₁ m₂ ∧ m₀.level = m.level ∧
      h.brk ≤ h'.brk ∧ ∀ c, G root = some c → ∃ c', F root = some c' ∧ c'.level = c.level := by
  obtain ⟨hR, hwf, hs, hkp, hlevel⟩ := hP
  have hshort := hR.short kp k hkp
  have hlm : left ∈ m.kids := by rw [Cell.kids_inner hbody]; simp
  obtain ⟨hp', -, -, hkidp⟩ := hwf.split_parent hs hp hlm
  obtain ⟨np, kps, hnp, hnppar, hi⟩ := hR.inner hp' hbody
  obtain ⟨kj, hkeys⟩ := hi.keys
  obtain ⟨pj, hps⟩ := hi.pointers
  have hklen : kps.length = maxKeyNum := hi.keys_length.trans hfull
  have hclen : (cs₁ ++ left :: cs₂).length = maxKeyNum + 1 := hi.children.trans (by rw [hfull])
  have hkeysLen := hi.keysLen
  have hpsLen := hi.pointersLen
  rw [hkeys, List.length_append, List.length_map, hklen] at hkeysLen
  rw [hps, List.length_append, List.length_map, hclen] at hpsLen
  have hcut : splitNode ≤ maxKeyNum ∧ 1 < splitNode ∧ minKeyNum ≤ splitNode - 1 ∧
      minKeyNum + splitNode ≤ maxKeyNum + 1 := by decide
  have hi₁ : ks₁.length ≤ maxKeyNum := by rw [← hfull]; simp
  obtain ⟨hstrs, -⟩ := hR.innerKeys hi.strs hi.ownKey k
  -- the temporary arrays hold five separators and six children
  have hspreadP := spread_slots (i := ks₁.length + 1) hps (by rw [hclen]; omega) right
  have hspreadK := spread_slots (i := ks₁.length) hkeys (hi₁.trans hklen.ge) h.brk
  have hcs : (cs₁ ++ left :: cs₂).take (ks₁.length + 1) ++
      right :: (cs₁ ++ left :: cs₂).drop (ks₁.length + 1) = cs₁ ++ left :: right :: cs₂ := by
    rw [← hlen]
    simp [List.take_append, List.take_of_length_le]
  rw [hcs, hclen] at hspreadP
  rw [hklen] at hspreadK
  have hClen : (cs₁ ++ left :: right :: cs₂).length = maxKeyNum + 2 := by
    simp only [List.length_append, List.length_cons] at hclen ⊢
    omega
  have hKlen' : (ks₁ ++ k :: ks₂).length = maxKeyNum + 1 := by
    rw [← hfull]
    simp
    omega
  generalize hKP : kps.take ks₁.length ++ h.brk :: kps.drop ks₁.length = KP at *
  generalize hC : cs₁ ++ left :: right :: cs₂ = C at *
  have hKlen : KP.length = maxKeyNum + 1 := by
    rw [← hKlen']
    simpa using congrArg List.length hstrs
  -- the separator that goes up
  obtain ⟨k', hk'⟩ : ∃ k', (ks₁ ++ k :: ks₂).drop (splitNode - 1) =
      k' :: (ks₁ ++ k :: ks₂).drop splitNode := by
    have hlt : splitNode - 1 < (ks₁ ++ k :: ks₂).length := by omega
    exact ⟨_, by rw [List.drop_eq_getElem_cons hlt, Nat.sub_add_cancel hcut.2.1.le]⟩
  obtain ⟨kp', hkp'⟩ : ∃ kp', KP.drop (splitNode - 1) = kp' :: KP.drop splitNode := by
    have hlt : splitNode - 1 < KP.length := by omega
    exact ⟨_, by rw [List.drop_eq_getElem_cons hlt, Nat.sub_add_cancel hcut.2.1.le]⟩
  have hK : ks₁ ++ k :: ks₂ = (ks₁ ++ k :: ks₂).take (splitNode - 1) ++
      k' :: (ks₁ ++ k :: ks₂).drop splitNode := by
    rw [← hk', List.take_append_drop]
  have hCs : C = C.take splitNode ++ C.drop splitNode := (List.take_append_drop ..).symm
  have hone : splitNode - 1 + 1 = splitNode := Nat.sub_add_cancel hcut.2.1.le
  obtain ⟨midP, last, hcopyP, hlast, hstoreP⟩ :=
    copyRange_store_slots C np.pointers 0 (splitNode - 1)
      (by omega) (by rw [hi.pointersLen]; omega)
  rw [Nat.zero_add] at hlast
  rw [List.drop_zero, hone] at hstoreP
  have hcopyK := copyRange_slots KP np.keys 0 (splitNode - 1)
    (by omega) (by rw [hi.keysLen]; omega)
  rw [List.drop_zero] at hcopyK
  obtain ⟨midP₂, last₂, hcopyP₂, hlast₂, hstoreP₂⟩ :=
    copyRange_store_slots C (Node.blank false).pointers splitNode
      (maxKeyNum + 1 - splitNode) (by omega) (by decide)
  have hcopyK₂ := copyRange_slots KP (Node.blank false).keys splitNode
    (maxKeyNum + 1 - splitNode) (by omega) (by decide)
  rw [List.take_of_length_le (by rw [List.length_drop]; omega)] at hstoreP₂ hcopyK₂
  have hmiddle : (KP.map some)[splitNode - 1]? = some (some kp') := by
    have hlt : splitNode - 1 < KP.length := by omega
    rw [List.drop_eq_getElem_cons hlt, List.cons.injEq] at hkp'
    rw [List.getElem?_map, List.getElem?_eq_getElem hlt, Option.map_some, hkp'.1]
  -- the tree with the five separators in the parent
  have hfat := hwf.splitInto (some p) (by decide) hs hp hbody hlen
    (by rw [maxOf, if_pos rfl, hKlen'])
  rw [hC] at hfat
  have hltp := hR.lt_brk_of_cell hp'
  have hpq : p ≠ h.brk + 1 := (hltp.trans (Nat.lt_succ_self _)).ne
  have hnone : Function.update F' p (some { m with
      body := .inner (ks₁ ++ k :: ks₂) C }) (h.brk + 1) = none := by
    rw [Function.update_of_ne hpq.symm]
    exact hR.none_of_le (Nat.le_succ _)
  have hsplit := hfat.splitInner (k := k') (Function.update_self ..)
    (congrArg₂ Body.inner hK hCs) hnone (by rw [List.length_take, List.length_take]; omega)
    (by rw [List.length_take]; omega) (by rw [List.length_drop]; omega)
  obtain ⟨own', hR₁⟩ := hR.divideNode
    { m with
      hi := (k' : WithTop CString)
      body := .inner ((ks₁ ++ k :: ks₂).take (splitNode - 1)) (C.take splitNode) }
    { m with
      lo := (k' : WithBot CString)
      body := .inner ((ks₁ ++ k :: ks₂).drop splitNode) (C.drop splitNode) }
    hp' hnppar hi hshort (np.keys.drop (splitNode - 1))
    ((Node.blank false).keys.drop (maxKeyNum + 1 - splitNode)) (np.pointers.drop splitNode)
    ((Node.blank false).pointers.drop (maxKeyNum + 1 - splitNode + 1)) hKP.symm hfull hClen
    ⟨by rw [List.length_drop, hi.keysLen]; omega, by decide⟩
    ⟨by rw [List.length_drop, hi.pointersLen], by decide⟩ ⟨rfl, rfl⟩ ⟨rfl, rfl⟩
  have hcells : ∀ c ∈ C.drop splitNode, ∃ nc, Function.update (Function.update F' p (some { m with
      hi := (k' : WithTop CString)
      body := .inner ((ks₁ ++ k :: ks₂).take (splitNode - 1)) (C.take splitNode) })) (h.brk + 1)
      (some { m with
        lo := (k' : WithBot CString)
        body := .inner ((ks₁ ++ k :: ks₂).drop splitNode) (C.drop splitNode) }) c = some nc := by
    intro c hc
    by_cases hcq : c = h.brk + 1
    · exact ⟨_, by rw [hcq, Function.update_self]⟩
    by_cases hcp : c = p
    · exact ⟨_, by rw [Function.update_of_ne hcq, hcp, Function.update_self]⟩
    obtain ⟨nc, hnc, -⟩ := hfat.kid (Function.update_self ..)
      (show c ∈ C from (List.drop_sublist ..).subset hc)
    rw [Function.update_of_ne hcp] at hnc
    exact ⟨nc, by rw [Function.update_of_ne hcq, Function.update_of_ne hcp, hnc]⟩
  have hR₂ := hR₁.adopt hcells (h.brk + 1)
  have hrun₂ := adoptChildren_run (h.brk + 1) ((C.drop splitNode).map some ++
    (Node.blank false).pointers.drop (maxKeyNum + 1 - splitNode + 1)) _ (C.drop splitNode) []
    (fun c hc => by
      obtain ⟨nc, hnc⟩ := hcells c hc
      obtain ⟨n', hn', -⟩ := hR₁.cell c nc hnc
      exact ⟨n', hn'⟩) rfl
  have hparts : WF.cutInner (Function.update F' p (some { m with
        body := .inner (ks₁ ++ k :: ks₂) C })) p (h.brk + 1)
        { m with body := .inner (ks₁ ++ k :: ks₂) C }
        ((ks₁ ++ k :: ks₂).take (splitNode - 1)) (C.take splitNode) k'
        ((ks₁ ++ k :: ks₂).drop splitNode) (C.drop splitNode) =
      adopt (Function.update (Function.update F' p (some { m with
        hi := (k' : WithTop CString)
        body := .inner ((ks₁ ++ k :: ks₂).take (splitNode - 1)) (C.take splitNode) })) (h.brk + 1)
        (some { m with
          lo := (k' : WithBot CString)
          body := .inner ((ks₁ ++ k :: ks₂).drop splitNode) (C.drop splitNode) }))
        (C.drop splitNode) (h.brk + 1) := by
    rw [WF.cutInner, Function.update_idem]
  rw [← hparts] at hR₂
  have hroot : ∀ c, Function.update F' p (some { m with
      body := .inner (ks₁ ++ k :: ks₂) C }) root = some c →
      ∃ c', F root = some c' ∧ c'.level = c.level := by
    intro c hc
    by_cases hrp : root = p
    · subst hrp
      rw [Function.update_self] at hc
      cases hc
      exact ⟨m, hp, rfl⟩
    · rw [Function.update_of_ne hrp,
        hwf.split_root hs (hwf.kid_ne_root hp hlm).symm] at hc
      exact ⟨c, hc, rfl⟩
  refine ⟨own', _, _, k', kp', _, _, _, h.brk + 1, _, ?_, ⟨hR₂, hfat, hsplit, ?_, ?_⟩, rfl,
    Nat.le_add_right _ 2, hroot⟩
  · have hcount : (C.drop splitNode).length = maxKeyNum + 1 - splitNode + 1 := by
      rw [List.length_drop, hClen]
      omega
    rw [hcount] at hrun₂
    simp only [halveNode, CM.bind_run, CM.andThen_some, CM.liftM_run, readNode,
      CM.query_run, hnp, Option.map_some, hspreadP, readStr, hkp, newKey_run hshort, hspreadK,
      hcopyP, hcopyK, hlast, hstoreP, writeNode, Option.isSome_some, if_true, hmiddle,
      makeNewNode, allocNode_run, Function.update_self, hcopyP₂, hcopyK₂, hlast₂, hstoreP₂]
    rw [Function.update_idem]
    refine (CM.andThen_of hrun₂).trans ?_
    simp only [CM.bind_run, deref_some, CM.andThen_some, CM.pure_run]
  · have hstrs' := (map_take_eq hstrs (splitNode - 1)).2
    rw [hkp', ← List.map_drop, hk', List.map_cons, List.map_cons, List.cons.injEq] at hstrs'
    exact hstrs'.1
  · intro c hc
    obtain ⟨c', hc', hlv⟩ := hroot c hc
    exact (hlv ▸ hlevel c' hc').trans_le (Nat.le_add_right _ 2)

/-- Up to its call of `insertIntoParent`, `insertIntoNodeAfterSplitting` puts the
new separator and the new child into the parent and splits it. -/
theorem insertIntoNodeAfterSplitting_run {left right p : Addr} {k : CString} {kp : Addr}
    {n n₁ n₂ m : TreeCell} {ks₁ ks₂ : List CString} {cs₁ cs₂ : List Addr}
    (hP : Pending own h F F' root left right content k kp n n₁ n₂)
    (hp : F p = some m) (hbody : m.body = .inner (ks₁ ++ ks₂) (cs₁ ++ left :: cs₂))
    (hlen : cs₁.length = ks₁.length) (hfull : (ks₁ ++ ks₂).length = maxKeyNum) (fuel : Nat) :
    ∃ own' G G' k' kp' m₀ m₁ m₂ q h',
      insertIntoNodeAfterSplitting (fuel + 1) root p right ks₁.length kp h =
        insertIntoParent fuel root p q kp' h' ∧
      Pending own' h' G G' root p q content k' kp' m₀ m₁ m₂ ∧ m₀.level = m.level ∧
      h.brk ≤ h'.brk ∧ ∀ c, G root = some c → ∃ c', F root = some c' ∧ c'.level = c.level := by
  obtain ⟨own', G, G', k', kp', m₀, m₁, m₂, q, h', hrun, hrest⟩ :=
    halveNode_run hP hp hbody hlen hfull
  refine ⟨own', G, G', k', kp', m₀, m₁, m₂, q, h', ?_, hrest⟩
  rw [insertIntoNodeAfterSplitting_eq, CM.bind_run_of hrun]

/-- `insertIntoParent` ends with a tree, given fuel for every level above the
node that was split. -/
theorem insertIntoParent_spec : ∀ (d fuel : Nat) {own : Owner} {h : Heap} {F F' : Tree}
    {left right : Addr} {k : CString} {kp : Addr} {n n₁ n₂ : TreeCell},
    Pending own h F F' root left right content k kp n n₁ n₂ →
    (∀ c, F root = some c → c.level ≤ n.level + d) → 2 * d < fuel →
    ∃ r h', insertIntoParent fuel root left right kp h = some (r, h') ∧
      HoldsTree h' (some r) content ∧ h.brk ≤ h'.brk := by
  intro d
  induction d with
  | zero =>
    intro fuel own h F F' left right k kp n n₁ n₂ hP htop hfuel
    obtain ⟨fuel, rfl⟩ : ∃ f, fuel = f + 1 := ⟨fuel - 1, by omega⟩
    -- at the root's own height the node has no parent
    cases hpar : n.par with
    | none => exact insertIntoParent_root hP hpar fuel
    | some p =>
        exfalso
        obtain ⟨m, -, -, -, -, hm, -, -, -, hlevel⟩ := hP.wf.parent_place hP.split.old hpar
        obtain ⟨r, hr, -, -, -, hmax⟩ := hP.wf.root_cell
        have := htop r hr
        have := hmax p m hm
        omega
  | succ d ih =>
    intro fuel own h F F' left right k kp n n₁ n₂ hP htop hfuel
    obtain ⟨fuel, rfl⟩ : ∃ f, fuel = f + 1 := ⟨fuel - 1, by omega⟩
    cases hpar : n.par with
    | none => exact insertIntoParent_root hP hpar fuel
    | some p =>
        obtain ⟨m, ks₁, ks₂, cs₁, cs₂, hm, hbody, hlen, hnot, hlevel, hmax⟩ := hP.parent hpar
        by_cases hroom : (ks₁ ++ ks₂).length < maxKeyNum
        · obtain ⟨h', hrun, hrest⟩ :=
            insertIntoParent_room hP hpar hm hbody hlen hnot hroom fuel
          exact ⟨root, h', hrun, hrest⟩
        · have hfull : (ks₁ ++ ks₂).length = maxKeyNum := by omega
          obtain ⟨fuel, rfl⟩ : ∃ f, fuel = f + 1 := ⟨fuel - 1, by omega⟩
          obtain ⟨own', G, G', k', kp', m₀, m₁, m₂, q, h', hrun, hP', hlv, hbrk, hroot⟩ :=
            insertIntoNodeAfterSplitting_run hP hm hbody hlen hfull fuel
          obtain ⟨r, h'', hrun', htree, hbrk'⟩ := ih fuel hP' (fun c hc => by
            obtain ⟨c', hc', hlv'⟩ := hroot c hc
            have := htop c' hc'
            omega) (by omega)
          refine ⟨r, h'', ?_, htree, hbrk.trans hbrk'⟩
          rw [insertIntoParent_full hP hpar hm hbody hlen hnot hfull, hrun, hrun']

/-! ## The whole insertion -/

/-- What an insertion does to the names: a name that is present keeps its file. -/
def insertName (content : CString → Option FileRef) (key : CString) (file : FileRef) :
    CString → Option FileRef :=
  match content key with
  | none => Function.update content key (some file)
  | some _ => content

theorem insertName_of_none {key : CString} (file : FileRef) (hk : content key = none) :
    insertName content key file = Function.update content key (some file) := by
  simp [insertName, hk]

theorem insertName_of_some {key : CString} {f : FileRef} (file : FileRef)
    (hk : content key = some f) : insertName content key file = content := by
  simp [insertName, hk]

/-- The first insertion into the empty tree makes a leaf. -/
theorem bPlusTreeInsert_null (hR : Rep own h fun _ => none) (garbage : Int) {key : CString}
    (hkey : key.strlen < maxKeyLen) (file : FileRef) :
    ∃ root' h', bPlusTreeInsert garbage none key file h = some (root', h') ∧
      HoldsTree h' root' (Function.update (fun _ => none) key (some file)) ∧ h.brk ≤ h'.brk := by
  refine ⟨some (h.brk + 1),
    { nodes := Function.update h.nodes (h.brk + 1) (some { Node.blank true with
        pointers := [some h.brk, none, none, none, none]
        keys := [some (h.brk + 2), none, none, none]
        numKeys := 1 })
      strs := Function.update h.strs (h.brk + 2) (some key)
      recs := Function.update h.recs h.brk (some ⟨file⟩)
      brk := h.brk + 3 }, ?_,
    ⟨⟨give own.key [h.brk + 2] (h.brk + 1), give own.record [h.brk] (h.brk + 1)⟩,
      Function.update (fun _ => none) (h.brk + 1)
        (some ⟨none, 0, ⊥, ⊤, .leaf [(key, file)] none⟩), ?_, ?_, fun c hc => ?_⟩,
    Nat.le_add_right _ 3⟩
  · have hst₀ : store (Node.blank true).pointers 0 (some h.brk) =
        some [some h.brk, none, none, none, none] := rfl
    have hst₁ : store (Node.blank true).keys 0 (some (h.brk + 2)) =
        some [some (h.brk + 2), none, none, none] := rfl
    simp only [bPlusTreeInsert, CM.bind_run, newRecord, CM.andThen_some, CM.query_run, findLeaf,
      Option.map_some, makeNewLeaf, allocNode_run, readNode, Function.update_self, CM.liftM_run,
      hst₀, newKey_run hkey, Nat.add_assoc, Nat.reduceAdd, hst₁, writeNode, Option.isSome_some,
      if_true, Function.update_idem, CM.pure_run]
    rfl
  · refine hR.write (Nat.le_add_right _ 3) (Nat.add_lt_add_left (by decide) _) rfl ?_
      (fun p s _ hs => ?_) (fun p r _ hr => ?_) (fun p s hs => ?_) (fun p r hr => ?_)
    · refine (nodeOK_leaf rfl).mpr ⟨rfl, [h.brk + 2], [h.brk], ?_⟩
      exact
        { isLeaf := rfl
          numKeys := rfl
          keys := ⟨[none, none, none], rfl⟩
          keysLen := rfl
          pointers := ⟨[none, none, none], rfl⟩
          pointersLen := rfl
          strs := by simp
          recs := by simp
          ownKey := owned_give (by simp)
          ownRec := owned_give (by simp) }
    · have hne := hR.str_ne_fresh hs (Nat.le_add_right h.brk 2)
      exact ⟨(Function.update_of_ne hne ..).trans hs, give_of_not_mem (by simpa using hne)⟩
    · have hne := hR.rec_ne_fresh hr (le_refl h.brk)
      exact ⟨(Function.update_of_ne hne ..).trans hr, give_of_not_mem (by simpa using hne)⟩
    · rcases update_some_cases hs with ⟨rfl, rfl⟩ | ⟨-, hs⟩
      · exact .inr ⟨Nat.lt_succ_self _, hkey⟩
      · exact .inl hs
    · rcases update_some_cases hr with ⟨rfl, -⟩ | ⟨-, hr⟩
      · exact .inr (Nat.lt_add_of_pos_right (by decide))
      · exact .inl hr
  · have hempty : Holds (fun _ => none) (⊥ : WithBot CString) ⊤
        (([] : List (CString × FileRef)) ++ []) := Holds.nil fun _ _ => rfl
    exact WF.singleton (hempty.insert (by simp) (by simp) (by simp))
      (by rw [minOf_none, if_pos rfl]; exact le_rfl) (show 1 ≤ maxKeyNum by decide)
  · rw [Function.update_self] at hc
    cases hc
    exact Nat.succ_pos _

/-- The entry of a key that is absent goes between the smaller and the greater
ones of its leaf. -/
theorem bPlusTreeInsert_absent (hR : Rep own h F) (hwf : TreeWF F root content weak none)
    (hlevel : ∀ c, F root = some c → c.level < h.brk) (garbage : Int) {key : CString}
    (hkey : key.strlen < maxKeyLen) (file : FileRef) (habsent : content key = none)
    (hweak : weak = none ∨ weak = some root ∧ garbage ≠ 0 ∧
      ∃ c next, F root = some c ∧ c.body = .leaf [] next) :
    ∃ root' h', bPlusTreeInsert garbage (some root) key file h = some (root', h') ∧
      HoldsTree h' root' (Function.update content key (some file)) ∧ h.brk ≤ h'.brk := by
  have hR₁ := hR.newRecord file
  obtain ⟨a, c, es, next, hfind, hc, hb, hrange⟩ :=
    findLeaf_spec hR₁ hwf (fun c hc => Nat.lt_succ_of_lt (hlevel c hc)) key
  obtain ⟨n, kps, rps, hn, hpar, hl⟩ := hR.leaf hc hb
  obtain ⟨hleaf, hholds, -⟩ := hwf.holds hc hb
  have hnot : key ∉ es.map Prod.fst := by
    rw [hholds.lookup key hrange, List.lookup_eq_none_iff] at habsent
    intro hmem
    obtain ⟨e, he, hek⟩ := List.mem_map.mp hmem
    simpa [hek] using habsent e he
  obtain ⟨es₁, es₂, rfl, hlen, hlow, hhigh⟩ := takeWhile_lt_split hholds.sorted hnot
  -- a tree whose root may be an empty leaf has no other leaf
  have hweak' : ∀ x, weak = some x → x = a ∧ es₁ ++ es₂ = [] := by
    intro x hx
    rcases hweak with hw | ⟨hw, -, rc, rnext, hrc, hrb⟩
    · rw [hw] at hx
      cases hx
    · rw [hw] at hx
      cases hx
      obtain ⟨r, hr, -, hlo, hhi, -⟩ := hwf.root_cell
      rw [hrc] at hr
      cases hr
      have hroot : root = a := hwf.unique_leaf hrc hc (hwf.holds hrc hrb).1 hleaf
        (by rw [hlo, hhi]; exact inRange_bot_top key) hrange
      refine ⟨hroot, ?_⟩
      subst hroot
      rw [hrc] at hc
      cases hc
      rw [hrb] at hb
      exact (Body.leaf.inj hb).1.symm
  obtain ⟨kj, hkeys⟩ := hl.keys
  have hstrs : kps.map h.strs = ((es₁ ++ es₂).map Prod.fst).map some := by
    rw [hl.strs, List.map_map]
    rfl
  obtain ⟨cond, hplace, hcond⟩ := findPlace_spec
    (h := { h with recs := Function.update h.recs h.brk (some ⟨file⟩), brk := h.brk + 1 }) (n := n)
    key ((es₁ ++ es₂).map Prod.fst) 0 garbage
    (fun j hj => by rw [Nat.zero_add]; exact keyAt_eq hkeys hstrs hj) hholds.sorted
  rw [Nat.zero_add, ← hlen, List.length_map, ← hl.numKeys] at hplace
  have hcond₀ : cond ≠ 0 := by
    rw [ne_eq, hcond]
    rintro (⟨hnil, hg⟩ | hmem)
    · rcases hweak with hw | ⟨-, hne, -⟩
      · have hmin := (hwf.sound a c hc).min
        rw [Cell.keys_leaf hb, hnil, hw, minOf_none] at hmin
        split at hmin
        · exact absurd hmin (by decide)
        · exact absurd hmin (by decide)
      · exact hne hg
    · exact hnot hmem
  by_cases hroom : n.numKeys < maxKeyNum
  · obtain ⟨own', ks₁, ps₁, keys, pointers, hks, hps, hstoreK, hstoreP, hR'⟩ :=
      hR.putEntry hc hpar hl hroom hkey file
    refine ⟨some root, _, ?_, ⟨own', _, hR', ?_, fun c' hc' => ?_⟩, Nat.le_add_right _ 2⟩
    · simp only [bPlusTreeInsert, CM.bind_run, newRecord, CM.andThen_some, CM.query_run, hfind,
        Option.map_some, readNode, hn, hplace, if_neg hcond₀, if_pos hroom, CM.liftM_run, hks, hps,
        newKey_run hkey, hstoreK, hstoreP, writeNode, Option.isSome_some, if_true, CM.pure_run,
        Nat.add_assoc, Nat.reduceAdd]
      rfl
    · have hsize : (es₁ ++ (key, file) :: es₂).length = (es₁ ++ es₂).length + 1 := by
        simp
        omega
      refine hwf.setLeaf (by decide) hc hb (fun x hx => (hweak' x hx).1) (by simp)
        (hholds.insert hrange hlow hhigh)
        (fun q hq => Function.update_of_ne (by rintro rfl; exact hq hrange) ..) ?_ ?_
      · have hmin := (hwf.sound a c hc).min
        rw [hsize, minOf_none]
        by_cases hra : a = root
        · rw [if_pos hra]
          exact Nat.succ_pos _
        · have hw : weak ≠ some a := by
            intro hw
            rcases hweak with hw' | ⟨hw', -⟩
            · rw [hw] at hw'
              cases hw'
            · rw [hw] at hw'
              exact hra (Option.some.inj hw')
          rw [minOf, if_neg hw, if_neg hra, Cell.keys_leaf hb, List.length_map] at hmin
          rw [if_neg hra]
          exact hmin.trans (Nat.le_succ _)
      · rw [hsize, maxOf_none, ← hl.numKeys]
        exact hroom
    · have hlt : c'.level < h.brk := by
        by_cases hra : root = a
        · subst hra
          rw [Function.update_self] at hc'
          cases hc'
          exact hlevel c hc
        · rw [Function.update_of_ne hra] at hc'
          exact hlevel c' hc'
      exact hlt.trans_le (Nat.le_add_right _ 2)
  · have hfull : n.numKeys = maxKeyNum := by
      have hmax := (hwf.sound a c hc).max
      rw [Cell.keys_leaf hb, List.length_map, ← hl.numKeys, maxOf_none] at hmax
      omega
    have hw : weak = none := by
      cases hw : weak with
      | none => rfl
      | some x =>
          have hnil := (hweak' x hw).2
          rw [hl.numKeys, hnil] at hfull
          exact absurd hfull (by decide)
    subst hw
    obtain ⟨own', G, F', k, kp, n₀, n₁, n₂, h', hrun, hP, hlv, hbrk, hroot⟩ :=
      insertIntoLeafAfterSplitting_run hR hwf hlevel hc hb hn hpar hl hfull hkey file hrange hlow
        hhigh (climbFuel { h with
          recs := Function.update h.recs h.brk (some ⟨file⟩), brk := h.brk + 1 })
    obtain ⟨r, h'', hrun', htree, hbrk'⟩ := insertIntoParent_spec h.brk _ hP
      (fun c' hc' => by have := hroot c' hc'; omega)
      (show 2 * h.brk < 2 * (h.brk + 1) + 2 by omega)
    refine ⟨some r, h'', ?_, htree, hbrk.trans hbrk'⟩
    simp only [bPlusTreeInsert, CM.bind_run, newRecord, CM.andThen_some, CM.query_run, hfind,
      Option.map_some, readNode, hn, hplace, if_neg hcond₀, if_neg hroom, deref_some]
    refine (CM.andThen_of (hrun.trans hrun')).trans ?_
    rfl

/-- An insertion that finds its key, or stops at an empty leaf with `cond` zero,
changes nothing but to leave a record behind. -/
theorem bPlusTreeInsert_stops {a : Addr} {n : Node} {index : Nat} {garbage : Int} {key : CString}
    {file : FileRef}
    (hfind : findLeaf { h with
      recs := Function.update h.recs h.brk (some ⟨file⟩), brk := h.brk + 1 } (some root) key =
        some (some a)) (hn : h.nodes a = some n)
    (hplace : findPlace { h with
      recs := Function.update h.recs h.brk (some ⟨file⟩), brk := h.brk + 1 } n key n.numKeys 0
        garbage = some (index, 0)) :
    bPlusTreeInsert garbage (some root) key file h = some (some root, { h with
      recs := Function.update h.recs h.brk (some ⟨file⟩), brk := h.brk + 1 }) := by
  simp only [bPlusTreeInsert, CM.bind_run, newRecord, CM.andThen_some, CM.query_run, hfind,
    Option.map_some, readNode, hn, hplace, if_true, CM.pure_run]

/-- Where an insertion stops in its leaf: at the first key that is not smaller than its own,
with `cond` zero exactly if the two are equal. -/
theorem insertPlace (hR : Rep own h F) (hwf : TreeWF F root content none none)
    (hlevel : ∀ c, F root = some c → c.level < h.brk) (garbage : Int) (key : CString)
    (file : FileRef) :
    ∃ a c es next n kps rps cond, findLeaf { h with
        recs := Function.update h.recs h.brk (some ⟨file⟩), brk := h.brk + 1 } (some root) key =
          some (some a) ∧ F a = some c ∧ c.body = .leaf es next ∧ InRange c.lo c.hi key ∧
      h.nodes a = some n ∧ n.parent = c.par ∧ LeafOK own h a n es next kps rps ∧
      findPlace { h with
        recs := Function.update h.recs h.brk (some ⟨file⟩), brk := h.brk + 1 } n key n.numKeys 0
          garbage = some (((es.map Prod.fst).takeWhile (· < key)).length, cond) ∧
      (cond = 0 ↔ key ∈ es.map Prod.fst) := by
  obtain ⟨a, c, es, next, hfind, hc, hb, hrange⟩ :=
    findLeaf_spec (hR.newRecord file) hwf (fun c hc => Nat.lt_succ_of_lt (hlevel c hc)) key
  obtain ⟨n, kps, rps, hn, hpar, hl⟩ := hR.leaf hc hb
  obtain ⟨-, hholds, -⟩ := hwf.holds hc hb
  obtain ⟨kj, hkeys⟩ := hl.keys
  have hstrs : kps.map h.strs = (es.map Prod.fst).map some := by
    rw [hl.strs, List.map_map]
    rfl
  have hsome : es.map Prod.fst ≠ [] := by
    intro hnil
    have hmin := (hwf.sound a c hc).min
    rw [Cell.keys_leaf hb, hnil, minOf_none] at hmin
    split at hmin
    · exact absurd hmin (by decide)
    · exact absurd hmin (by decide)
  obtain ⟨cond, hplace, hcond⟩ := findPlace_spec (h := { h with
    recs := Function.update h.recs h.brk (some ⟨file⟩), brk := h.brk + 1 }) (n := n)
    key (es.map Prod.fst) 0 garbage
    (fun j hj => by rw [Nat.zero_add]; exact keyAt_eq hkeys hstrs hj) hholds.sorted
  rw [Nat.zero_add, List.length_map, ← hl.numKeys] at hplace
  refine ⟨a, c, es, next, n, kps, rps, cond, hfind, hc, hb, hrange, hn, hpar, hl, hplace, ?_⟩
  rw [hcond, or_iff_right fun hnil => hsome hnil.1]

/-- `B_plus_tree_insert` adds its key to the names, unless it is one of them. -/
theorem bPlusTreeInsert_spec {root : Ptr} (hT : HoldsTree h root content) (garbage : Int)
    {key : CString} (hkey : key.strlen < maxKeyLen) (file : FileRef) :
    ∃ root' h', bPlusTreeInsert garbage root key file h = some (root', h') ∧
      HoldsTree h' root' (insertName content key file) ∧ h.brk ≤ h'.brk := by
  cases root with
  | none =>
      obtain ⟨⟨own, hR⟩, rfl⟩ := hT
      exact bPlusTreeInsert_null hR garbage hkey file
  | some r =>
      obtain ⟨own, F, hR, hwf, hlevel⟩ := hT
      cases hk : content key with
      | none =>
          rw [insertName_of_none file hk]
          exact bPlusTreeInsert_absent hR hwf hlevel garbage hkey file hk (.inl rfl)
      | some f =>
          rw [insertName_of_some file hk]
          obtain ⟨a, c, es, next, n, kps, rps, cond, hfind, hc, hb, hrange, hn, -, -, hplace,
            hcond⟩ := insertPlace hR hwf hlevel garbage key file
          obtain ⟨-, hholds, -⟩ := hwf.holds hc hb
          have hmem : key ∈ es.map Prod.fst := by
            by_contra hnot
            rw [hholds.lookup key hrange, lookup_eq_none_of_forall_ne] at hk
            · cases hk
            · rintro k hk' rfl
              exact hnot hk'
          rw [hcond.mpr hmem] at hplace
          exact ⟨some r, _, bPlusTreeInsert_stops hfind hn hplace,
            ⟨own, F, hR.newRecord file, hwf, fun c hc => Nat.lt_succ_of_lt (hlevel c hc)⟩,
            Nat.le_succ _⟩

theorem halveLeaf_long {leaf : Addr} {n : Node} {index : Nat} {key : CString} {rec : Addr}
    (hlong : ¬ key.strlen < maxKeyLen) (hn : h.nodes leaf = some n) :
    halveLeaf leaf index key rec h = none := by
  have hcopy : ∀ h, newKey key h = none := fun h => if_neg hlong
  simp only [halveLeaf, readNode, CM.bind_run, CM.query_run, hn, Option.map_some, CM.andThen_some,
    CM.liftM_run]
  cases spread n.pointers _ _ _ with
  | none => rfl
  | some tempPs =>
      simp only [Option.map_some, CM.andThen_some, CM.bind_run, hcopy, CM.andThen_none]

/-- A key that is too long for its buffer is copied over the end of one. -/
theorem bPlusTreeInsert_long {root : Ptr} (hT : HoldsTree h root content) (garbage : Int)
    {key : CString} (hlong : ¬ key.strlen < maxKeyLen) (file : FileRef) :
    bPlusTreeInsert garbage root key file h = none := by
  have hcopy : ∀ h, newKey key h = none := fun h => if_neg hlong
  cases root with
  | none =>
      simp only [bPlusTreeInsert, CM.bind_run, newRecord, CM.andThen_some, CM.query_run, findLeaf,
        Option.map_some, makeNewLeaf, allocNode_run, readNode, Function.update_self, CM.liftM_run]
      cases store (Node.blank true).pointers 0 (some h.brk) with
      | none => rfl
      | some pointers =>
          simp only [Option.map_some, CM.andThen_some, CM.bind_run, hcopy, CM.andThen_none]
  | some r =>
      obtain ⟨own, F, hR, hwf, hlevel⟩ := hT
      obtain ⟨a, c, es, next, n, kps, rps, cond, hfind, -, -, -, hn, -, hl, hplace, hcond⟩ :=
        insertPlace hR hwf hlevel garbage key file
      -- the keys of the tree are in buffers, so this one is not among them
      have hcond₀ : cond ≠ 0 := by
        intro hzero
        obtain ⟨e, he, rfl⟩ := List.mem_map.mp (hcond.mp hzero)
        have hstr : some e.1 ∈ kps.map h.strs := by
          rw [hl.strs]
          exact List.mem_map_of_mem he
        obtain ⟨p, -, hp⟩ := List.mem_map.mp hstr
        exact hlong (hR.short p e.1 hp)
      simp only [bPlusTreeInsert, CM.bind_run, newRecord, CM.andThen_some, CM.query_run, hfind,
        Option.map_some, readNode, hn, hplace, if_neg hcond₀]
      by_cases hroom : n.numKeys < maxKeyNum
      · simp only [if_pos hroom, CM.bind_run, CM.liftM_run]
        cases shiftUp n.keys _ _ with
        | none => rfl
        | some keys =>
            simp only [Option.map_some, CM.andThen_some, CM.bind_run, CM.liftM_run]
            cases shiftUp n.pointers _ _ with
            | none => rfl
            | some pointers =>
                simp only [Option.map_some, CM.andThen_some, CM.bind_run, hcopy, CM.andThen_none]
      · have hhalf := fun index rec => @halveLeaf_long { h with
          recs := Function.update h.recs h.brk (some ⟨file⟩), brk := h.brk + 1 } a n index key rec
            hlong hn
        simp only [if_neg hroom, CM.bind_run, deref_some, CM.andThen_some, CM.query_run,
          Option.map_some, insertIntoLeafAfterSplitting_eq, hhalf, CM.andThen_none]

end Nbfs.BplusTree
