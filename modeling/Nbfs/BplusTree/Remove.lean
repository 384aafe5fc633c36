import Nbfs.BplusTree.Insert

set_option autoImplicit false

/-!
# Removing one entry of a node (`remove_entry`, `adjust_root`)

The key that goes is freed, in a leaf together with its record, and the slots
after it move down.  A root left without keys gives way to its only child, or to
NULL where it is a leaf.
-/

namespace Nbfs.BplusTree

open Nbfs.Lib Nbfs.Lib.Forest Nbfs.Lib.Slots

variable {own : Owner} {h : Heap} {F F' : Tree} {root : Addr}
  {content : CString → Option FileRef} {weak fat : Option Addr}

/-- The slots of an array whose used part is `ps₁ ++ p :: ps₂`, after shifting
down over `p` and clearing the last. -/
theorem shiftDown_store_slots {slots rest : List Ptr} {ps₁ ps₂ : List Addr} {p : Addr}
    (hslots : slots = (ps₁ ++ p :: ps₂).map some ++ rest) :
    ∃ mid, shiftDown slots ps₁.length ps₂.length = some mid ∧
      store mid (ps₁.length + ps₂.length) none =
        some ((ps₁ ++ ps₂).map some ++ none :: rest) := by
  obtain ⟨w, hw⟩ := shiftDown_append (ps₂.map some) (ps₁.map some) (some p) rest
  have hshape : slots = ps₁.map some ++ some p :: (ps₂.map some ++ rest) := by
    rw [hslots]
    simp
  rw [List.length_map, List.length_map, ← hshape] at hw
  refine ⟨_, hw, ?_⟩
  rw [← List.append_assoc, store_append_cons_of_eq w none rest (by simp), List.map_append]

/-- Addresses that are read as a split list split accordingly. -/
theorem map_eq_split {α β : Type} {f : α → β} {ps : List α} {ys₁ ys₂ : List β} {y : β}
    (h : ps.map f = ys₁ ++ y :: ys₂) : ∃ ps₁ p ps₂, ps = ps₁ ++ p :: ps₂ ∧ ps₁.map f = ys₁ ∧
      f p = y ∧ ps₂.map f = ys₂ := by
  obtain ⟨ps₁, rest, rfl, h₁, h₂⟩ := List.map_eq_append_iff.mp h
  obtain ⟨p, ps₂, rfl, hp, hps₂⟩ := List.map_eq_cons_iff.mp h₂
  exact ⟨ps₁, p, ps₂, rfl, h₁, hp, hps₂⟩

/-- Clearing one of a list of different addresses leaves the others. -/
theorem map_update_none {β : Type} {f : Addr → Option β} {ps₁ ps₂ : List Addr} {p : Addr}
    (hnd : (ps₁ ++ p :: ps₂).Nodup) :
    (ps₁ ++ ps₂).map (Function.update f p none) = (ps₁ ++ ps₂).map f := by
  refine List.map_congr_left fun q hq => Function.update_of_ne ?_ ..
  rintro rfl
  have hperm : (ps₁ ++ q :: ps₂).Perm (q :: (ps₁ ++ ps₂)) := List.perm_middle
  exact (List.nodup_cons.mp (hperm.nodup_iff.mp hnd)).1 hq

/-- `removeEntry` on a leaf. -/
theorem removeEntry_leaf (hR : Rep own h F) {a : Addr} {c : TreeCell}
    {es₁ es₂ : List (CString × FileRef)} {e : CString × FileRef} {next : Ptr} (ha : F a = some c)
    (hb : c.body = .leaf (es₁ ++ e :: es₂) next) :
    ∃ h', removeEntry a es₁.length h = some ((), h') ∧
      Rep own h' (Function.update F a (some { c with body := .leaf (es₁ ++ es₂) next })) ∧
      h'.brk = h.brk := by
  obtain ⟨n, kps, rps, hn, hpar, hl⟩ := hR.leaf ha hb
  obtain ⟨kj, hkeys⟩ := hl.keys
  obtain ⟨pj, hps⟩ := hl.pointers
  have hnum := hl.numKeys
  have hstrs := hl.strs
  have hrecs := hl.recs
  have hownK := hl.ownKey
  have hownR := hl.ownRec
  have hkeysLen := hl.keysLen
  have hpsLen := hl.pointersLen
  rw [List.map_append, List.map_cons] at hstrs hrecs
  obtain ⟨k₁, p, k₂, rfl, hk₁, hp, hk₂⟩ := map_eq_split hstrs
  obtain ⟨r₁, r, r₂, rfl, hr₁, hr, hr₂⟩ := map_eq_split hrecs
  have hk₁len : k₁.length = es₁.length := by simpa using congrArg List.length hk₁
  have hk₂len : k₂.length = es₂.length := by simpa using congrArg List.length hk₂
  have hr₁len : r₁.length = es₁.length := by simpa using congrArg List.length hr₁
  have hr₂len : r₂.length = es₂.length := by simpa using congrArg List.length hr₂
  obtain ⟨mid, hmid, hstoreK⟩ := shiftDown_store_slots hkeys
  obtain ⟨midP, hmidP, hstoreP⟩ := shiftDown_store_slots hps
  rw [hk₁len, hk₂len] at hmid hstoreK
  rw [hr₁len, hr₂len] at hmidP hstoreP
  have hcount : n.numKeys - 1 - es₁.length = es₂.length := by
    rw [hnum, List.length_append, List.length_cons]
    omega
  have hpred : pred n.numKeys = some (es₁.length + es₂.length) := by
    rw [hnum, List.length_append, List.length_cons]
    rfl
  have hslotK : n.keys[es₁.length]? = some (some p) := by
    rw [hkeys, ← hk₁len]
    simp
  have hslotP : n.pointers[es₁.length]? = some (some r) := by
    rw [hps, ← hr₁len]
    simp
  refine ⟨{ h with
      nodes := Function.update h.nodes a (some { n with
        pointers := (r₁ ++ r₂).map some ++ none :: (pj ++ [next])
        keys := (k₁ ++ k₂).map some ++ none :: kj
        numKeys := es₁.length + es₂.length })
      strs := Function.update h.strs p none
      recs := Function.update h.recs r none }, ?_, ?_, rfl⟩
  · have hfree := freeRec_run (h := { h with strs := Function.update h.strs p none }) hr
    simp only [removeEntry, CM.bind_run, CM.andThen_some, CM.liftM_run, readNode, CM.query_run, hn,
      Option.map_some, hl.isLeaf, if_true, hslotK, freeStr_run hp, hslotP, hfree,
      Option.isSome_some, hcount, hmid, hmidP, hstoreK, hstoreP, hpred, writeNode]
  · refine hR.write le_rfl (hR.lt_brk_of_cell ha) rfl ?_ (fun q s hq hs => ⟨?_, rfl⟩)
      (fun q x hq hx => ⟨?_, rfl⟩) (fun q s hs => .inl ?_) (fun q x hx => .inl ?_)
    · refine (nodeOK_leaf rfl).mpr ⟨hpar, k₁ ++ k₂, r₁ ++ r₂, ?_⟩
      exact
        { isLeaf := hl.isLeaf
          numKeys := by rw [List.length_append]
          keys := ⟨none :: kj, rfl⟩
          keysLen := by
            rw [hkeys] at hkeysLen
            simp at hkeysLen ⊢
            omega
          pointers := ⟨none :: pj, rfl⟩
          pointersLen := by
            rw [hps] at hpsLen
            simp at hpsLen ⊢
            omega
          strs := by rw [map_update_none hownK.1, List.map_append, hk₁, hk₂, List.map_append]
          recs := by rw [map_update_none hownR.1, List.map_append, hr₁, hr₂, List.map_append]
          ownKey := hownK.sublist (List.sublist_append_iff.mpr
            ⟨k₁, k₂, rfl, List.Sublist.refl _, List.sublist_cons_self ..⟩)
          ownRec := hownR.sublist (List.sublist_append_iff.mpr
            ⟨r₁, r₂, rfl, List.Sublist.refl _, List.sublist_cons_self ..⟩) }
    · have hne : q ≠ p := by
        rintro rfl
        exact hq (hownK.2 q (by simp))
      exact (Function.update_of_ne hne ..).trans hs
    · have hne : q ≠ r := by
        rintro rfl
        exact hq (hownR.2 q (by simp))
      exact (Function.update_of_ne hne ..).trans hx
    · by_cases hqp : q = p
      · subst hqp
        simp only [Function.update_self] at hs
        cases hs
      · exact (Function.update_of_ne hqp ..).symm.trans hs
    · by_cases hqr : q = r
      · subst hqr
        simp only [Function.update_self] at hx
        cases hx
      · exact (Function.update_of_ne hqr ..).symm.trans hx

/-- `removeEntry` on an inner node: the key goes with the child after it. -/
theorem removeEntry_inner (hR : Rep own h F) {a : Addr} {c : TreeCell} {ks₁ ks₂ : List CString}
    {k : CString} {cs₁ cs₂ : List Addr} {x : Addr} (ha : F a = some c)
    (hb : c.body = .inner (ks₁ ++ k :: ks₂) (cs₁ ++ x :: cs₂))
    (hlen : cs₁.length = ks₁.length + 1) :
    ∃ h', removeEntry a (ks₁.length + 1) h = some ((), h') ∧
      Rep own h' (Function.update F a (some { c with body := .inner (ks₁ ++ ks₂) (cs₁ ++ cs₂) })) ∧
      h'.brk = h.brk := by
  obtain ⟨n, kps, hn, hpar, hi⟩ := hR.inner ha hb
  obtain ⟨kj, hkeys⟩ := hi.keys
  obtain ⟨pj, hps⟩ := hi.pointers
  have hnum := hi.numKeys
  have hstrs := hi.strs
  have hownK := hi.ownKey
  have hkeysLen := hi.keysLen
  have hpsLen := hi.pointersLen
  have hchildren := hi.children
  rw [List.map_append, List.map_cons] at hstrs
  obtain ⟨k₁, p, k₂, rfl, hk₁, hp, hk₂⟩ := map_eq_split hstrs
  have hk₁len : k₁.length = ks₁.length := by simpa using congrArg List.length hk₁
  have hk₂len : k₂.length = ks₂.length := by simpa using congrArg List.length hk₂
  have hcs₂ : cs₂.length = ks₂.length := by
    simp only [List.length_append, List.length_cons] at hchildren
    omega
  obtain ⟨mid, hmid, hstoreK⟩ := shiftDown_store_slots hkeys
  obtain ⟨midP, hmidP, hstoreP⟩ := shiftDown_store_slots hps
  rw [hk₁len, hk₂len] at hmid hstoreK
  rw [hlen, hcs₂] at hmidP hstoreP
  rw [Nat.add_right_comm] at hstoreP
  have hcount : n.numKeys - 1 - ks₁.length = ks₂.length := by
    rw [hnum, List.length_append, List.length_cons]
    omega
  have hpred : pred n.numKeys = some (ks₁.length + ks₂.length) := by
    rw [hnum, List.length_append, List.length_cons]
    rfl
  have hslotK : n.keys[ks₁.length]? = some (some p) := by
    rw [hkeys, ← hk₁len]
    simp
  refine ⟨{ h with
      nodes := Function.update h.nodes a (some { n with
        pointers := (cs₁ ++ cs₂).map some ++ none :: pj
        keys := (k₁ ++ k₂).map some ++ none :: kj
        numKeys := ks₁.length + ks₂.length })
      strs := Function.update h.strs p none }, ?_, ?_, rfl⟩
  · simp only [removeEntry, CM.bind_run, CM.andThen_some, CM.liftM_run, readNode, CM.query_run, hn,
      Option.map_some, hi.isLeaf, Bool.false_eq_true, if_false, show pred (ks₁.length + 1) =
        some ks₁.length from rfl, hslotK, freeStr_run hp, hcount, hmid, hmidP, hstoreK, hstoreP,
      hpred, writeNode, Option.isSome_some, if_true]
  · refine hR.write le_rfl (hR.lt_brk_of_cell ha) rfl ?_ (fun q s hq hs => ⟨?_, rfl⟩)
      (fun q x _ hx => ⟨hx, rfl⟩) (fun q s hs => .inl ?_) (fun q x hx => .inl hx)
    · refine (nodeOK_inner rfl).mpr ⟨hpar, k₁ ++ k₂, ?_⟩
      exact
        { isLeaf := hi.isLeaf
          numKeys := by rw [List.length_append]
          children := by
            rw [List.length_append, List.length_append]
            omega
          keys := ⟨none :: kj, rfl⟩
          keysLen := by
            rw [hkeys] at hkeysLen
            simp at hkeysLen ⊢
            omega
          pointers := ⟨none :: pj, rfl⟩
          pointersLen := by
            rw [hps] at hpsLen
            simp at hpsLen ⊢
            omega
          strs := by rw [map_update_none hownK.1, List.map_append, hk₁, hk₂, List.map_append]
          ownKey := hownK.sublist (List.sublist_append_iff.mpr
            ⟨k₁, k₂, rfl, List.Sublist.refl _, List.sublist_cons_self ..⟩) }
    · have hne : q ≠ p := by
        rintro rfl
        exact hq (hownK.2 q (by simp))
      exact (Function.update_of_ne hne ..).trans hs
    · by_cases hqp : q = p
      · subst hqp
        simp only [Function.update_self] at hs
        cases hs
      · exact (Function.update_of_ne hqp ..).symm.trans hs

/-- A node read as a leaf or as an inner node. -/
theorem NodeOK.numKeys_eq {a : Addr} {n : Node} {c : TreeCell} (hok : NodeOK own h a n c) :
    n.numKeys = c.keys.length := by
  cases hb : c.body with
  | leaf es next =>
      obtain ⟨-, kps, rps, hl⟩ := (nodeOK_leaf hb).mp hok
      rw [Cell.keys_leaf hb, List.length_map, hl.numKeys]
  | inner ks cs =>
      obtain ⟨-, kps, hi⟩ := (nodeOK_inner hb).mp hok
      rw [Cell.keys_inner hb, hi.numKeys]

/-- `adjustRoot` leaves a tree whose root has a key, or no tree at all. -/
theorem adjustRoot_spec (hR : Rep own h F) (hwf : TreeWF F root content (some root) none)
    (hlevel : ∀ c, F root = some c → c.level < h.brk) :
    ∃ r h', adjustRoot root h = some (r, h') ∧ HoldsTree h' r content ∧ h.brk ≤ h'.brk := by
  obtain ⟨c, hc, -, hlo, hhi, -⟩ := hwf.root_cell
  obtain ⟨n, hn, hok⟩ := hR.cell root c hc
  have hnum := hok.numKeys_eq
  by_cases hpos : n.numKeys > 0
  · refine ⟨some root, h, ?_, ⟨own, F, hR, hwf.settle (by decide) ?_ (by simp), hlevel⟩, le_rfl⟩
    · simp only [adjustRoot, CM.bind_run, CM.andThen_some, readNode, CM.query_run, hn,
        Option.map_some, if_pos hpos, CM.pure_run]
    · intro a m ha hm
      cases ha
      rw [hc] at hm
      cases hm
      rw [minOf_none, if_pos rfl, ← hnum]
      exact hpos
  · have hzero : c.keys = [] := List.eq_nil_of_length_eq_zero (by omega)
    cases hb : c.body with
    | leaf es next =>
        -- the last name is gone, and the tree with it
        obtain ⟨-, kps, rps, hl⟩ := (nodeOK_leaf hb).mp hok
        obtain ⟨hlv, hholds, -⟩ := hwf.holds hc hb
        obtain ⟨h', hrun, hR', hbrk, -, -⟩ := hR.destroyNode hc
        have hes : es = [] := by
          rw [Cell.keys_leaf hb] at hzero
          exact List.map_eq_nil_iff.mp hzero
        have hF : Function.update F root none = fun _ => none := by
          funext a
          by_cases har : a = root
          · rw [har, Function.update_self]
          · rw [Function.update_of_ne har]
            cases hFa : F a with
            | none => rfl
            | some m => exact absurd (hwf.only_root hc hlv hFa) har
        refine ⟨none, h', ?_, ⟨⟨own, hF ▸ hR'⟩, ?_⟩, hbrk.ge⟩
        · simp only [adjustRoot, CM.bind_run, CM.andThen_some, readNode, CM.query_run, hn,
            Option.map_some, if_neg hpos, hl.isLeaf, Bool.not_true, Bool.false_eq_true, if_false,
            hrun, CM.pure_run]
        · funext q
          rw [hholds.lookup q (by rw [hlo, hhi]; exact inRange_bot_top q), hes]
          rfl
    | inner ks cs =>
        obtain ⟨-, kps, hi⟩ := (nodeOK_inner hb).mp hok
        rw [Cell.keys_inner hb] at hzero
        subst hzero
        obtain ⟨x, rfl⟩ : ∃ x, cs = [x] := List.length_eq_one_iff.mp hi.children
        have hxm : x ∈ c.kids := by rw [Cell.kids_inner hb]; simp
        obtain ⟨nx, hx, -, hxlv⟩ := hwf.kid hc hxm
        have hxr : x ≠ root := hwf.kid_ne_root hc hxm
        obtain ⟨pj, hps⟩ := hi.pointers
        have hslot : n.pointers[0]? = some (some x) := by rw [hps]; rfl
        obtain ⟨h₁, hrun₁, hR₁, hbrk₁, -, -⟩ := hR.setParent hx none
        obtain ⟨h₂, hrun₂, hR₂, hbrk₂, -, -⟩ :=
          hR₁.destroyNode ((Function.update_of_ne hxr.symm ..).trans hc)
        refine ⟨some x, h₂, ?_, ⟨own, _, hR₂, ?_, fun c' hc' => ?_⟩,
          (hbrk₂.trans hbrk₁).ge⟩
        · simp only [adjustRoot, CM.bind_run, CM.andThen_some, CM.liftM_run, readNode,
            CM.query_run, hn, Option.map_some, if_neg hpos, hi.isLeaf, Bool.not_false, if_true,
            hslot, deref_some, hrun₁, hrun₂, CM.pure_run]
        · refine hwf.shrink (by decide) hc hb hx ?_ ?_ fun a har hax => ?_
          · exact Function.update_self ..
          · rw [Function.update_of_ne hxr, Function.update_self]
          · rw [Function.update_of_ne har, Function.update_of_ne hax]
        · rw [Function.update_of_ne hxr, Function.update_self] at hc'
          cases hc'
          have hlt := hlevel c hc
          rw [hbrk₂, hbrk₁]
          simp only
          omega

end Nbfs.BplusTree
