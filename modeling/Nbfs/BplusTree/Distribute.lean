import Nbfs.BplusTree.Coalesce

set_option autoImplicit false

/-!
# Moving one key between siblings (`distribute_nodes`)

A leaf takes over the last or the first entry of its neighbour, and the
separator is overwritten in its own buffer.  Between inner nodes the keys rotate
through the parent, pointers only, and one child changes its parent.
-/

namespace Nbfs.BplusTree

open Nbfs.Lib Nbfs.Lib.Forest Nbfs.Lib.Slots

variable {own : Owner} {h : Heap} {F F' : Tree} {root : Addr}
  {content : CString → Option FileRef} {weak fat : Option Addr}

/-! ## Arrays -/

/-- A slot past the used ones. -/
theorem slots_room {slots rest : List Ptr} {ps : List Addr} (hslots : slots = ps.map some ++ rest)
    (hroom : ps.length < slots.length) : ∃ j rest', rest = j :: rest' := by
  cases rest with
  | nil => simp [hslots] at hroom
  | cons j rest => exact ⟨j, rest, rfl⟩

/-- The last used slot, and the array without it. -/
theorem last_slot {slots rest : List Ptr} {ps : List Addr} {p : Addr}
    (hslots : slots = (ps ++ [p]).map some ++ rest) {i : Nat} (hi : i = ps.length) :
    slots[i]? = some (some p) ∧ store slots i none = some (ps.map some ++ none :: rest) := by
  have hshape : slots = ps.map some ++ some p :: rest := by
    rw [hslots]
    simp
  rw [hshape, hi]
  refine ⟨?_, store_append_cons_of_eq _ _ _ (by simp)⟩
  simp

/-- Shifting all used slots up makes room for a new first one. -/
theorem shiftUp_first {slots rest : List Ptr} {ps : List Addr} {j : Ptr}
    (hslots : slots = ps.map some ++ j :: rest) {count : Nat} (hcount : count = ps.length)
    (q : Addr) : ∃ mid, shiftUp slots 0 count = some mid ∧
      store mid 0 (some q) = some ((q :: ps).map some ++ rest) := by
  obtain ⟨mid, hmid, hstore⟩ := shiftUp_store_slots hslots (Nat.zero_le _) hcount q
  exact ⟨mid, hmid, hstore⟩

/-- The children move up one by one more than the keys. -/
theorem shiftUp_first_child {slots rest : List Ptr} {cs : List Addr} {j : Ptr}
    (hslots : slots = cs.map some ++ j :: rest) {count : Nat} (hcount : count + 1 = cs.length)
    (q : Addr) : ∃ last mid mid', slots[count]? = some last ∧
      store slots (count + 1) last = some mid ∧ shiftUp mid 0 count = some mid' ∧
        store mid' 0 (some q) = some ((q :: cs).map some ++ rest) := by
  obtain ⟨mid', hmid', hstore⟩ := shiftUp_first hslots hcount q
  simp only [shiftUp, Nat.zero_add, Option.bind_eq_bind, Option.bind_eq_some_iff] at hmid'
  obtain ⟨last, hlast, mid, hmid, hshift⟩ := hmid'
  exact ⟨last, mid, mid', hlast, hmid, hshift, hstore⟩

/-- A store into a used slot. -/
theorem store_slot {slots rest : List Ptr} {ps₁ ps₂ : List Addr} {p : Addr}
    (hslots : slots = (ps₁ ++ p :: ps₂).map some ++ rest) {i : Nat} (hi : i = ps₁.length)
    (q : Addr) : store slots i (some q) = some ((ps₁ ++ q :: ps₂).map some ++ rest) := by
  have hshape : slots = ps₁.map some ++ some p :: (ps₂.map some ++ rest) := by
    rw [hslots]
    simp
  rw [hshape, store_append_cons_of_eq _ _ _ (by rw [hi, List.length_map])]
  simp

/-- A store into the first slot that is not used. -/
theorem store_last {slots rest : List Ptr} {ps : List Addr} {j : Ptr}
    (hslots : slots = ps.map some ++ j :: rest) {i : Nat} (hi : i = ps.length) (q : Addr) :
    store slots i (some q) = some ((ps ++ [q]).map some ++ rest) := by
  rw [hslots, store_append_cons_of_eq _ _ _ (by rw [hi, List.length_map])]
  simp

/-- Shifting all used slots down over the first one. -/
theorem shiftDown_first {slots rest : List Ptr} {ps : List Addr} {p : Addr}
    (hslots : slots = (p :: ps).map some ++ rest) {count : Nat} (hcount : count = ps.length) :
    ∃ mid, shiftDown slots 0 count = some mid ∧
      store mid count none = some (ps.map some ++ none :: rest) := by
  have hslots' : slots = ([] ++ p :: ps).map some ++ rest := hslots
  obtain ⟨mid, hmid, hstore⟩ := shiftDown_store_slots hslots'
  rw [List.length_nil, ← hcount] at hmid hstore
  rw [Nat.zero_add] at hstore
  exact ⟨mid, hmid, hstore⟩

/-- An address more for its new owner. -/
theorem Owned.give_cons {own : Addr → Addr} {a q : Addr} {ps : List Addr} (h : Owned own a ps)
    (hq : q ∉ ps) : Owned (give own [q] a) a (q :: ps) :=
  (h.insert hq 0 :)

theorem Owned.give_concat {own : Addr → Addr} {a q : Addr} {ps : List Addr} (h : Owned own a ps)
    (hq : q ∉ ps) : Owned (give own [q] a) a (ps ++ [q]) := by
  have hins := h.insert hq ps.length
  rwa [List.take_length, List.drop_length] at hins

/-- An address less for its old owner. -/
theorem Owned.give_of_not_mem {own : Addr → Addr} {a b q : Addr} {ps : List Addr}
    (h : Owned own a ps) (hq : q ∉ ps) : Owned (give own [q] b) a ps :=
  h.congr fun _ hp => BplusTree.give_of_not_mem fun hmem => hq (List.mem_singleton.mp hmem ▸ hp)

/-- The children move down one by one more than the keys; the last of them stays in
its old slot as well. -/
theorem shiftDown_first_child {slots rest : List Ptr} {cs : List Addr} {x : Addr}
    (hslots : slots = (x :: cs).map some ++ rest) {count : Nat} (hcount : cs.length = count + 1) :
    ∃ mid last, shiftDown slots 0 count = some mid ∧ mid[count + 1]? = some last ∧
      store mid count last = some (cs.map some ++ last :: rest) := by
  obtain ⟨cs, y, rfl⟩ : ∃ cs' y, cs = cs' ++ [y] :=
    ⟨_, _, (List.dropLast_append_getLast (List.ne_nil_of_length_eq_add_one hcount)).symm⟩
  have hlen : cs.length = count := by simpa using hcount
  obtain ⟨w, hw⟩ := shiftDown_append (cs.map some) [] (some x) (some y :: rest)
  have hshape : slots = [] ++ some x :: (cs.map some ++ some y :: rest) := by
    rw [hslots]
    simp
  rw [← hshape, List.length_nil, List.length_map, hlen, List.nil_append] at hw
  refine ⟨_, some y, hw, ?_, ?_⟩
  · rw [List.getElem?_append_right (by simp; omega)]
    simp [hlen]
  · rw [store_append_cons_of_eq _ _ _ (by simp [hlen])]
    simp

/-! ## Writing one separator -/

/-- The parent's node shows the new separator once its buffer does. -/
theorem Rep.overwrite (hR : Rep own h F) {p sp : Addr} {m m' : TreeCell} {n : Node}
    {ks₁ ks₂ : List CString} {s s' : CString} {cs k₁ k₂ : List Addr} (hp : F p = some m)
    (hn : h.nodes p = some n) (hpar : n.parent = m.par)
    (hi : InnerOK own h p n (ks₁ ++ s :: ks₂) cs (k₁ ++ sp :: k₂))
    (hk₁ : k₁.map h.strs = ks₁.map some) (hk₂ : k₂.map h.strs = ks₂.map some)
    (hs' : s'.strlen < maxKeyLen) (hm' : m'.par = m.par)
    (hb' : m'.body = .inner (ks₁ ++ s' :: ks₂) cs) :
    Rep own { h with strs := Function.update h.strs sp (some s') }
      (Function.update F p (some m')) := by
  have hnd : (sp :: (k₁ ++ k₂)).Nodup := List.perm_middle.nodup_iff.mp hi.ownKey.1
  have hother : ∀ q ∈ k₁ ++ k₂, q ≠ sp := by
    rintro q hq rfl
    exact (List.nodup_cons.mp hnd).1 hq
  refine hR.write le_rfl (hR.lt_brk_of_cell hp) (Function.update_eq_self_iff.mpr hn.symm).symm ?_
    (fun q t hq ht => ⟨?_, rfl⟩) (fun q x _ hx => ⟨hx, rfl⟩) (fun q t ht => ?_)
    (fun q x hx => .inl hx)
  · refine (nodeOK_inner hb').mpr ⟨hpar.trans hm'.symm, k₁ ++ sp :: k₂, { hi with
      numKeys := ?_, children := ?_, strs := ?_ }⟩
    · rw [hi.numKeys]
      simp
    · rw [hi.children]
      simp
    · rw [List.map_append, List.map_cons, List.map_append, List.map_cons, ← hk₁, ← hk₂]
      refine congrArg₂ _ ?_ (congrArg₂ _ (Function.update_self ..) ?_)
      · exact List.map_congr_left fun q hq =>
          Function.update_of_ne (hother q (List.mem_append_left _ hq)) ..
      · exact List.map_congr_left fun q hq =>
          Function.update_of_ne (hother q (List.mem_append_right _ hq)) ..
  · have hne : q ≠ sp := by
      rintro rfl
      exact hq (hi.ownKey.2 q (by simp))
    exact (Function.update_of_ne hne ..).trans ht
  · rcases update_some_cases ht with ⟨rfl, rfl⟩ | ⟨-, ht⟩
    · have hmem : h.strs q ∈ (ks₁ ++ s :: ks₂).map some :=
        hi.strs ▸ List.mem_map_of_mem (by simp)
      obtain ⟨k, -, hk⟩ := List.mem_map.mp hmem
      exact .inr ⟨hR.lt_brk_of_str hk.symm, hs'⟩
    · exact .inl ht

/-! ## Leaves -/

/-- One key and its record pass from the leaf `g` to the leaf `t`, and the
separator between the two is overwritten. -/
theorem Rep.handOver (hR : Rep own h F) {g t p : Addr} {c₁ c₂ m c₁' c₂' m' : TreeCell}
    {b n np : Node} {es₁ es₂ es₁' es₂' : List (CString × FileRef)} {nx₁ nx₂ : Ptr}
    {ks₁ ks₂ : List CString} {s s' : CString} {cs kps₁ rps₁ kps₂ rps₂ k₁ k₂ : List Addr}
    {sp : Addr} {kps₁' rps₁' kps₂' rps₂' : List Addr} (kp rp : Addr) (b' n' : Node)
    (hg : F g = some c₁) (ht : F t = some c₂) (hp : F p = some m) (hgt : g ≠ t) (hgp : g ≠ p)
    (htp : t ≠ p) (hl₁ : LeafOK own h g b es₁ nx₁ kps₁ rps₁)
    (hl₂ : LeafOK own h t n es₂ nx₂ kps₂ rps₂) (hnp : h.nodes p = some np)
    (hnppar : np.parent = m.par)
    (hip : InnerOK own h p np (ks₁ ++ s :: ks₂) cs (k₁ ++ sp :: k₂))
    (hk₁ : k₁.map h.strs = ks₁.map some) (hk₂ : k₂.map h.strs = ks₂.map some)
    (hs' : s'.strlen < maxKeyLen) (hkeys₁ : kps₁.Perm (kp :: kps₁'))
    (hrecs₁ : rps₁.Perm (rp :: rps₁')) (hkeys₂ : kps₂'.Perm (kp :: kps₂))
    (hrecs₂ : rps₂'.Perm (rp :: rps₂))
    (hl₁' : ∀ {own' : Owner}, Owned own'.key g kps₁' → Owned own'.record g rps₁' →
      LeafOK own' h g b' es₁' nx₁ kps₁' rps₁')
    (hl₂' : ∀ {own' : Owner}, Owned own'.key t kps₂' → Owned own'.record t rps₂' →
      LeafOK own' h t n' es₂' nx₂ kps₂' rps₂')
    (hb'par : b'.parent = c₁'.par) (hn'par : n'.parent = c₂'.par) (hm : m'.par = m.par)
    (hb₁' : c₁'.body = .leaf es₁' nx₁) (hb₂' : c₂'.body = .leaf es₂' nx₂)
    (hbp' : m'.body = .inner (ks₁ ++ s' :: ks₂) cs) :
    ∃ own', Rep own'
      { h with
        nodes := Function.update (Function.update h.nodes g (some b')) t (some n')
        strs := Function.update h.strs sp (some s') }
      (Function.update (Function.update (Function.update F g (some c₁')) t (some c₂')) p
        (some m')) := by
  have hownK₁ := hl₁.ownKey.perm hkeys₁.symm
  have hownR₁ := hl₁.ownRec.perm hrecs₁.symm
  have hkpg : own.key kp = g := hownK₁.2 kp (by simp)
  have hrpg : own.record rp = g := hownR₁.2 rp (by simp)
  have hnotK₁ := (List.nodup_cons.mp hownK₁.1).1
  have hnotR₁ := (List.nodup_cons.mp hownR₁.1).1
  have hnotK₂ : kp ∉ kps₂ := fun hmem => hgt (hkpg.symm.trans (hl₂.ownKey.2 kp hmem))
  have hnotR₂ : rp ∉ rps₂ := fun hmem => hgt (hrpg.symm.trans (hl₂.ownRec.2 rp hmem))
  generalize hown' : (⟨give own.key [kp] t, give own.record [rp] t⟩ : Owner) = own'
  have hkey : ∀ q, own.key q ≠ g → own'.key q = own.key q := by
    intro q hq
    subst hown'
    exact give_of_not_mem fun hmem => hq (List.mem_singleton.mp hmem ▸ hkpg)
  have hrec : ∀ q, own.record q ≠ g → own'.record q = own.record q := by
    intro q hq
    subst hown'
    exact give_of_not_mem fun hmem => hq (List.mem_singleton.mp hmem ▸ hrpg)
  have hK₁ : Owned own'.key g kps₁' := by
    subst hown'
    exact (hownK₁.sublist (List.sublist_cons_self ..)).give_of_not_mem hnotK₁
  have hQ₁ : Owned own'.record g rps₁' := by
    subst hown'
    exact (hownR₁.sublist (List.sublist_cons_self ..)).give_of_not_mem hnotR₁
  have hK₂ : Owned own'.key t kps₂' := by
    subst hown'
    exact (hl₂.ownKey.give_cons hnotK₂).perm hkeys₂
  have hQ₂ : Owned own'.record t rps₂' := by
    subst hown'
    exact (hl₂.ownRec.give_cons hnotR₂).perm hrecs₂
  have hR₁ : Rep own' { h with nodes := Function.update h.nodes g (some b') }
      (Function.update F g (some c₁')) := by
    refine hR.write le_rfl (hR.lt_brk_of_cell hg) rfl ?_ (fun q x hq hx => ⟨hx, hkey q hq⟩)
      (fun q x hq hx => ⟨hx, hrec q hq⟩) (fun q x hx => .inl hx) (fun q x hx => .inl hx)
    exact (nodeOK_leaf hb₁').mpr ⟨hb'par, kps₁', rps₁', (hl₁' hK₁ hQ₁).of_heap rfl rfl⟩
  have hR₂ : Rep own' { h with
      nodes := Function.update (Function.update h.nodes g (some b')) t (some n') }
      (Function.update (Function.update F g (some c₁')) t (some c₂')) := by
    refine hR₁.write le_rfl (hR.lt_brk_of_cell ht) rfl ?_ (fun q x _ hx => ⟨hx, rfl⟩)
      (fun q x _ hx => ⟨hx, rfl⟩) (fun q x hx => .inl hx) (fun q x hx => .inl hx)
    exact (nodeOK_leaf hb₂').mpr ⟨hn'par, kps₂', rps₂', (hl₂' hK₂ hQ₂).of_heap rfl rfl⟩
  have hnp₂ : Function.update (Function.update h.nodes g (some b')) t (some n') p = some np := by
    rw [Function.update_of_ne htp.symm, Function.update_of_ne hgp.symm, hnp]
  have hp₂ : Function.update (Function.update F g (some c₁')) t (some c₂') p = some m := by
    rw [Function.update_of_ne htp.symm, Function.update_of_ne hgp.symm, hp]
  have hip' : InnerOK own' { h with
      nodes := Function.update (Function.update h.nodes g (some b')) t (some n') } p np
      (ks₁ ++ s :: ks₂) cs (k₁ ++ sp :: k₂) :=
    { hip.of_heap rfl with
      ownKey := hip.ownKey.congr fun q hq => hkey q fun heq =>
        hgp (heq.symm.trans (hip.ownKey.2 q hq)) }
  exact ⟨own', hR₂.overwrite hp₂ hnp₂ hnppar hip' hk₁ hk₂ hs' hm hbp'⟩

/-- A leaf takes over the last entry of the leaf on its left. -/
theorem distributeNodes_leaf_left (hR : Rep own h F) {l r p : Addr} {c₁ c₂ m c₁' c₂' m' : TreeCell}
    {es₁ es₂ : List (CString × FileRef)} {e : CString × FileRef} {nx₁ nx₂ : Ptr}
    {ks₁ ks₂ : List CString} {s : CString} {cs : List Addr} (hl : F l = some c₁)
    (hr : F r = some c₂) (hp : F p = some m) (hlr : l ≠ r) (hlp : l ≠ p) (hrp : r ≠ p)
    (hb₁ : c₁.body = .leaf (es₁ ++ [e]) nx₁) (hb₂ : c₂.body = .leaf es₂ nx₂)
    (hbp : m.body = .inner (ks₁ ++ s :: ks₂) cs) (hpar : c₂.par = some p)
    (hroom : es₂.length < maxKeyNum) (hc₁ : c₁'.par = c₁.par) (hc₂ : c₂'.par = c₂.par)
    (hm : m'.par = m.par) (hb₁' : c₁'.body = .leaf es₁ nx₁)
    (hb₂' : c₂'.body = .leaf (e :: es₂) nx₂) (hbp' : m'.body = .inner (ks₁ ++ e.1 :: ks₂) cs) :
    ∃ own' h', distributeNodes r l (ks₁.length + 1) h = some ((), h') ∧
      Rep own' h' (Function.update (Function.update (Function.update F l (some c₁')) r (some c₂'))
        p (some m')) ∧ h'.brk = h.brk := by
  obtain ⟨n, kps₂, rps₂, hn, hnpar, hl₂⟩ := hR.leaf hr hb₂
  obtain ⟨b, kps₁, rps₁, hb, hbpar, hl₁⟩ := hR.leaf hl hb₁
  obtain ⟨np, kps, hnp, hnppar, hip⟩ := hR.inner hp hbp
  obtain ⟨k₁, sp, k₂, rfl, hklen, hk₁, hslot, hsp, hk₂⟩ := hip.separator
  obtain ⟨kj₁, hkeys₁⟩ := hl₁.keys
  obtain ⟨pj₁, hps₁⟩ := hl₁.pointers
  obtain ⟨kj₂, hkeys₂⟩ := hl₂.keys
  obtain ⟨pj₂, hps₂⟩ := hl₂.pointers
  have hnum₁ := hl₁.numKeys
  have hnum₂ := hl₂.numKeys
  have hroomK₁ := hl₁.keys_room hkeys₁
  have hroomP₁ := hl₁.recs_room hps₁
  have hroomK₂ := hl₂.keys_room hkeys₂
  have hroomP₂ := hl₂.recs_room hps₂
  have hkl₂ := hl₂.keys_length
  have hrl₂ := hl₂.recs_length
  have hstrs₁ := hl₁.strs
  have hrecs₁ := hl₁.recs
  rw [List.map_append, List.map_cons, List.map_nil] at hstrs₁ hrecs₁
  obtain ⟨kps₁, kp, k₀, rfl, hkps₁, hkp, hk₀⟩ := map_eq_split hstrs₁
  obtain ⟨rps₁, rp, r₀, rfl, hrps₁, hrp', hr₀⟩ := map_eq_split hrecs₁
  obtain rfl := List.map_eq_nil_iff.mp hk₀
  obtain rfl := List.map_eq_nil_iff.mp hr₀
  have hkl₁ : kps₁.length = es₁.length := by simpa using congrArg List.length hkps₁
  have hrl₁ : rps₁.length = es₁.length := by simpa using congrArg List.length hrps₁
  have hpred : pred b.numKeys = some es₁.length := by
    rw [hnum₁, List.length_append, List.length_singleton]
    rfl
  -- the two arrays of each leaf
  obtain ⟨j, kj₂, rfl⟩ := slots_room hkeys₂ (by rw [hl₂.keysLen, hkl₂]; exact hroom)
  obtain ⟨midK, hshiftK, hstoreK⟩ := shiftUp_first hkeys₂ (hnum₂.trans hkl₂.symm) kp
  obtain ⟨jp, pj₂, rfl⟩ := List.exists_cons_of_length_pos (by omega : 0 < pj₂.length)
  have hps₂' : n.pointers = rps₂.map some ++ jp :: (pj₂ ++ [nx₂]) := hps₂
  obtain ⟨midP, hshiftP, hstoreP⟩ := shiftUp_first hps₂' (hnum₂.trans hrl₂.symm) rp
  obtain ⟨hgetK, hdropK⟩ := last_slot hkeys₁ hkl₁.symm
  obtain ⟨hgetP, hdropP⟩ := last_slot hps₁ hrl₁.symm
  have hnpar' : n.parent = some p := hnpar.trans hpar
  have hshort := hR.short kp e.1 hkp
  obtain ⟨own', hR'⟩ := hR.handOver kp rp
    { b with
      pointers := rps₁.map some ++ none :: (pj₁ ++ [nx₁])
      keys := kps₁.map some ++ none :: kj₁
      numKeys := es₁.length }
    { n with
      pointers := (rp :: rps₂).map some ++ (pj₂ ++ [nx₂])
      keys := (kp :: kps₂).map some ++ kj₂
      numKeys := n.numKeys + 1 }
    hl hr hp hlr hlp hrp hl₁ hl₂ hnp hnppar hip hk₁ hk₂ hshort (List.perm_append_singleton ..)
    (List.perm_append_singleton ..) (List.Perm.refl _) (List.Perm.refl _)
    (LeafOK.of_slots (none :: kj₁) (none :: pj₁) hl₁.isLeaf rfl (by simp at hroomK₁ ⊢; omega)
      (by simp at hroomP₁ ⊢; omega) hkps₁ hrps₁)
    (LeafOK.of_slots kj₂ pj₂ hl₂.isLeaf (by rw [List.length_cons, hnum₂])
      (by simp at hroomK₂ ⊢; omega) (by simp at hroomP₂ ⊢; omega)
      (by rw [List.map_cons, hkp, hl₂.strs, List.map_cons])
      (by rw [List.map_cons, hrp', hl₂.recs, List.map_cons]))
    (hbpar.trans hc₁.symm) (hnpar.trans hc₂.symm) hm hb₁' hb₂' hbp'
  refine ⟨own', _, ?_, hR', rfl⟩
  have hsp' := strcpy_run hsp hshort
  simp only [distributeNodes, CM.bind_run, CM.andThen_some, CM.liftM_run, readNode, CM.query_run,
    hn, hb, Option.map_some, hnpar', deref_some, hnp, ne_eq, Nat.add_one_ne_zero, not_false_eq_true,
    if_true, show pred (ks₁.length + 1) = some ks₁.length from rfl, hpred, hl₂.isLeaf,
      Bool.not_true,
    Bool.false_eq_true, if_false, hshiftK, hshiftP, hgetK, hstoreK, hdropK, hgetP, hstoreP, hdropP,
    hslot, readStr, hkp, hsp', writeNode, Option.isSome_some, Function.update_of_ne hlr.symm]

/-- A leaf takes over the first entry of the leaf on its right; both are the first
children of their parent. -/
theorem distributeNodes_leaf_right (hR : Rep own h F) {l r p : Addr}
    {c₁ c₂ m c₁' c₂' m' : TreeCell} {es₁ es₂ : List (CString × FileRef)}
    {e e' : CString × FileRef} {nx₁ nx₂ : Ptr} {ks₂ : List CString} {s : CString} {cs : List Addr}
    (hl : F l = some c₁) (hr : F r = some c₂) (hp : F p = some m) (hlr : l ≠ r) (hlp : l ≠ p)
    (hrp : r ≠ p) (hb₁ : c₁.body = .leaf es₁ nx₁) (hb₂ : c₂.body = .leaf (e :: e' :: es₂) nx₂)
    (hbp : m.body = .inner (s :: ks₂) cs) (hpar : c₁.par = some p)
    (hroom : es₁.length < maxKeyNum) (hc₁ : c₁'.par = c₁.par) (hc₂ : c₂'.par = c₂.par)
    (hm : m'.par = m.par) (hb₁' : c₁'.body = .leaf (es₁ ++ [e]) nx₁)
    (hb₂' : c₂'.body = .leaf (e' :: es₂) nx₂) (hbp' : m'.body = .inner (e'.1 :: ks₂) cs) :
    ∃ own' h', distributeNodes l r 0 h = some ((), h') ∧
      Rep own' h' (Function.update (Function.update (Function.update F r (some c₂')) l (some c₁'))
        p (some m')) ∧ h'.brk = h.brk := by
  obtain ⟨n, kps₁, rps₁, hn, hnpar, hl₁⟩ := hR.leaf hl hb₁
  obtain ⟨b, kps₂, rps₂, hb, hbpar, hl₂⟩ := hR.leaf hr hb₂
  obtain ⟨np, kps, hnp, hnppar, hip⟩ := hR.inner hp hbp
  have hsep : InnerOK own h p np ([] ++ s :: ks₂) cs kps := hip
  obtain ⟨k₁, sp, k₂, rfl, -, hk₁, hslot, hsp, hk₂⟩ := hsep.separator
  obtain ⟨kj₁, hkeys₁⟩ := hl₁.keys
  obtain ⟨pj₁, hps₁⟩ := hl₁.pointers
  obtain ⟨kj₂, hkeys₂⟩ := hl₂.keys
  obtain ⟨pj₂, hps₂⟩ := hl₂.pointers
  have hnum₁ := hl₁.numKeys
  have hnum₂ := hl₂.numKeys
  have hroomK₁ := hl₁.keys_room hkeys₁
  have hroomP₁ := hl₁.recs_room hps₁
  have hroomK₂ := hl₂.keys_room hkeys₂
  have hroomP₂ := hl₂.recs_room hps₂
  have hkl₁ := hl₁.keys_length
  have hrl₁ := hl₁.recs_length
  have hstrs₂ := hl₂.strs
  have hrecs₂ := hl₂.recs
  rw [List.map_cons] at hstrs₂ hrecs₂
  obtain ⟨kp, kps₂, rfl, hkp, hkps₂⟩ := List.map_eq_cons_iff.mp hstrs₂
  obtain ⟨rp, rps₂, rfl, hrp', hrps₂⟩ := List.map_eq_cons_iff.mp hrecs₂
  obtain ⟨kp', kps₂, rfl, hkp', -⟩ := List.map_eq_cons_iff.mp hkps₂
  have hkl₂ : (kp' :: kps₂).length = es₂.length + 1 := by simpa using congrArg List.length hkps₂
  have hrl₂ : rps₂.length = es₂.length + 1 := by simpa using congrArg List.length hrps₂
  have hpred : pred b.numKeys = some (es₂.length + 1) := by
    rw [hnum₂]
    rfl
  -- the two arrays of each leaf
  obtain ⟨j, kj₁, rfl⟩ := slots_room hkeys₁ (by rw [hl₁.keysLen, hkl₁]; exact hroom)
  have hstoreK := store_last hkeys₁ (hnum₁.trans hkl₁.symm) kp
  obtain ⟨jp, pj₁, rfl⟩ := List.exists_cons_of_length_pos (by omega : 0 < pj₁.length)
  have hps₁' : n.pointers = rps₁.map some ++ jp :: (pj₁ ++ [nx₁]) := hps₁
  have hstoreP := store_last hps₁' (hnum₁.trans hrl₁.symm) rp
  obtain ⟨midK, hshiftK, hdropK⟩ := shiftDown_first hkeys₂ hkl₂.symm
  obtain ⟨midP, hshiftP, hdropP⟩ := shiftDown_first hps₂ hrl₂.symm
  have hget : b.keys[0]? = some (some kp) := by rw [hkeys₂]; rfl
  have hget' : b.keys[1]? = some (some kp') := by rw [hkeys₂]; rfl
  have hgetP : b.pointers[0]? = some (some rp) := by rw [hps₂]; rfl
  have hnpar' : n.parent = some p := hnpar.trans hpar
  have hshort := hR.short kp' e'.1 hkp'
  obtain ⟨own', hR'⟩ := hR.handOver kp rp
    { b with
      pointers := rps₂.map some ++ none :: (pj₂ ++ [nx₂])
      keys := (kp' :: kps₂).map some ++ none :: kj₂
      numKeys := es₂.length + 1 }
    { n with
      pointers := (rps₁ ++ [rp]).map some ++ (pj₁ ++ [nx₁])
      keys := (kps₁ ++ [kp]).map some ++ kj₁
      numKeys := n.numKeys + 1 }
    hr hl hp hlr.symm hrp hlp hl₂ hl₁ hnp hnppar hip hk₁ hk₂ hshort (List.Perm.refl _)
    (List.Perm.refl _) (List.perm_append_singleton ..) (List.perm_append_singleton ..)
    (LeafOK.of_slots (none :: kj₂) (none :: pj₂) hl₂.isLeaf (by simp)
      (by simp at hroomK₂ ⊢; omega) (by simp at hroomP₂ ⊢; omega) hkps₂ hrps₂)
    (LeafOK.of_slots kj₁ pj₁ hl₁.isLeaf (by simp [hnum₁])
      (by simp at hroomK₁ ⊢; omega) (by simp at hroomP₁ ⊢; omega)
      (by simp [hl₁.strs, hkp]) (by simp [hl₁.recs, hrp']))
    (hbpar.trans hc₂.symm) (hnpar.trans hc₁.symm) hm hb₂' hb₁' hbp'
  refine ⟨own', _, ?_, hR', rfl⟩
  have hsp' := strcpy_run hsp hshort
  simp only [distributeNodes, CM.bind_run, CM.andThen_some, CM.liftM_run, readNode, CM.query_run,
    hn, hb, Option.map_some, hnpar', deref_some, hnp, ne_eq, not_true_eq_false, if_false, hpred,
    hl₁.isLeaf, Bool.not_true, Bool.false_eq_true, hget, hget', hgetP, hstoreK, hstoreP, hshiftK,
    hshiftP, hdropK, hdropP, show np.keys[0]? = some (some sp) from hslot, readStr, hkp', hsp',
    writeNode, Option.isSome_some, if_true, Function.update_of_ne hlr]

/-! ## Inner nodes -/

/-- The key `kp` of the node `g` goes up to the parent, whose key `sp` goes down to
the node `t` together with the child `x` of `g`. -/
theorem Rep.rotate (hR : Rep own h F) {g t p x : Addr} {c₁ c₂ m cx c₁' c₂' m' : TreeCell}
    {b n np nx : Node} {ks₁ ks₂ ks ks₁' ks₂' ks' : List CString}
    {cs₁ cs₂ cs cs₁' cs₂' cs' kps₁ kps₂ kps kps₁' kps₂' kps' rest : List Addr} (kp sp : Addr)
    (b' n' np' : Node) (hg : F g = some c₁) (ht : F t = some c₂) (hp : F p = some m)
    (hx : F x = some cx) (hnx : h.nodes x = some nx) (hgt : g ≠ t) (hgp : g ≠ p) (htp : t ≠ p)
    (hi₁ : InnerOK own h g b ks₁ cs₁ kps₁) (hi₂ : InnerOK own h t n ks₂ cs₂ kps₂)
    (hip : InnerOK own h p np ks cs kps) (hkeys₁ : kps₁.Perm (kp :: kps₁'))
    (hkeys₂ : kps₂'.Perm (sp :: kps₂)) (hkeys : kps.Perm (sp :: rest))
    (hkeys' : kps'.Perm (kp :: rest))
    (hi₁' : ∀ {own' : Owner}, Owned own'.key g kps₁' → InnerOK own' h g b' ks₁' cs₁' kps₁')
    (hi₂' : ∀ {own' : Owner}, Owned own'.key t kps₂' → InnerOK own' h t n' ks₂' cs₂' kps₂')
    (hip' : ∀ {own' : Owner}, Owned own'.key p kps' → InnerOK own' h p np' ks' cs' kps')
    (hb'par : b'.parent = c₁'.par) (hn'par : n'.parent = c₂'.par) (hnp'par : np'.parent = m'.par)
    (hb₁' : c₁'.body = .inner ks₁' cs₁') (hb₂' : c₂'.body = .inner ks₂' cs₂')
    (hbp' : m'.body = .inner ks' cs') :
    ∃ own', Rep own'
      { h with
        nodes := Function.update (Function.update (Function.update (Function.update h.nodes x
          (some { nx with parent := some t })) p (some np')) g (some b')) t (some n') }
      (Function.update (Function.update (Function.update (Function.update F x
        (some { cx with par := some t })) g (some c₁')) p (some m')) t (some c₂')) := by
  have hown₁ := hi₁.ownKey.perm hkeys₁.symm
  have hown := hip.ownKey.perm hkeys.symm
  have hkpg : own.key kp = g := hown₁.2 kp (by simp)
  have hspp : own.key sp = p := hown.2 sp (by simp)
  have hspkp : sp ≠ kp := by
    rintro rfl
    exact hgp (hkpg.symm.trans hspp)
  have hnot₁ := (List.nodup_cons.mp hown₁.1).1
  have hsnot₁ : sp ∉ kps₁' := fun hmem =>
    hgp ((hown₁.2 sp (List.mem_cons_of_mem _ hmem)).symm.trans hspp)
  have hnot : kp ∉ rest := fun hmem =>
    hgp (hkpg.symm.trans (hown.2 kp (List.mem_cons_of_mem _ hmem)))
  have hsnot := (List.nodup_cons.mp hown.1).1
  have hnot₂ : kp ∉ kps₂ := fun hmem => hgt (hkpg.symm.trans (hi₂.ownKey.2 kp hmem))
  have hsnot₂ : sp ∉ kps₂ := fun hmem => htp ((hi₂.ownKey.2 sp hmem).symm.trans hspp)
  -- the two keys pass on one after the other
  have hK₁ : Owned (give own.key [kp] p) g kps₁' :=
    (hown₁.sublist (List.sublist_cons_self ..)).give_of_not_mem hnot₁
  have hK₂ : Owned (give (give own.key [kp] p) [sp] t) t kps₂' :=
    ((hi₂.ownKey.give_of_not_mem hnot₂).give_cons hsnot₂).perm hkeys₂
  have hK : Owned (give (give own.key [kp] p) [sp] t) p kps' := by
    have hup := (hown.sublist (List.sublist_cons_self ..)).give_cons hnot
    exact (hup.give_of_not_mem (by simp [hspkp, hsnot])).perm hkeys'
  obtain ⟨nx', hnx', hokx⟩ := hR.cell x cx hx
  rw [hnx] at hnx'
  cases hnx'
  have hR₀ : Rep own { h with
      nodes := Function.update h.nodes x (some { nx with parent := some t }) }
      (Function.update F x (some { cx with par := some t })) :=
    hR.write le_rfl (hR.lt_brk_of_cell hx) rfl (hokx.setParent _ rfl rfl)
      (fun q y _ hy => ⟨hy, rfl⟩) (fun q y _ hy => ⟨hy, rfl⟩) (fun q y hy => .inl hy)
      (fun q y hy => .inl hy)
  have hR₁ : Rep ⟨give own.key [kp] p, own.record⟩ { h with
      nodes := Function.update (Function.update h.nodes x (some { nx with parent := some t })) g
        (some b') }
      (Function.update (Function.update F x (some { cx with par := some t })) g (some c₁')) := by
    refine hR₀.write le_rfl (hR.lt_brk_of_cell hg) rfl ?_ (fun q y hq hy => ⟨hy, ?_⟩)
      (fun q y _ hy => ⟨hy, rfl⟩) (fun q y hy => .inl hy) (fun q y hy => .inl hy)
    · exact (nodeOK_inner hb₁').mpr ⟨hb'par, kps₁', (hi₁' hK₁).of_heap rfl⟩
    · exact give_of_not_mem fun hmem => hq (List.mem_singleton.mp hmem ▸ hkpg)
  have hR₂ : Rep ⟨give (give own.key [kp] p) [sp] t, own.record⟩ { h with
      nodes := Function.update (Function.update (Function.update h.nodes x
        (some { nx with parent := some t })) g (some b')) p (some np') }
      (Function.update (Function.update (Function.update F x (some { cx with par := some t })) g
        (some c₁')) p (some m')) := by
    refine hR₁.write le_rfl (hR.lt_brk_of_cell hp) rfl ?_ (fun q y hq hy => ⟨hy, ?_⟩)
      (fun q y _ hy => ⟨hy, rfl⟩) (fun q y hy => .inl hy) (fun q y hy => .inl hy)
    · exact (nodeOK_inner hbp').mpr ⟨hnp'par, kps', (hip' hK).of_heap rfl⟩
    · refine give_of_not_mem fun hmem => hq ?_
      rw [List.mem_singleton.mp hmem]
      exact (give_of_not_mem (by simpa using hspkp)).trans hspp
  refine ⟨⟨give (give own.key [kp] p) [sp] t, own.record⟩, ?_⟩
  rw [Function.update_comm hgp.symm]
  refine hR₂.write le_rfl (hR.lt_brk_of_cell ht) rfl ?_ (fun q y _ hy => ⟨hy, rfl⟩)
    (fun q y _ hy => ⟨hy, rfl⟩) (fun q y hy => .inl hy) (fun q y hy => .inl hy)
  exact (nodeOK_inner hb₂').mpr ⟨hn'par, kps₂', (hi₂' hK₂).of_heap rfl⟩

/-- An inner node takes over the last child of the node on its left. -/
theorem distributeNodes_inner_left (hR : Rep own h F) {l r p x : Addr}
    {c₁ c₂ m cx c₁' c₂' m' : TreeCell} {ksl ksr ks₁ ks₂ : List CString} {k s : CString}
    {csl csr cs : List Addr} (hl : F l = some c₁) (hr : F r = some c₂) (hp : F p = some m)
    (hx : F x = some cx) (hlr : l ≠ r) (hlp : l ≠ p) (hrp : r ≠ p)
    (hxne : x ≠ l ∧ x ≠ r ∧ x ≠ p) (hb₁ : c₁.body = .inner (ksl ++ [k]) (csl ++ [x]))
    (hb₂ : c₂.body = .inner ksr csr) (hbp : m.body = .inner (ks₁ ++ s :: ks₂) cs)
    (hpar : c₂.par = some p) (hroom : ksr.length < maxKeyNum) (hc₁ : c₁'.par = c₁.par)
    (hc₂ : c₂'.par = c₂.par) (hm : m'.par = m.par) (hb₁' : c₁'.body = .inner ksl csl)
    (hb₂' : c₂'.body = .inner (s :: ksr) (x :: csr))
    (hbp' : m'.body = .inner (ks₁ ++ k :: ks₂) cs) :
    ∃ own' h', distributeNodes r l (ks₁.length + 1) h = some ((), h') ∧
      Rep own' h' (Function.update (Function.update (Function.update (Function.update F x
        (some { cx with par := some r })) l (some c₁')) p (some m')) r (some c₂')) ∧
      h'.brk = h.brk := by
  obtain ⟨n, kps₂, hn, hnpar, hi₂⟩ := hR.inner hr hb₂
  obtain ⟨b, kps₁, hb, hbpar, hi₁⟩ := hR.inner hl hb₁
  obtain ⟨np, kps, hnp, hnppar, hip⟩ := hR.inner hp hbp
  obtain ⟨nx, hnx, -⟩ := hR.cell x cx hx
  obtain ⟨k₁, sp, k₂, rfl, hklen, hk₁, hslot, hsp, hk₂⟩ := hip.separator
  obtain ⟨kj₁, hkeys₁⟩ := hi₁.keys
  obtain ⟨pj₁, hps₁⟩ := hi₁.pointers
  obtain ⟨kj₂, hkeys₂⟩ := hi₂.keys
  obtain ⟨pj₂, hps₂⟩ := hi₂.pointers
  obtain ⟨kj, hkeys⟩ := hip.keys
  obtain ⟨pj, hps⟩ := hip.pointers
  have hnum₁ := hi₁.numKeys
  have hnum₂ := hi₂.numKeys
  have hroomK₁ := hi₁.keys_room hkeys₁
  have hroomP₁ := hi₁.kids_room hps₁
  have hroomK₂ := hi₂.keys_room hkeys₂
  have hroomP₂ := hi₂.kids_room hps₂
  have hroomK := hip.keys_room hkeys
  have hkl₂ := hi₂.keys_length
  have hchildren₁ := hi₁.children
  have hchildren₂ := hi₂.children
  have hstrs₁ := hi₁.strs
  rw [List.map_append, List.map_cons, List.map_nil] at hstrs₁
  obtain ⟨kps₁, kp, k₀, rfl, hkps₁, hkp, hk₀⟩ := map_eq_split hstrs₁
  obtain rfl := List.map_eq_nil_iff.mp hk₀
  have hkl₁ : kps₁.length = ksl.length := by simpa using congrArg List.length hkps₁
  simp only [List.length_append, List.length_cons, List.length_nil] at hnum₁ hroomK₁ hroomP₁
  simp only [List.length_append, List.length_cons, List.length_nil] at hroomK hchildren₁
  have hpred : pred b.numKeys = some ksl.length := by
    rw [hnum₁]
    rfl
  -- the arrays of the three nodes
  obtain ⟨j, kj₂, rfl⟩ := slots_room hkeys₂ (by rw [hi₂.keysLen, hkl₂]; exact hroom)
  obtain ⟨midK, hshiftK, hstoreK⟩ := shiftUp_first hkeys₂ (hnum₂.trans hkl₂.symm) sp
  obtain ⟨jp, pj₂, rfl⟩ := slots_room hps₂ (by rw [hi₂.pointersLen, hchildren₂]; omega)
  obtain ⟨last, midP, midP', hlast, hstoreP, hshiftP, hstoreP'⟩ :=
    shiftUp_first_child hps₂ (by omega : n.numKeys + 1 = csr.length) x
  obtain ⟨hgetK, hdropK⟩ := last_slot hkeys₁ hkl₁.symm
  obtain ⟨hgetP, hdropP⟩ := last_slot hps₁ (by omega : b.numKeys = csl.length)
  have hstoreS := store_slot hkeys hklen.symm kp
  have hnpar' : n.parent = some p := hnpar.trans hpar
  obtain ⟨own', hR'⟩ := hR.rotate kp sp
    { b with
      pointers := csl.map some ++ none :: pj₁
      keys := kps₁.map some ++ none :: kj₁
      numKeys := ksl.length }
    { n with
      pointers := (x :: csr).map some ++ pj₂
      keys := (sp :: kps₂).map some ++ kj₂
      numKeys := n.numKeys + 1 }
    { np with keys := (k₁ ++ kp :: k₂).map some ++ kj }
    hl hr hp hx hnx hlr hlp hrp hi₁ hi₂ hip (List.perm_append_singleton ..) (List.Perm.refl _)
    List.perm_middle List.perm_middle
    (InnerOK.of_slots (none :: kj₁) (none :: pj₁) hi₁.isLeaf rfl (by omega) (by simp; omega)
      (by simp; omega) hkps₁)
    (InnerOK.of_slots kj₂ pj₂ hi₂.isLeaf (by simp [hnum₂]) (by simp [hchildren₂])
      (by simp at hroomK₂ ⊢; omega) (by simp at hroomP₂ ⊢; omega) (by simp [hsp, hi₂.strs]))
    (fun hown => { hip with
      numKeys := by simpa using hip.numKeys
      children := by simpa using hip.children
      keys := ⟨kj, rfl⟩
      keysLen := by simp; omega
      strs := by simp [hk₁, hkp, hk₂]
      ownKey := hown })
    (hbpar.trans hc₁.symm) (hnpar.trans hc₂.symm) (hnppar.trans hm.symm) hb₁' hb₂' hbp'
  refine ⟨own', _, ?_, hR', rfl⟩
  have hrun := setParent_run (some r) hnx
  obtain ⟨hxl, hxr, hxp⟩ := hxne
  simp only [distributeNodes, CM.bind_run, CM.andThen_some, CM.liftM_run, readNode, CM.query_run,
    hn, hb, Option.map_some, hnpar', deref_some, hnp, ne_eq, Nat.add_one_ne_zero, not_false_eq_true,
    if_true, show pred (ks₁.length + 1) = some ks₁.length from rfl, hpred, hi₂.isLeaf,
      Bool.not_false,
    hlast, hstoreP, hshiftK, hshiftP, hslot, hstoreK, hgetP, hstoreP', hrun, hdropP, hgetK, hstoreS,
    hdropK, writeNode, Option.isSome_some, Function.update_of_ne hxp.symm,
    Function.update_of_ne hlp, Function.update_of_ne hxl.symm, Function.update_of_ne hlr.symm,
    Function.update_of_ne hrp, Function.update_of_ne hxr.symm]

/-- An inner node takes over the first child of the node on its right; both are the
first children of their parent. -/
theorem distributeNodes_inner_right (hR : Rep own h F) {l r p x : Addr}
    {c₁ c₂ m cx c₁' c₂' m' : TreeCell} {ksl ksr ks₂ : List CString} {k s : CString}
    {csl csr cs : List Addr} (hl : F l = some c₁) (hr : F r = some c₂) (hp : F p = some m)
    (hx : F x = some cx) (hlr : l ≠ r) (hlp : l ≠ p) (hrp : r ≠ p)
    (hxne : x ≠ l ∧ x ≠ r ∧ x ≠ p) (hb₁ : c₁.body = .inner ksl csl)
    (hb₂ : c₂.body = .inner (k :: ksr) (x :: csr)) (hbp : m.body = .inner (s :: ks₂) cs)
    (hpar : c₁.par = some p) (hroom : ksl.length < maxKeyNum) (hc₁ : c₁'.par = c₁.par)
    (hc₂ : c₂'.par = c₂.par) (hm : m'.par = m.par)
    (hb₁' : c₁'.body = .inner (ksl ++ [s]) (csl ++ [x])) (hb₂' : c₂'.body = .inner ksr csr)
    (hbp' : m'.body = .inner (k :: ks₂) cs) :
    ∃ own' h', distributeNodes l r 0 h = some ((), h') ∧
      Rep own' h' (Function.update (Function.update (Function.update (Function.update F x
        (some { cx with par := some l })) r (some c₂')) p (some m')) l (some c₁')) ∧
      h'.brk = h.brk := by
  obtain ⟨n, kps₁, hn, hnpar, hi₁⟩ := hR.inner hl hb₁
  obtain ⟨b, kps₂, hb, hbpar, hi₂⟩ := hR.inner hr hb₂
  obtain ⟨np, kps, hnp, hnppar, hip⟩ := hR.inner hp hbp
  obtain ⟨nx, hnx, -⟩ := hR.cell x cx hx
  have hsep : InnerOK own h p np ([] ++ s :: ks₂) cs kps := hip
  obtain ⟨k₁, sp, k₂, rfl, hklen, hk₁, hslot, hsp, hk₂⟩ := hsep.separator
  obtain rfl := List.map_eq_nil_iff.mp hk₁
  obtain ⟨kj₁, hkeys₁⟩ := hi₁.keys
  obtain ⟨pj₁, hps₁⟩ := hi₁.pointers
  obtain ⟨kj₂, hkeys₂⟩ := hi₂.keys
  obtain ⟨pj₂, hps₂⟩ := hi₂.pointers
  obtain ⟨kj, hkeys⟩ := hip.keys
  obtain ⟨pj, hps⟩ := hip.pointers
  have hnum₁ := hi₁.numKeys
  have hnum₂ := hi₂.numKeys
  have hroomK₁ := hi₁.keys_room hkeys₁
  have hroomP₁ := hi₁.kids_room hps₁
  have hroomK₂ := hi₂.keys_room hkeys₂
  have hroomP₂ := hi₂.kids_room hps₂
  have hroomK := hip.keys_room hkeys
  have hkl₁ := hi₁.keys_length
  have hchildren₁ := hi₁.children
  have hchildren₂ := hi₂.children
  have hstrs₂ := hi₂.strs
  rw [List.map_cons] at hstrs₂
  obtain ⟨kp, kps₂, rfl, hkp, hkps₂⟩ := List.map_eq_cons_iff.mp hstrs₂
  have hkl₂ : kps₂.length = ksr.length := by simpa using congrArg List.length hkps₂
  simp only [List.length_cons] at hnum₂ hroomK₂ hroomP₂ hchildren₂
  have hpred : pred b.numKeys = some ksr.length := by
    rw [hnum₂]
    rfl
  -- the arrays of the three nodes
  obtain ⟨j, kj₁, rfl⟩ := slots_room hkeys₁ (by rw [hi₁.keysLen, hkl₁]; exact hroom)
  have hstoreK := store_last hkeys₁ (hnum₁.trans hkl₁.symm) sp
  obtain ⟨jp, pj₁, rfl⟩ := slots_room hps₁ (by rw [hi₁.pointersLen, hchildren₁]; omega)
  have hstoreP := store_last hps₁ (by omega : n.numKeys + 1 = csl.length) x
  obtain ⟨midK, hshiftK, hdropK⟩ := shiftDown_first hkeys₂ hkl₂.symm
  obtain ⟨midP, last, hshiftP, hlast, hdropP⟩ :=
    shiftDown_first_child hps₂ (by omega : csr.length = ksr.length + 1)
  have hget : b.keys[0]? = some (some kp) := by rw [hkeys₂]; rfl
  have hgetP : b.pointers[0]? = some (some x) := by rw [hps₂]; rfl
  have hstoreS : store np.keys 0 (some kp) = some ((kp :: k₂).map some ++ kj) :=
    store_slot hkeys rfl kp
  have hnpar' : n.parent = some p := hnpar.trans hpar
  obtain ⟨own', hR'⟩ := hR.rotate kp sp
    { b with
      pointers := csr.map some ++ last :: pj₂
      keys := kps₂.map some ++ none :: kj₂
      numKeys := ksr.length }
    { n with
      pointers := (csl ++ [x]).map some ++ pj₁
      keys := (kps₁ ++ [sp]).map some ++ kj₁
      numKeys := n.numKeys + 1 }
    { np with keys := (kp :: k₂).map some ++ kj }
    hr hl hp hx hnx hlr.symm hrp hlp hi₂ hi₁ hip (List.Perm.refl _)
    (List.perm_append_singleton ..) (List.Perm.refl _) (List.Perm.refl _)
    (InnerOK.of_slots (none :: kj₂) (last :: pj₂) hi₂.isLeaf rfl (by omega) (by simp; omega)
      (by simp; omega) hkps₂)
    (InnerOK.of_slots kj₁ pj₁ hi₁.isLeaf (by simp [hnum₁]) (by simp [hchildren₁])
      (by simp at hroomK₁ ⊢; omega) (by simp at hroomP₁ ⊢; omega) (by simp [hsp, hi₁.strs]))
    (fun hown => { hip with
      numKeys := by simpa using hip.numKeys
      children := by simpa using hip.children
      keys := ⟨kj, rfl⟩
      keysLen := by simp at hroomK ⊢; omega
      strs := by simp [hkp, hk₂]
      ownKey := hown })
    (hbpar.trans hc₂.symm) (hnpar.trans hc₁.symm) (hnppar.trans hm.symm) hb₂' hb₁' hbp'
  refine ⟨own', _, ?_, hR', rfl⟩
  have hrun := setParent_run (some l) hnx
  obtain ⟨hxl, hxr, hxp⟩ := hxne
  simp only [distributeNodes, CM.bind_run, CM.andThen_some, CM.liftM_run, readNode, CM.query_run,
    hn, hb, Option.map_some, hnpar', deref_some, hnp, ne_eq, not_true_eq_false, if_false, if_true,
    hpred, hi₁.isLeaf, Bool.not_false, show np.keys[0]? = some (some sp) from hslot, hstoreK, hgetP,
    hstoreP, hrun, hget, hstoreS, hshiftK, hshiftP, hdropK, hlast, hdropP, writeNode,
    Option.isSome_some, Function.update_of_ne hxp.symm, Function.update_of_ne hrp,
    Function.update_of_ne hxr.symm, Function.update_of_ne hlr, Function.update_of_ne hlp,
    Function.update_of_ne hxl.symm]

end Nbfs.BplusTree
