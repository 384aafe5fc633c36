import Nbfs.Cache.Tree
import Mathlib.Data.Nat.ModEq
import Mathlib.Tactic.Ring

set_option autoImplicit false

/-!
# The cache tree as a map from offsets to buffers

The buffer of an offset is found by the base-64 digits of the number of its
`CACHE_BUFFER_SIZE` unit, one digit for each level.  In a tree whose masks and
levels are right, each function of the tree is the operation on that map.
-/

namespace Nbfs.Cache

/-! ## Digits -/

/-- The slot that a unit has in a node of the level. -/
def digit (level s : Nat) : Fin cacheTreeWidth := ⟨s / 64 ^ level % 64, Nat.mod_lt _ (by decide)⟩

theorem digit_mod {level m : Nat} (h : level < m) (s : Nat) :
    digit level (s % 64 ^ m) = digit level s := by
  have hpow : 64 ^ m = 64 ^ level * 64 ^ (m - level) := by
    rw [← pow_add, Nat.add_sub_cancel' (Nat.le_of_lt h)]
  have hdvd : 64 ∣ 64 ^ (m - level) := dvd_pow_self 64 (Nat.sub_ne_zero_of_lt h)
  apply Fin.ext
  change s % 64 ^ m / 64 ^ level % 64 = s / 64 ^ level % 64
  rw [hpow, Nat.mod_mul_right_div_self, Nat.mod_mod_of_dvd _ hdvd]

/-- The value of a top digit. -/
theorem digit_val {n s : Nat} (h : s < 64 ^ (n + 1)) : (digit n s).val = s / 64 ^ n :=
  Nat.mod_eq_of_lt (Nat.div_lt_of_lt_mul (by rwa [pow_succ] at h))

/-- A unit is its top digit and the rest. -/
theorem eq_iff_digit {n s s' : Nat} (hs : s < 64 ^ (n + 1)) (hs' : s' < 64 ^ (n + 1)) :
    s = s' ↔ digit n s = digit n s' ∧ s % 64 ^ n = s' % 64 ^ n := by
  constructor
  · rintro rfl
    exact ⟨rfl, rfl⟩
  · rintro ⟨hdigit, hrest⟩
    have hhigh : s / 64 ^ n = s' / 64 ^ n := by
      rw [← digit_val hs, ← digit_val hs', hdigit]
    rw [← Nat.div_add_mod s (64 ^ n), ← Nat.div_add_mod s' (64 ^ n), hhigh, hrest]

theorem digit_eq_zero_iff {n s : Nat} (hs : s < 64 ^ (n + 1)) : digit n s = 0 ↔ s < 64 ^ n := by
  rw [Fin.ext_iff, digit_val hs]
  change s / 64 ^ n = 0 ↔ s < 64 ^ n
  rw [Nat.div_eq_zero_iff_lt (Nat.pow_pos (by decide))]

/-! ## Masks -/

/-- `present_mask` has the bits of the slots in use. -/
def MaskOK (presentMask : BitVec 64) (u : Slots) : Prop :=
  ∀ i : Fin cacheTreeWidth, presentMask.getLsbD i = !(u i).isNull

theorem getLsbD_one_shift (i j : Fin cacheTreeWidth) :
    (1#64 <<< i.val).getLsbD j = decide (j = i) := by
  have hi := i.isLt
  have hj := j.isLt
  rw [BitVec.getLsbD_shiftLeft, BitVec.getLsbD_one]
  by_cases h : j = i
  · subst h
    simp [hj]
  · have hne : j.val ≠ i.val := fun hval => h (Fin.ext hval)
    simp only [h, decide_false]
    by_cases hlt : j.val < i.val
    · simp [hlt]
    · have : j.val - i.val ≠ 0 := by omega
      simp [this]

namespace MaskOK

variable {presentMask : BitVec 64} {u : Slots} {i : Fin cacheTreeWidth} {slot : CacheTree}

theorem zero : MaskOK 0 fun _ => .null := fun _ => by simp [CacheTree.isNull]

theorem eq_zero_iff (h : MaskOK presentMask u) : presentMask = 0 ↔ ∀ i, (u i).isNull = true := by
  constructor
  · rintro rfl i
    have hi := h i
    simpa using hi
  · intro hnull
    refine BitVec.eq_of_getLsbD_eq fun i hi => ?_
    have hbit := h ⟨i, hi⟩
    rw [hnull] at hbit
    simpa using hbit

theorem ne_zero (h : MaskOK presentMask u) (hi : (u i).isNull = false) : presentMask ≠ 0 := by
  intro hzero
  rw [h.eq_zero_iff.mp hzero i] at hi
  cases hi

theorem set (h : MaskOK presentMask u) (i : Fin cacheTreeWidth) (slot : CacheTree)
    (hslot : slot.isNull = false) :
    MaskOK (setPresent presentMask i) (Function.update u i slot) := by
  intro j
  rw [setPresent, BitVec.getLsbD_or, getLsbD_one_shift]
  by_cases hj : j = i
  · subst hj
    simp [hslot]
  · rw [Function.update_of_ne hj, h j, decide_eq_false hj, Bool.or_false]

theorem clear (h : MaskOK presentMask u) :
    MaskOK (clearPresent presentMask i) (Function.update u i .null) := by
  intro j
  have hj := j.isLt
  rw [clearPresent, BitVec.getLsbD_and, BitVec.getLsbD_not, getLsbD_one_shift]
  by_cases hji : j = i
  · subst hji
    simp [CacheTree.isNull]
  · rw [Function.update_of_ne hji, h j, decide_eq_false hji]
    simp [hj]

theorem keep (h : MaskOK presentMask u) (hslot : slot.isNull = (u i).isNull) :
    MaskOK presentMask (Function.update u i slot) := by
  intro j
  by_cases hj : j = i
  · subst hj
    rw [Function.update_self, hslot, h j]
  · rw [Function.update_of_ne hj, h j]

end MaskOK

/-! ## Shape and contents -/

/-- A slot of a node of level 0. -/
def LeafSlot (slot : CacheTree) : Prop := slot = .null ∨ ∃ b, slot = .buffer b

/-- The masks and levels of a tree of the level are right, and no node below its root
is empty. -/
def Leveled : Nat → CacheTree → Prop
  | 0, .node level presentMask u =>
      level = 0 ∧ MaskOK presentMask u ∧ ∀ i, LeafSlot (u i)
  | n + 1, .node level presentMask u =>
      level = n + 1 ∧ MaskOK presentMask u ∧
        ∀ i, u i = .null ∨ (Leveled n (u i) ∧ (u i).presentMask ≠ 0)
  | _, _ => False

/-- The buffer of a unit. -/
def bufferAt : Nat → CacheTree → Nat → Option BufRef
  | 0, .node _ _ u, s =>
      match u (digit 0 s) with
      | .buffer b => some b
      | _ => none
  | n + 1, .node _ _ u, s => bufferAt n (u (digit (n + 1) s)) s
  | _, _, _ => none

@[simp] theorem bufferAt_null (n s : Nat) : bufferAt n .null s = none := by
  cases n <;> rfl

/-- Only the digits of the levels count. -/
theorem bufferAt_mod : ∀ {n m : Nat} (t : CacheTree) (s : Nat), n < m →
    bufferAt n t (s % 64 ^ m) = bufferAt n t s
  | 0, m, t, s, h => by
      cases t with
      | node level presentMask u => simp only [bufferAt, digit_mod h]
      | _ => rfl
  | n + 1, m, t, s, h => by
      cases t with
      | node level presentMask u =>
          simp only [bufferAt, digit_mod h]
          exact bufferAt_mod _ s (Nat.lt_of_succ_lt h)
      | _ => rfl

namespace Leveled

variable {n : Nat} {t : CacheTree}

/-- A tree of a level is a node of that level with the mask of its slots. -/
theorem node (h : Leveled n t) :
    ∃ presentMask u, t = .node n presentMask u ∧ MaskOK presentMask u := by
  cases n with
  | zero =>
      cases t with
      | node level presentMask u => exact ⟨presentMask, u, by rw [h.1], h.2.1⟩
      | null => exact h.elim
      | buffer b => exact h.elim
  | succ n =>
      cases t with
      | node level presentMask u => exact ⟨presentMask, u, by rw [h.1], h.2.1⟩
      | null => exact h.elim
      | buffer b => exact h.elim

theorem not_null (h : Leveled n t) : t.isNull = false := by
  obtain ⟨presentMask, u, rfl, -⟩ := h.node
  rfl

theorem level_eq (h : Leveled n t) : t.level = n := by
  obtain ⟨presentMask, u, rfl, -⟩ := h.node
  rfl

theorem zeroed (n : Nat) : Leveled n (CacheTree.zeroed n) := by
  cases n with
  | zero => exact ⟨rfl, MaskOK.zero, fun _ => Or.inl rfl⟩
  | succ n => exact ⟨rfl, MaskOK.zero, fun _ => Or.inl rfl⟩

end Leveled

theorem bufferAt_zeroed (n s : Nat) : bufferAt n (CacheTree.zeroed n) s = none := by
  cases n with
  | zero => rfl
  | succ n => exact bufferAt_null n s

/-- The level of a root never needs a shift of 64 or more. -/
theorem cacheTreeLevelSize_eq {level : Nat} (h : level ≤ 7) :
    cacheTreeLevelSize level = some (cacheBufferSize * 64 ^ level) := by
  have hshift : cacheTreeLevelShift level < 64 := by
    unfold cacheTreeLevelShift cacheBufferShift cacheTreeShift
    omega
  rw [cacheTreeLevelSize, if_pos hshift, cacheTreeLevelShift, pow_add, Nat.mul_comm level,
    pow_mul]
  rfl

theorem cacheTreeLevelSize_mask {level offset : Nat} :
    offset &&& (cacheBufferSize * 64 ^ level - 1) = offset % (cacheBufferSize * 64 ^ level) := by
  have hpow : cacheBufferSize * 64 ^ level = 2 ^ (18 + 6 * level) := by
    rw [pow_add, pow_mul]
    rfl
  rw [hpow, Nat.and_two_pow_sub_one_eq_mod]

/-! ## Search -/

theorem levelSize_pos (level : Nat) : 0 < cacheBufferSize * 64 ^ level :=
  Nat.mul_pos (by decide) (Nat.pow_pos (by decide))

theorem div_level (offset level : Nat) :
    offset / (cacheBufferSize * 64 ^ level) = offset / cacheBufferSize / 64 ^ level :=
  (Nat.div_div_eq_div_mul ..).symm

theorem mod_level (offset level : Nat) :
    offset % (cacheBufferSize * 64 ^ level) / cacheBufferSize =
      offset / cacheBufferSize % 64 ^ level :=
  Nat.mod_mul_right_div_self ..

/-- The slot that the division gives is the digit. -/
theorem slot_eq_digit {offset level : Nat}
    (h : offset / (cacheBufferSize * 64 ^ level) < cacheTreeWidth) :
    (⟨offset / (cacheBufferSize * 64 ^ level), h⟩ : Fin cacheTreeWidth) =
      digit level (offset / cacheBufferSize) := by
  apply Fin.ext
  change _ = offset / cacheBufferSize / 64 ^ level % 64
  rw [← div_level, Nat.mod_eq_of_lt h]

/-- `tree_find_buffer` gives the buffer of the offset's unit. -/
theorem treeFindBuffer_eq : ∀ {n : Nat} {t : CacheTree}, Leveled n t → n ≤ 6 →
    ∀ offset, offset < cacheBufferSize * 64 ^ (n + 1) →
      treeFindBuffer t offset = some (bufferAt n t (offset / cacheBufferSize))
  | 0, t, h, _, offset, hoffset => by
      obtain ⟨presentMask, u, rfl, -⟩ := h.node
      have hslot : offset / (cacheBufferSize * 64 ^ 0) < cacheTreeWidth :=
        Nat.div_lt_of_lt_mul (by rwa [pow_zero, Nat.mul_one])
      simp only [treeFindBuffer, cacheTreeLevelSize_eq (Nat.zero_le 7), Option.bind_eq_bind,
        Option.bind_some, hslot, dif_pos, if_true, bufferAt, slot_eq_digit]
      rcases h.2.2 (digit 0 (offset / cacheBufferSize)) with hnull | ⟨b, hb⟩
      · rw [hnull]
      · rw [hb]
  | n + 1, t, h, hn, offset, hoffset => by
      obtain ⟨presentMask, u, rfl, -⟩ := h.node
      have hslot : offset / (cacheBufferSize * 64 ^ (n + 1)) < cacheTreeWidth :=
        Nat.div_lt_of_lt_mul (by rwa [pow_succ, ← Nat.mul_assoc] at hoffset)
      simp only [treeFindBuffer, cacheTreeLevelSize_eq (Nat.le_succ_of_le hn), Option.bind_eq_bind,
        Option.bind_some, hslot, dif_pos, bufferAt, slot_eq_digit, cacheTreeLevelSize_mask,
        Nat.succ_ne_zero, if_false]
      rcases h.2.2 (digit (n + 1) (offset / cacheBufferSize)) with hnull | ⟨hchild, -⟩
      · rw [hnull, bufferAt_null]
        rfl
      · rw [treeFindBuffer_eq hchild (Nat.le_of_succ_le hn) _ (Nat.mod_lt _ (levelSize_pos _)),
          mod_level, bufferAt_mod _ _ (Nat.lt_succ_self n)]

/-- Beyond the root's range nothing is found. -/
theorem treeFindBuffer_beyond {n : Nat} {t : CacheTree} (h : Leveled n t) (hn : n ≤ 6)
    {offset : Nat} (hoffset : cacheBufferSize * 64 ^ (n + 1) ≤ offset) :
    treeFindBuffer t offset = some none := by
  obtain ⟨presentMask, u, rfl, -⟩ := h.node
  have hslot : ¬ offset / (cacheBufferSize * 64 ^ n) < cacheTreeWidth := by
    rw [Nat.not_lt, Nat.le_div_iff_mul_le (levelSize_pos n)]
    calc 64 * (cacheBufferSize * 64 ^ n) = cacheBufferSize * 64 ^ (n + 1) := by ring
      _ ≤ offset := hoffset
  simp only [treeFindBuffer, cacheTreeLevelSize_eq (Nat.le_succ_of_le hn), Option.bind_eq_bind,
    Option.bind_some, hslot, dif_neg, not_false_eq_true]

/-! ## Insertion -/

/-- The buffer of a unit, which may lie beyond the root's range. -/
def lookup (n : Nat) (t : CacheTree) (s : Nat) : Option BufRef :=
  if s < 64 ^ (n + 1) then bufferAt n t s else none

theorem bufferAt_empty {n : Nat} {t : CacheTree} (h : Leveled n t) (hmask : t.presentMask = 0)
    (s : Nat) : bufferAt n t s = none := by
  obtain ⟨presentMask, u, rfl, hu⟩ := h.node
  have hslot : ∀ i, u i = .null := fun i =>
    CacheTree.isNull_iff.mp (hu.eq_zero_iff.mp hmask i)
  cases n with
  | zero => simp [bufferAt, hslot]
  | succ n => simp [bufferAt, hslot]

/-- A new root above one that is in use. -/
theorem grow_used {n : Nat} {t : CacheTree} (h : Leveled n t) (hmask : t.presentMask ≠ 0) :
    Leveled (n + 1) (.node (n + 1) 1 (Function.update (fun _ => .null) 0 t)) ∧
      ∀ s, lookup (n + 1) (.node (n + 1) 1 (Function.update (fun _ => .null) 0 t)) s =
        lookup n t s := by
  have hone : (1 : BitVec 64) = setPresent 0 0 := by decide
  refine ⟨⟨rfl, ?_, fun i => ?_⟩, fun s => ?_⟩
  · rw [hone]
    exact MaskOK.zero.set _ _ h.not_null
  · by_cases hi : i = 0
    · subst hi
      rw [Function.update_self]
      exact Or.inr ⟨h, hmask⟩
    · rw [Function.update_of_ne hi]
      exact Or.inl rfl
  · unfold lookup
    have hpow : 64 ^ (n + 1) ≤ 64 ^ (n + 1 + 1) := Nat.pow_le_pow_right (by decide) (Nat.le_succ _)
    by_cases hs : s < 64 ^ (n + 1)
    · have hbig := lt_of_lt_of_le hs hpow
      rw [if_pos hbig, if_pos hs, bufferAt, (digit_eq_zero_iff hbig).mpr hs, Function.update_self]
    · rw [if_neg hs]
      split
      · rename_i hbig
        have hdigit : digit (n + 1) s ≠ 0 := fun hzero => hs ((digit_eq_zero_iff hbig).mp hzero)
        rw [bufferAt, Function.update_of_ne hdigit, bufferAt_null]
      · rfl

/-- An empty root may take any level. -/
theorem grow_empty {n : Nat} {presentMask : BitVec 64} {u : Slots}
    (h : Leveled n (.node n presentMask u)) (hmask : presentMask = 0) :
    Leveled (n + 1) (.node (n + 1) presentMask u) ∧
      ∀ s, lookup (n + 1) (.node (n + 1) presentMask u) s = lookup n (.node n presentMask u) s := by
  obtain ⟨_, _, heq, hu⟩ := h.node
  cases heq
  have hslot : ∀ i, u i = .null := fun i =>
    CacheTree.isNull_iff.mp (hu.eq_zero_iff.mp hmask i)
  have hnext : Leveled (n + 1) (.node (n + 1) presentMask u) := ⟨rfl, hu, fun i => Or.inl (hslot i)⟩
  refine ⟨hnext, fun s => ?_⟩
  unfold lookup
  rw [bufferAt_empty h hmask, bufferAt_empty hnext hmask]
  split <;> split <;> rfl

/-- The first loop of `tree_insert_buffer` ends with a root that covers the offset and
has the same buffers. -/
theorem growRoot_eq : ∀ (fuel : Nat) {n : Nat} {t : CacheTree} {offset : Nat},
    Leveled n t → n ≤ 6 →
    offset < cacheBufferSize * 64 ^ 7 → 6 < n + fuel →
    ∃ m t', growRoot fuel t offset = some t' ∧ Leveled m t' ∧ m ≤ 6 ∧
      offset < cacheBufferSize * 64 ^ (m + 1) ∧ ∀ s, lookup m t' s = lookup n t s
  | 0, n, _, _, _, hn, _, hfuel => absurd hfuel (Nat.not_lt.mpr hn)
  | fuel + 1, n, t, offset, h, hn, hoffset, hfuel => by
      obtain ⟨presentMask, u, rfl, hu⟩ := h.node
      simp only [growRoot, CacheTree.level, cacheTreeLevelSize_eq (Nat.succ_le_succ hn),
        Option.bind_eq_bind, Option.bind_some]
      by_cases hcover : cacheBufferSize * 64 ^ (n + 1) ≤ offset
      · have hn6 : n + 1 ≤ 6 := by
          by_contra hbig
          obtain rfl : n = 6 := by omega
          exact absurd hoffset (Nat.not_lt.mpr hcover)
        rw [if_pos hcover]
        by_cases hmask : presentMask ≠ 0
        · rw [if_pos hmask]
          obtain ⟨hnext, hsame⟩ := grow_used h hmask
          obtain ⟨m, t', hrun, ht', hm, hcovers, hlookup⟩ :=
            growRoot_eq fuel hnext hn6 hoffset (by omega)
          exact ⟨m, t', hrun, ht', hm, hcovers, fun s => (hlookup s).trans (hsame s)⟩
        · rw [if_neg hmask]
          obtain ⟨hnext, hsame⟩ := grow_empty h (not_not.mp hmask)
          obtain ⟨m, t', hrun, ht', hm, hcovers, hlookup⟩ :=
            growRoot_eq fuel hnext hn6 hoffset (by omega)
          exact ⟨m, t', hrun, ht', hm, hcovers, fun s => (hlookup s).trans (hsame s)⟩
      · rw [if_neg hcover]
        exact ⟨n, _, rfl, h, hn, Nat.not_le.mp hcover, fun _ => rfl⟩

/-- In a node above level 0, changing the child of a unit's digit changes the buffers
as the child does. -/
theorem bufferAt_update {n s₀ : Nat} {level : Nat} {presentMask : BitVec 64} {u : Slots}
    {child : CacheTree} {x : Option BufRef} (hs₀ : s₀ < 64 ^ (n + 2))
    (hchild : ∀ s, s < 64 ^ (n + 1) → bufferAt n child s =
      if s = s₀ % 64 ^ (n + 1) then x else bufferAt n (u (digit (n + 1) s₀)) s) {s : Nat}
    (hs : s < 64 ^ (n + 2)) :
    bufferAt (n + 1) (.node level presentMask (Function.update u (digit (n + 1) s₀) child)) s =
      if s = s₀ then x else bufferAt (n + 1) (.node level presentMask u) s := by
  rw [bufferAt, bufferAt]
  by_cases hdigit : digit (n + 1) s = digit (n + 1) s₀
  · rw [hdigit, Function.update_self, ← bufferAt_mod child s (Nat.lt_succ_self n),
      hchild _ (Nat.mod_lt _ (Nat.pow_pos (by decide))), bufferAt_mod _ s (Nat.lt_succ_self n)]
    have hiff := eq_iff_digit hs hs₀
    simp only [hdigit, true_and] at hiff
    simp only [hiff]
  · have hne : s ≠ s₀ := fun heq => hdigit (heq ▸ rfl)
    rw [Function.update_of_ne hdigit, if_neg hne]

/-- The same in a node of level 0. -/
theorem bufferAt_update_leaf {s₀ : Nat} {level : Nat} {presentMask presentMask' : BitVec 64}
    {u : Slots} {slot : CacheTree} (hs₀ : s₀ < 64) {s : Nat} (hs : s < 64) :
    bufferAt 0 (.node level presentMask' (Function.update u (digit 0 s₀) slot)) s =
      if s = s₀ then (match slot with | .buffer b => some b | _ => none)
      else bufferAt 0 (.node level presentMask u) s := by
  have hiff := eq_iff_digit (n := 0) hs hs₀
  simp only [pow_zero, Nat.mod_one, and_true] at hiff
  rw [bufferAt, bufferAt]
  by_cases heq : s = s₀
  · rw [if_pos heq, heq, Function.update_self]
  · rw [if_neg heq, Function.update_of_ne fun hdigit => heq (hiff.mpr hdigit)]

/-- At level 0 `tree_insert_buffer` puts the buffer into the slot of its unit. -/
theorem insertLeaf_eq {b : BufRef} {presentMask : BitVec 64} {u : Slots} {offset : Nat}
    (h : Leveled 0 (.node 0 presentMask u)) (hoffset : offset < cacheBufferSize * 64)
    (habsent : bufferAt 0 (.node 0 presentMask u) (offset / cacheBufferSize) = none) :
    ∃ t', insertLeaf 0 presentMask u offset b = some t' ∧ Leveled 0 t' ∧ t'.presentMask ≠ 0 ∧
      ∀ s, s < 64 → bufferAt 0 t' s =
        if s = offset / cacheBufferSize then some b else bufferAt 0 (.node 0 presentMask u) s := by
  have hs₀ : offset / cacheBufferSize < 64 := Nat.div_lt_of_lt_mul hoffset
  have hdigit : (⟨offset / cacheBufferSize, hs₀⟩ : Fin cacheTreeWidth) =
      digit 0 (offset / cacheBufferSize) := by
    apply Fin.ext
    change _ = offset / cacheBufferSize / 64 ^ 0 % 64
    rw [pow_zero, Nat.div_one, Nat.mod_eq_of_lt hs₀]
  have hfree : u (digit 0 (offset / cacheBufferSize)) = .null := by
    rcases h.2.2 (digit 0 (offset / cacheBufferSize)) with hnull | ⟨c, hc⟩
    · exact hnull
    · rw [bufferAt, hc] at habsent
      cases habsent
  have hmask := h.2.1.set (digit 0 (offset / cacheBufferSize)) (.buffer b) rfl
  have hrun : insertLeaf 0 presentMask u offset b =
      some (.node 0 (setPresent presentMask (digit 0 (offset / cacheBufferSize)))
        (Function.update u (digit 0 (offset / cacheBufferSize)) (.buffer b))) := by
    unfold insertLeaf
    simp only [hs₀, dif_pos, hdigit, hfree, CacheTree.isNull, if_true]
  refine ⟨_, hrun, ⟨rfl, hmask, fun i => ?_⟩,
    hmask.ne_zero (i := digit 0 (offset / cacheBufferSize)) (by rw [Function.update_self]; rfl),
    fun s hs => bufferAt_update_leaf hs₀ hs⟩
  by_cases hi : i = digit 0 (offset / cacheBufferSize)
  · subst hi
    rw [Function.update_self]
    exact Or.inr ⟨b, rfl⟩
  · rw [Function.update_of_ne hi]
    exact h.2.2 i

/-- Below a root that covers the offset, the second loop of `tree_insert_buffer` adds
the buffer at the offset's unit. -/
theorem insertBelow_eq (b : BufRef) : ∀ (fuel : Nat) {n : Nat} {t : CacheTree} {offset : Nat},
    Leveled n t → n ≤ 6 → n ≤ fuel → offset < cacheBufferSize * 64 ^ (n + 1) →
    bufferAt n t (offset / cacheBufferSize) = none →
    ∃ t', insertBelow b fuel t offset = some t' ∧ Leveled n t' ∧ t'.presentMask ≠ 0 ∧
      ∀ s, s < 64 ^ (n + 1) →
        bufferAt n t' s = if s = offset / cacheBufferSize then some b else bufferAt n t s
  | fuel, 0, t, offset, h, _, _, hoffset, habsent => by
      obtain ⟨presentMask, u, rfl, hu⟩ := h.node
      have hleaf := insertLeaf_eq (b := b) h (by simpa using hoffset) habsent
      cases fuel with
      | zero => simpa [insertBelow] using hleaf
      | succ fuel => simpa [insertBelow] using hleaf
  | 0, n + 1, _, _, _, _, hfuel, _, _ => absurd hfuel (Nat.not_succ_le_zero n)
  | fuel + 1, n + 1, t, offset, h, hn, hfuel, hoffset, habsent => by
      obtain ⟨presentMask, u, rfl, hu⟩ := h.node
      have hslot : offset / (cacheBufferSize * 64 ^ (n + 1)) < cacheTreeWidth :=
        Nat.div_lt_of_lt_mul (by rwa [pow_succ, ← Nat.mul_assoc] at hoffset)
      have hs₀ : offset / cacheBufferSize < 64 ^ (n + 2) := Nat.div_lt_of_lt_mul hoffset
      have hrest := Nat.mod_lt offset (levelSize_pos (n + 1))
      -- the child that the loop goes on with, and the mask above it
      obtain ⟨presentMask', child, hpair, hchild, hmask, hsame⟩ : ∃ presentMask' child,
          (if (u (digit (n + 1) (offset / cacheBufferSize))).isNull then
            (setPresent presentMask (digit (n + 1) (offset / cacheBufferSize)),
              CacheTree.zeroed n)
            else (presentMask, u (digit (n + 1) (offset / cacheBufferSize)))) =
            (presentMask', child) ∧ Leveled n child ∧
          (∀ slot : CacheTree, slot.isNull = false → MaskOK presentMask'
            (Function.update u (digit (n + 1) (offset / cacheBufferSize)) slot)) ∧
          ∀ s, bufferAt n child s =
            bufferAt n (u (digit (n + 1) (offset / cacheBufferSize))) s := by
        rcases h.2.2 (digit (n + 1) (offset / cacheBufferSize)) with hnull | ⟨hchild, -⟩
        · refine ⟨_, _, if_pos (CacheTree.isNull_iff.mpr hnull), Leveled.zeroed n,
            fun slot hnonnull => hu.set _ slot hnonnull, fun s => ?_⟩
          rw [hnull, bufferAt_zeroed, bufferAt_null]
        · exact ⟨_, _, if_neg (by simp [hchild.not_null]), hchild,
            fun slot hnonnull => hu.keep (hnonnull.trans hchild.not_null.symm), fun s => rfl⟩
      have habsent' : bufferAt n child
          (offset % (cacheBufferSize * 64 ^ (n + 1)) / cacheBufferSize) = none := by
        rw [mod_level, bufferAt_mod _ _ (Nat.lt_succ_self n), hsame]
        exact habsent
      obtain ⟨child', hrun, hleveled, hused, hbuffers⟩ := insertBelow_eq b fuel hchild
        (Nat.le_of_succ_le hn) (Nat.le_of_succ_le_succ hfuel) hrest habsent'
      refine ⟨.node (n + 1) presentMask'
        (Function.update u (digit (n + 1) (offset / cacheBufferSize)) child'), ?_,
        ⟨rfl, hmask child' hleveled.not_null, fun i => ?_⟩, ?_, fun s hs => ?_⟩
      · simp only [insertBelow, Nat.succ_ne_zero, if_false, cacheTreeLevelSize_eq
          (Nat.le_succ_of_le hn), Option.bind_eq_bind, Option.bind_some, hslot, dif_pos,
          slot_eq_digit, Nat.add_sub_cancel, hpair, cacheTreeLevelSize_mask, hrun]
      · by_cases hi : i = digit (n + 1) (offset / cacheBufferSize)
        · subst hi
          rw [Function.update_self]
          exact Or.inr ⟨hleveled, hused⟩
        · rw [Function.update_of_ne hi]
          exact h.2.2 i
      · refine (hmask child' hleveled.not_null).ne_zero
          (i := digit (n + 1) (offset / cacheBufferSize)) ?_
        rw [Function.update_self]
        exact hleveled.not_null
      · refine bufferAt_update hs₀ (fun r hr => ?_) hs
        rw [hbuffers r hr, mod_level, hsame]

/-- `tree_insert_buffer` adds the buffer at its offset's unit. -/
theorem treeInsertBuffer_eq {n : Nat} {t : CacheTree} {buffers : Buffers} {b : BufRef}
    {buffer : CacheBuffer} (h : Leveled n t) (hn : n ≤ 6) (hb : buffers b = some buffer)
    (hoffset : buffer.offset < cacheBufferSize * 64 ^ 7)
    (habsent : lookup n t (buffer.offset / cacheBufferSize) = none) :
    ∃ m t', treeInsertBuffer buffers t b = some t' ∧ Leveled m t' ∧ m ≤ 6 ∧
      ∀ s, lookup m t' s =
        if s = buffer.offset / cacheBufferSize then some b else lookup n t s := by
  obtain ⟨m, root, hgrow, hroot, hm, hcover, hsame⟩ :=
    growRoot_eq 256 h hn hoffset (by omega)
  have hunit : buffer.offset / cacheBufferSize < 64 ^ (m + 1) := Nat.div_lt_of_lt_mul hcover
  have habsent' : bufferAt m root (buffer.offset / cacheBufferSize) = none := by
    have hlookup := (hsame _).trans habsent
    rwa [lookup, if_pos hunit] at hlookup
  obtain ⟨t', hrun, ht', -, hbuffers⟩ := insertBelow_eq b m hroot hm (le_refl m) hcover habsent'
  refine ⟨m, t', ?_, ht', hm, fun s => ?_⟩
  · simp only [treeInsertBuffer, hb, hgrow, hroot.level_eq, hrun, Option.bind_eq_bind,
      Option.bind_some]
  · rw [← hsame s, lookup, lookup]
    by_cases hs : s < 64 ^ (m + 1)
    · rw [if_pos hs, if_pos hs, hbuffers s hs]
    · have hne : s ≠ buffer.offset / cacheBufferSize := fun heq => hs (heq ▸ hunit)
      rw [if_neg hs, if_neg hs, if_neg hne]

/-! ## Removal -/

/-- `CACHE_TREE_INDEX` is the digit. -/
theorem cacheTreeIndex_eq {n : Nat} (hn : n ≤ 6) (offset : Nat) :
    cacheTreeIndex n offset = some (digit n (offset / cacheBufferSize)) := by
  have hshift : cacheTreeLevelShift n < 64 := by
    unfold cacheTreeLevelShift cacheBufferShift cacheTreeShift
    omega
  rw [cacheTreeIndex, if_pos hshift]
  refine congrArg some (Fin.ext ?_)
  change offset >>> cacheTreeLevelShift n &&& 2 ^ 6 - 1 = offset / cacheBufferSize / 64 ^ n % 64
  rw [Nat.and_two_pow_sub_one_eq_mod, Nat.shiftRight_eq_div_pow, ← div_level, cacheTreeLevelShift,
    pow_add, Nat.mul_comm n, pow_mul]
  rfl

/-- `tree_remove_buffer` takes the buffer out of its unit. -/
theorem removeBelow_eq (b : BufRef) (offset : Nat) : ∀ {n : Nat} {t : CacheTree}, Leveled n t →
    n ≤ 6 → bufferAt n t (offset / cacheBufferSize) = some b →
    ∃ t', removeBelow b offset t = some t' ∧ Leveled n t' ∧ ∀ s, s < 64 ^ (n + 1) →
      bufferAt n t' s =
        if s = offset / cacheBufferSize % 64 ^ (n + 1) then none else bufferAt n t s
  | 0, t, h, _, hb => by
      obtain ⟨presentMask, u, rfl, hu⟩ := h.node
      have hslot : u (digit 0 (offset / cacheBufferSize)) = .buffer b := by
        rcases h.2.2 (digit 0 (offset / cacheBufferSize)) with hnull | ⟨c, hc⟩
        · rw [bufferAt, hnull] at hb
          cases hb
        · rw [bufferAt, hc] at hb
          rw [hc, Option.some.inj hb]
      have hdigit : digit 0 (offset / cacheBufferSize % 64 ^ (0 + 1)) =
          digit 0 (offset / cacheBufferSize) := digit_mod (Nat.zero_lt_succ 0) _
      refine ⟨.node 0 (clearPresent presentMask (digit 0 (offset / cacheBufferSize)))
        (Function.update u (digit 0 (offset / cacheBufferSize)) .null), ?_,
        ⟨rfl, hu.clear, fun i => ?_⟩, fun s hs => ?_⟩
      · simp only [removeBelow, cacheTreeIndex_eq (Nat.zero_le 6), Option.bind_eq_bind,
          Option.bind_some, if_true, hslot]
      · by_cases hi : i = digit 0 (offset / cacheBufferSize)
        · rw [hi, Function.update_self]
          exact Or.inl rfl
        · rw [Function.update_of_ne hi]
          exact h.2.2 i
      · rw [← hdigit]
        exact bufferAt_update_leaf (Nat.mod_lt _ (by decide)) (by simpa using hs)
  | n + 1, t, h, hn, hb => by
      obtain ⟨presentMask, u, rfl, hu⟩ := h.node
      have hslots := h.2.2
      have hdigit : digit (n + 1) (offset / cacheBufferSize % 64 ^ (n + 2)) =
          digit (n + 1) (offset / cacheBufferSize) := digit_mod (Nat.lt_succ_self _) _
      have hmod : offset / cacheBufferSize % 64 ^ (n + 2) % 64 ^ (n + 1) =
          offset / cacheBufferSize % 64 ^ (n + 1) :=
        Nat.mod_mod_of_dvd _ (pow_dvd_pow 64 (Nat.le_succ _))
      have hsmall : offset / cacheBufferSize % 64 ^ (n + 2) < 64 ^ (n + 2) :=
        Nat.mod_lt _ (Nat.pow_pos (by decide))
      rcases hslots (digit (n + 1) (offset / cacheBufferSize)) with hnull | ⟨hchild, hused⟩
      · rw [bufferAt, hnull, bufferAt_null] at hb
        cases hb
      · obtain ⟨child, hrun, hleveled, hbuffers⟩ := removeBelow_eq b offset hchild
          (Nat.le_of_succ_le hn) hb
        have hother : ∀ slot : CacheTree, (slot = .null ∨ Leveled n slot ∧ slot.presentMask ≠ 0) →
            ∀ i, Function.update u (digit (n + 1) (offset / cacheBufferSize)) slot i = .null ∨
              (Leveled n (Function.update u (digit (n + 1) (offset / cacheBufferSize)) slot i) ∧
                (Function.update u (digit (n + 1) (offset / cacheBufferSize)) slot i).presentMask
                  ≠ 0) := by
          intro slot hslot i
          by_cases hi : i = digit (n + 1) (offset / cacheBufferSize)
          · rw [hi, Function.update_self]
            exact hslot
          · rw [Function.update_of_ne hi]
            exact hslots i
        by_cases hempty : child.presentMask = 0
        · refine ⟨.node (n + 1)
            (clearPresent presentMask (digit (n + 1) (offset / cacheBufferSize)))
            (Function.update u (digit (n + 1) (offset / cacheBufferSize)) .null), ?_,
            ⟨rfl, hu.clear, hother .null (Or.inl rfl)⟩, fun s hs => ?_⟩
          · simp only [removeBelow, cacheTreeIndex_eq hn, Option.bind_eq_bind, Option.bind_some,
              Nat.succ_ne_zero, if_false, hrun, hempty, if_true]
          · rw [← hdigit]
            refine bufferAt_update hsmall (fun r hr => ?_) hs
            rw [bufferAt_null, hmod, hdigit]
            have hnone := bufferAt_empty hleveled hempty r
            rw [hbuffers r hr] at hnone
            exact hnone.symm
        · refine ⟨.node (n + 1) presentMask
            (Function.update u (digit (n + 1) (offset / cacheBufferSize)) child), ?_,
            ⟨rfl, hu.keep (hleveled.not_null.trans hchild.not_null.symm),
            hother child (Or.inr ⟨hleveled, hempty⟩)⟩, fun s hs => ?_⟩
          · simp only [removeBelow, cacheTreeIndex_eq hn, Option.bind_eq_bind, Option.bind_some,
              Nat.succ_ne_zero, if_false, hrun, hempty]
          · rw [← hdigit]
            refine bufferAt_update hsmall (fun r hr => ?_) hs
            rw [hbuffers r hr, hmod, hdigit]

/-! ## Freeing what is idle -/

/-- The buffer is allocated and idle. -/
def idleIn (buffers : Buffers) (b : BufRef) : Bool := (buffers b).any CacheBuffer.idle

/-- The loop of `tree_free_buffers`, given what it makes of each slot. -/
theorem freeLoop_eq {buffers : Buffers} {level : Nat}
    {below : Fin cacheTreeWidth → Option (CacheTree × List BufRef)} {u : Slots}
    {f : Fin cacheTreeWidth → CacheTree × List BufRef}
    (hslot : ∀ i, freeSlot buffers level (below i) (u i) = some (f i))
    (hnull : ∀ i, (u i).isNull = true → (f i).1.isNull = true) :
    ∀ (slots : List (Fin cacheTreeWidth)) (state : Freeing), slots.Nodup →
      (∀ i ∈ slots, state.u i = u i) → MaskOK state.presentMask state.u →
      ∃ state', slots.foldlM (fun (state : Freeing) i => do
          let slot ← freeSlot buffers level (below i) (u i)
          some (state.turn i slot)) state = some state' ∧
        MaskOK state'.presentMask state'.u ∧
        (∀ i, state'.u i = if i ∈ slots then (f i).1 else state.u i) ∧
        state'.freed = state.freed ++ slots.flatMap fun i => (f i).2
  | [], state, _, _, hmask => ⟨state, rfl, hmask, by simp, by simp⟩
  | i :: slots, state, hnodup, hsame, hmask => by
      obtain ⟨hi, hrest⟩ := List.nodup_cons.mp hnodup
      have hui := hsame i List.mem_cons_self
      have hmask' : MaskOK (state.turn i (f i)).presentMask (state.turn i (f i)).u := by
        simp only [Freeing.turn, hui]
        split
        · rename_i hcleared
          rw [CacheTree.isNull_iff.mp hcleared.2]
          exact hmask.clear
        · rename_i hkept
          refine hmask.keep ?_
          rw [hui]
          cases hu : (u i).isNull with
          | true => exact hnull i hu
          | false =>
              rw [hu] at hkept
              simpa using hkept
      have hothers : ∀ j ∈ slots, (state.turn i (f i)).u j = u j := by
        intro j hj
        have hji : j ≠ i := fun heq => hi (heq ▸ hj)
        exact (Function.update_of_ne hji _ _).trans (hsame j (List.mem_cons_of_mem _ hj))
      obtain ⟨state', hrun, hmaskEnd, huEnd, hfreed⟩ :=
        freeLoop_eq hslot hnull slots (state.turn i (f i)) hrest hothers hmask'
      refine ⟨state', ?_, hmaskEnd, fun j => ?_, ?_⟩
      · rw [List.foldlM_cons, hslot]
        exact hrun
      · rw [huEnd j]
        by_cases hji : j = i
        · subst hji
          simp [hi, Freeing.turn]
        · simp [hji, Freeing.turn]
      · rw [hfreed]
        simp [Freeing.turn, List.append_assoc]

/-- A unit with a given top digit and the lower digits of another. -/
theorem exists_unit (n : Nat) (i : Fin cacheTreeWidth) (s : Nat) : ∃ s', digit (n + 1) s' = i ∧
    ∀ t, bufferAt n t s' = bufferAt n t s := by
  have hpos : 0 < 64 ^ (n + 1) := Nat.pow_pos (by decide)
  refine ⟨64 ^ (n + 1) * i.val + s % 64 ^ (n + 1), Fin.ext ?_, fun t => ?_⟩
  · change (64 ^ (n + 1) * i.val + s % 64 ^ (n + 1)) / 64 ^ (n + 1) % 64 = i.val
    rw [Nat.mul_add_div hpos, Nat.div_eq_of_lt (Nat.mod_lt _ hpos), Nat.add_zero,
      Nat.mod_eq_of_lt i.isLt]
  · rw [← bufferAt_mod t _ (Nat.lt_succ_self n), Nat.mul_add_mod, Nat.mod_mod,
      bufferAt_mod t s (Nat.lt_succ_self n)]

theorem digit_zero (i : Fin cacheTreeWidth) : digit 0 i.val = i := by
  apply Fin.ext
  change i.val / 64 ^ 0 % 64 = i.val
  rw [pow_zero, Nat.div_one, Nat.mod_eq_of_lt i.isLt]

theorem bufferAt_leaf_iff {level s : Nat} {presentMask : BitVec 64} {u : Slots} {b : BufRef} :
    bufferAt 0 (.node level presentMask u) s = some b ↔ u (digit 0 s) = .buffer b := by
  rw [bufferAt]
  cases u (digit 0 s) <;> simp

/-- What `tree_free_buffers` should make of a subtree with the given buffers. -/
structure Freed (buffers : Buffers) (before after : Nat → Option BufRef) (freed : List BufRef) :
    Prop where
  kept : ∀ s, after s = (before s).filter fun b => !idleIn buffers b
  gone : ∀ b, b ∈ freed ↔ idleIn buffers b = true ∧ ∃ s, before s = some b

theorem Freed.nothing {buffers : Buffers} {before after : Nat → Option BufRef}
    (hbefore : ∀ s, before s = none) (hafter : ∀ s, after s = none) :
    Freed buffers before after [] :=
  ⟨fun s => by rw [hbefore, hafter]; rfl, fun b => by simp [hbefore]⟩

/-- A slot of a node of level 0. -/
theorem freeSlot_leaf {buffers : Buffers} {u : Slots} {presentMask : BitVec 64}
    (h : Leveled 0 (.node 0 presentMask u))
    (hallocated : ∀ s b, bufferAt 0 (.node 0 presentMask u) s = some b → (buffers b).isSome)
    (below : Option (CacheTree × List BufRef)) (i : Fin cacheTreeWidth) :
    ∃ r, freeSlot buffers 0 below (u i) = some r ∧ ((u i).isNull = true → r.1.isNull = true) ∧
      LeafSlot r.1 ∧ (∀ b, r.1 = .buffer b ↔ u i = .buffer b ∧ idleIn buffers b = false) ∧
      ∀ b, b ∈ r.2 ↔ idleIn buffers b = true ∧ u i = .buffer b := by
  rcases h.2.2 i with hnull | ⟨b, hb⟩
  · exact ⟨(.null, []), by rw [hnull]; rfl, fun _ => rfl, Or.inl rfl, by simp [hnull],
      by simp [hnull]⟩
  · have hat : bufferAt 0 (.node 0 presentMask u) i.val = some b := by
      rw [bufferAt, digit_zero, hb]
    obtain ⟨buffer, hbuffer⟩ := Option.isSome_iff_exists.mp (hallocated _ b hat)
    have hidle : idleIn buffers b = buffer.idle := by simp [idleIn, hbuffer]
    rw [hb]
    cases hbit : buffer.idle with
    | true =>
        refine ⟨(.null, [b]), by simp [freeSlot, hbuffer, hbit], fun _ => rfl, Or.inl rfl,
          fun c => ?_, fun c => ?_⟩
        · constructor
          · exact fun hc => nomatch hc
          · rintro ⟨hc, hnot⟩
            cases hc
            rw [hidle, hbit] at hnot
            cases hnot
        · constructor
          · intro hc
            obtain rfl := List.mem_singleton.mp hc
            exact ⟨hidle.trans hbit, rfl⟩
          · rintro ⟨-, hc⟩
            cases hc
            exact List.mem_singleton_self b
    | false =>
        refine ⟨(.buffer b, []), by simp [freeSlot, hbuffer, hbit], fun hn => hn, Or.inr ⟨b, rfl⟩,
          fun c => ?_, fun c => ?_⟩
        · constructor
          · intro hc
            cases hc
            exact ⟨rfl, hidle.trans hbit⟩
          · exact fun hc => hc.1
        · constructor
          · exact fun hc => absurd hc List.not_mem_nil
          · rintro ⟨hc, heq⟩
            cases heq
            rw [hidle, hbit] at hc
            cases hc

/-- `tree_free_buffers` frees the idle buffers and no others. -/
theorem treeFreeBuffers_eq (buffers : Buffers) : ∀ {n : Nat} {t : CacheTree}, Leveled n t →
    (∀ s b, bufferAt n t s = some b → (buffers b).isSome) →
    ∃ t' freed, treeFreeBuffers buffers t = some (t', freed) ∧ Leveled n t' ∧
      Freed buffers (bufferAt n t) (bufferAt n t') freed
  | 0, t, h, hallocated => by
      obtain ⟨presentMask, u, rfl, hu⟩ := h.node
      by_cases hmask : presentMask = 0
      · refine ⟨_, [], by rw [treeFreeBuffers, if_pos hmask], h, ?_⟩
        exact Freed.nothing (bufferAt_empty h hmask) (bufferAt_empty h hmask)
      · choose f hslot hnull hleaf hkept hgone using fun i =>
          freeSlot_leaf h hallocated (treeFreeBuffers buffers (u i)) i
        obtain ⟨state, hrun, hmaskEnd, huEnd, hfreed⟩ := freeLoop_eq hslot hnull
          (List.finRange cacheTreeWidth) ⟨presentMask, u, []⟩ (List.nodup_finRange _)
          (fun _ _ => rfl) hu
        have hend : ∀ i, state.u i = (f i).1 := fun i => by
          rw [huEnd, if_pos (List.mem_finRange i)]
        refine ⟨.node 0 state.presentMask state.u, state.freed, ?_,
          ⟨rfl, hmaskEnd, fun i => by rw [hend]; exact hleaf i⟩, ⟨fun s => ?_, fun b => ?_⟩⟩
        · rw [treeFreeBuffers, if_neg hmask, hrun]
          rfl
        · apply Option.ext
          intro b
          rw [bufferAt_leaf_iff, hend, hkept, Option.filter_eq_some_iff, bufferAt_leaf_iff]
          simp
        · rw [hfreed, List.nil_append, List.mem_flatMap]
          constructor
          · rintro ⟨i, -, hi⟩
            obtain ⟨hidle, hb⟩ := (hgone i b).mp hi
            exact ⟨hidle, i.val, bufferAt_leaf_iff.mpr (by rw [digit_zero, hb])⟩
          · rintro ⟨hidle, s, hs⟩
            exact ⟨digit 0 s, List.mem_finRange _, (hgone _ b).mpr ⟨hidle, bufferAt_leaf_iff.mp hs⟩⟩
  | n + 1, t, h, hallocated => by
      obtain ⟨presentMask, u, rfl, hu⟩ := h.node
      by_cases hmask : presentMask = 0
      · refine ⟨_, [], by rw [treeFreeBuffers, if_pos hmask], h, ?_⟩
        exact Freed.nothing (bufferAt_empty h hmask) (bufferAt_empty h hmask)
      · have hslots : ∀ i, ∃ r : CacheTree × List BufRef,
            freeSlot buffers (n + 1) (treeFreeBuffers buffers (u i)) (u i) = some r ∧
            ((u i).isNull = true → r.1.isNull = true) ∧
            (r.1 = .null ∨ Leveled n r.1 ∧ r.1.presentMask ≠ 0) ∧
            Freed buffers (bufferAt n (u i)) (bufferAt n r.1) r.2 := by
          intro i
          rcases h.2.2 i with hnull | ⟨hchild, -⟩
          · rw [hnull]
            exact ⟨(.null, []), rfl, fun _ => rfl, Or.inl rfl,
              Freed.nothing (bufferAt_null n) (bufferAt_null n)⟩
          · have hbelow : ∀ s b, bufferAt n (u i) s = some b → (buffers b).isSome := by
              intro s b hb
              obtain ⟨s', hdigit, hsame⟩ := exists_unit n i s
              refine hallocated s' b ?_
              rw [bufferAt, hdigit, hsame, hb]
            obtain ⟨child, freed, hrun, hleveled, hresult⟩ :=
              treeFreeBuffers_eq buffers hchild hbelow
            obtain ⟨mask', u', heq, -⟩ := hchild.node
            have hslot : freeSlot buffers (n + 1) (some (child, freed)) (u i) =
                if child.presentMask = 0 then some (.null, freed) else some (child, freed) := by
              rw [heq]
              rfl
            rw [hrun, hslot]
            by_cases hempty : child.presentMask = 0
            · rw [if_pos hempty]
              refine ⟨_, rfl, fun _ => rfl, Or.inl rfl, ⟨fun s => ?_, hresult.gone⟩⟩
              rw [bufferAt_null, ← hresult.kept s, bufferAt_empty hleveled hempty]
            · rw [if_neg hempty]
              refine ⟨_, rfl, fun hn => ?_, Or.inr ⟨hleveled, hempty⟩, hresult⟩
              rw [hchild.not_null] at hn
              cases hn
        choose f hslot hnull hinner hresult using hslots
        obtain ⟨state, hrun, hmaskEnd, huEnd, hfreed⟩ := freeLoop_eq hslot hnull
          (List.finRange cacheTreeWidth) ⟨presentMask, u, []⟩ (List.nodup_finRange _)
          (fun _ _ => rfl) hu
        have hend : ∀ i, state.u i = (f i).1 := fun i => by
          rw [huEnd, if_pos (List.mem_finRange i)]
        refine ⟨.node (n + 1) state.presentMask state.u, state.freed, ?_,
          ⟨rfl, hmaskEnd, fun i => by rw [hend]; exact hinner i⟩, ⟨fun s => ?_, fun b => ?_⟩⟩
        · rw [treeFreeBuffers, if_neg hmask, hrun]
          rfl
        · rw [bufferAt, bufferAt, hend, (hresult _).kept]
        · rw [hfreed, List.nil_append, List.mem_flatMap]
          constructor
          · rintro ⟨i, -, hi⟩
            obtain ⟨hidle, s, hs⟩ := ((hresult i).gone b).mp hi
            obtain ⟨s', hdigit, hsame⟩ := exists_unit n i s
            exact ⟨hidle, s', by rw [bufferAt, hdigit, hsame, hs]⟩
          · rintro ⟨hidle, s, hs⟩
            exact ⟨digit (n + 1) s, List.mem_finRange _, ((hresult _).gone b).mpr ⟨hidle, s, hs⟩⟩

end Nbfs.Cache
