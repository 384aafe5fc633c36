import Mathlib.Data.List.Basic
import Mathlib.Algebra.Order.Ring.Nat

set_option autoImplicit false

/-!
# Images of memory

A buffer, or what is stored on a device, as a function from positions; the blocks
that an access to some bytes has to cover.
-/

namespace Nbfs.Lib

variable {α : Type}

/-- `len` positions from `start` on get the values of `src`. -/
def splice (image : Nat → α) (start len : Nat) (src : Nat → α) : Nat → α :=
  fun p => if start ≤ p ∧ p < start + len then src (p - start) else image p

variable {image src : Nat → α} {start len p : Nat}

theorem splice_inside (h : start ≤ p ∧ p < start + len) :
    splice image start len src p = src (p - start) := if_pos h

theorem splice_outside (h : ¬ (start ≤ p ∧ p < start + len)) :
    splice image start len src p = image p := if_neg h

theorem splice_congr {src' : Nat → α} (h : ∀ k < len, src k = src' k) :
    splice image start len src = splice image start len src' := by
  funext p
  by_cases hp : start ≤ p ∧ p < start + len
  · rw [splice_inside hp, splice_inside hp, h (p - start) (by omega)]
  · rw [splice_outside hp, splice_outside hp]

/-- One piece after the other. -/
theorem splice_splice {m n : Nat} {src' : Nat → α} :
    splice (splice image start m src) (start + m) n src' =
      splice image start (m + n) fun k => if k < m then src k else src' (k - m) := by
  funext p
  by_cases hsecond : start + m ≤ p ∧ p < start + m + n
  · rw [splice_inside hsecond, splice_inside (by omega), if_neg (by omega)]
    congr 1
    omega
  rw [splice_outside hsecond]
  by_cases hfirst : start ≤ p ∧ p < start + m
  · rw [splice_inside hfirst, splice_inside (by omega), if_pos (by omega)]
  · rw [splice_outside hfirst, splice_outside (by omega)]

/-! ### Blocks -/

/-- Bytes from `offset` on are in the blocks from `offset / size` to that of the last byte. -/
theorem block_bounds {size offset len p : Nat} (hsize : 0 < size) (hp : offset ≤ p)
    (hend : p < offset + len) : offset / size * size ≤ p ∧
      p < ((offset + len - 1) / size + 1) * size := by
  constructor
  · exact (Nat.div_mul_le_self offset size).trans hp
  · have hlast : p / size ≤ (offset + len - 1) / size := Nat.div_le_div_right (by omega)
    exact Nat.lt_mul_of_div_lt (Nat.lt_succ_of_le hlast) hsize

/-- The last of a number of blocks. -/
theorem last_block {size n : Nat} (hsize : 0 < size) (hn : 0 < n) :
    (size * n - 1) / size + 1 = n := by
  obtain ⟨m, rfl⟩ := Nat.exists_eq_add_of_lt hn
  have hdiv : (size * (0 + m + 1) - 1) / size = m := by
    rw [Nat.zero_add, Nat.mul_succ]
    refine Nat.div_eq_of_lt_le ?_ ?_
    · rw [Nat.mul_comm]
      omega
    · rw [Nat.succ_mul, Nat.mul_comm]
      omega
  rw [hdiv, Nat.zero_add]

/-- Where a byte is in the blocks that begin with that of `offset`. -/
theorem sub_block {size offset p : Nat} (hp : offset ≤ p) :
    p - offset / size * size = offset % size + (p - offset) := by
  have hsplit := Nat.div_add_mod offset size
  rw [Nat.mul_comm] at hsplit
  omega

/-! ### Parts of a list -/

/-- `memcpy` of `src` into a list, from `start` on. -/
def blit (image : List α) (start : Nat) (src : List α) : List α :=
  image.take start ++ src ++ image.drop (start + src.length)

/-- `memcpy` of `len` elements out of a list, from `start` on. -/
def slice (image : List α) (start len : Nat) : List α := (image.drop start).take len

section lists

variable {image src : List α} {start len pos : Nat}

theorem length_blit (h : start + src.length ≤ image.length) :
    (blit image start src).length = image.length := by
  simp only [blit, List.length_append, List.length_take, List.length_drop]
  omega

theorem slice_blit_self (h : start + src.length ≤ image.length) :
    slice (blit image start src) start src.length = src := by
  have htake : (image.take start).length = start := by
    rw [List.length_take]
    omega
  rw [slice, blit, List.append_assoc, List.drop_append_of_le_length (le_of_eq htake.symm),
    List.drop_of_length_le (le_of_eq htake), List.nil_append, List.take_left]

theorem slice_blit_before (h : start + src.length ≤ image.length) (hbefore : pos + len ≤ start) :
    slice (blit image start src) pos len = slice image pos len := by
  have htake : (image.take start).length = start := by
    rw [List.length_take]
    omega
  have hdrop : ((image.take start).drop pos).length = start - pos := by
    rw [List.length_drop, htake]
  rw [slice, blit, List.append_assoc, List.drop_append_of_le_length (by omega),
    List.take_append_of_le_length (by omega), List.drop_take, List.take_take,
    Nat.min_eq_left (by omega), slice]

end lists

/-! ### Little-endian numbers -/

/-- The lowest bytes of a number, the lowest first. -/
def leBytes : Nat → Nat → List UInt8
  | 0, _ => []
  | count + 1, n => UInt8.ofNat n :: leBytes count (n / 256)

/-- The number with these bytes, the lowest first. -/
def ofLe : List UInt8 → Nat
  | [] => 0
  | b :: bs => b.toNat + 256 * ofLe bs

theorem length_leBytes (count : Nat) : ∀ n, (leBytes count n).length = count := by
  induction count with
  | zero => exact fun _ => rfl
  | succ count ih => exact fun n => congrArg Nat.succ (ih (n / 256))

theorem ofLe_leBytes (count : Nat) : ∀ n, ofLe (leBytes count n) = n % 256 ^ count := by
  induction count with
  | zero =>
      intro n
      rw [Nat.pow_zero, Nat.mod_one]
      rfl
  | succ count ih =>
      intro n
      have hbyte : (UInt8.ofNat n).toNat = n % 256 := UInt8.toNat_ofNat'
      rw [leBytes, ofLe, ih, hbyte, pow_succ', Nat.mod_mul]

end Nbfs.Lib
