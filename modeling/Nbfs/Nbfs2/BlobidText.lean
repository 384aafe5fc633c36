import Nbfs.Lib.CString
import Nbfs.Nbfs2.Blobstore
import Mathlib.Data.List.TakeWhile
import Mathlib.Data.UInt
import Mathlib.Tactic.IntervalCases

set_option autoImplicit false

/-!
# Blob ids as text (`src/NBFS2/id_and_char.h`)

`sprintf` and `strtoull` as the C standard has them, for the one conversion and
the one base that are used.
-/

namespace Nbfs.Nbfs2

open Nbfs.Lib

/-- A hexadecimal digit as `%x` writes it. -/
def hexDigit (d : Nat) : UInt8 := UInt8.ofNat (if d < 10 then 48 + d else 87 + d)

/-- The last `count` hexadecimal digits of a number, the first one first. -/
def hexDigits : Nat → Nat → List UInt8
  | 0, _ => []
  | count + 1, n => hexDigit (n / 16 ^ count % 16) :: hexDigits count n

/-- `isspace`. -/
def isSpace (c : UInt8) : Bool := c == 32 || (9 ≤ c && c ≤ 13)

/-- The value of a hexadecimal digit. -/
def hexValue (c : UInt8) : Option Nat :=
  if 48 ≤ c ∧ c ≤ 57 then some (c.toNat - 48)
  else if 97 ≤ c ∧ c ≤ 102 then some (c.toNat - 87)
  else if 65 ≤ c ∧ c ≤ 70 then some (c.toNat - 55)
  else none

/-- The value of the digits at the start of a text. -/
def hexPrefix : Nat → List UInt8 → Nat
  | value, [] => value
  | value, c :: rest =>
      match hexValue c with
      | some d => hexPrefix (value * 16 + d) rest
      | none => value

/-- The optional `0x` before the digits of base 16; it needs a digit behind it. -/
def skipHexMark : List UInt8 → List UInt8
  | 48 :: x :: c :: rest =>
      if (x = 120 ∨ x = 88) ∧ (hexValue c).isSome then c :: rest else 48 :: x :: c :: rest
  | text => text

/-- The digits behind the sign, negated behind a minus; `ULLONG_MAX`, whatever the sign, when
they do not fit. -/
def unsignedHex (negative : Bool) (text : List UInt8) : UInt64 :=
  let value := hexPrefix 0 (skipHexMark text)
  if value < 2 ^ 64 then if negative then -UInt64.ofNat value else UInt64.ofNat value
  else UInt64.ofNat (2 ^ 64 - 1)

/-- `strtoull(string, NULL, 16)`. -/
def strtoull16 (string : CString) : UInt64 :=
  match string.bytes.dropWhile isSpace with
  | 43 :: rest => unsignedHex false rest
  | 45 :: rest => unsignedHex true rest
  | text => unsignedHex false text

theorem hexDigit_ne_zero (d : Nat) (hd : d < 16) : hexDigit d ≠ 0 := by
  unfold hexDigit
  interval_cases d <;> decide

theorem hexValue_hexDigit {d : Nat} (hd : d < 16) : hexValue (hexDigit d) = some d := by
  interval_cases d <;> decide

theorem zero_notMem_hexDigits (count n : Nat) : (0 : UInt8) ∉ hexDigits count n := by
  induction count with
  | zero => exact List.not_mem_nil
  | succ count ih =>
      intro hmem
      rcases List.mem_cons.mp hmem with hzero | hmem
      · exact hexDigit_ne_zero _ (Nat.mod_lt _ (by decide)) hzero.symm
      · exact ih hmem

/-- `blobid2char`: the text of `sprintf(string, "0x%016" PRIx64, blobid)`. -/
def blobid2char (blobid : BlobId) : CString where
  bytes := 48 :: 120 :: hexDigits 16 blobid.toNat
  nulFree := by
    intro hmem
    simp only [List.mem_cons] at hmem
    rcases hmem with h | h | h
    · exact absurd h (by decide)
    · exact absurd h (by decide)
    · exact zero_notMem_hexDigits _ _ h

/-- `char2blobid`. -/
def char2blobid (string : CString) : BlobId := strtoull16 string

theorem hexPrefix_hexDigits (n : Nat) : ∀ count value,
    hexPrefix value (hexDigits count n) = value * 16 ^ count + n % 16 ^ count
  | 0, value => by simp [hexDigits, hexPrefix, Nat.mod_one]
  | count + 1, value => by
      have hd : n / 16 ^ count % 16 < 16 := Nat.mod_lt _ (by decide)
      rw [hexDigits, hexPrefix, hexValue_hexDigit hd]
      simp only
      rw [hexPrefix_hexDigits n count, pow_succ, Nat.mod_mul, Nat.add_mul, Nat.mul_assoc,
        Nat.mul_comm 16 (16 ^ count), Nat.mul_comm (n / 16 ^ count % 16)]
      omega

theorem hexDigits_length (n : Nat) : ∀ count, (hexDigits count n).length = count
  | 0 => rfl
  | count + 1 => by rw [hexDigits, List.length_cons, hexDigits_length n count]

/-- The text of a blob id is read back as the id. -/
theorem char2blobid_blobid2char (blobid : BlobId) : char2blobid (blobid2char blobid) = blobid := by
  have hlt : blobid.toNat < 16 ^ 16 := blobid.toNat_lt
  have hdrop : (blobid2char blobid).bytes.dropWhile isSpace =
      48 :: 120 :: hexDigits 16 blobid.toNat := by
    rw [blobid2char, List.dropWhile_cons_of_neg (by decide)]
  have hmark : skipHexMark (48 :: 120 :: hexDigits 16 blobid.toNat) =
      hexDigits 16 blobid.toNat := by
    have hd : blobid.toNat / 16 ^ 15 % 16 < 16 := Nat.mod_lt _ (by decide)
    rw [hexDigits, skipHexMark, if_pos ⟨Or.inl rfl, by rw [hexValue_hexDigit hd]; rfl⟩]
  unfold char2blobid strtoull16
  rw [hdrop]
  change unsignedHex false _ = _
  simp only [unsignedHex, hmark]
  rw [hexPrefix_hexDigits, Nat.zero_mul, Nat.zero_add, Nat.mod_eq_of_lt hlt]
  rw [if_pos (lt_of_lt_of_eq hlt (by decide)), if_neg Bool.false_ne_true, UInt64.ofNat_toNat]

/-- The text fits `BLOBID_STRING_LEN`. -/
theorem blobid2char_strlen (blobid : BlobId) : (blobid2char blobid).strlen = 18 := by
  change (48 :: 120 :: hexDigits 16 blobid.toNat).length = 18
  rw [List.length_cons, List.length_cons, hexDigits_length]

end Nbfs.Nbfs2
