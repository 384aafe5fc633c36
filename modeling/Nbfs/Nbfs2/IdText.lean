import Nbfs.Nbfs2.Files

set_option autoImplicit false

/-!
# The text of a blob id, written and read (`src/NBFS2/id_and_char.h`)

The table keeps the id of a file's blob as the text that `sprintf` prints, and every
later call parses it back.  `%016` is the shortest text of the number, padded to its
width on the left; the sixteen digits of `blobid2char` are that text.
-/

namespace Nbfs.Nbfs2

open Nbfs.Lib

/-! ## What `sprintf` prints -/

/-- The digits of `%x`: as many as the number needs, and one for zero. -/
def hexText (n : Nat) : List UInt8 := (Nat.toDigits 16 n).map Char.toUInt8

/-- The flag `0`: zeros on the left up to the width of the field. -/
def zeroPadded (width : Nat) (text : List UInt8) : List UInt8 :=
  List.replicate (width - text.length) 48 ++ text

/-- `sprintf(string, "0x%016" PRIx64, blobid)` on the bytes of the buffer: the text and
its NUL at the start, the rest as it was.  No result when the buffer is too small. -/
def sprintfBlobid (string : List UInt8) (blobid : BlobId) : Option (List UInt8) :=
  let text := 48 :: 120 :: zeroPadded 16 (hexText blobid.toNat) ++ [0]
  if text.length ≤ string.length then some (text ++ string.drop text.length) else none

/-- The string at the start of a buffer that has a NUL in it. -/
def stringAt (buffer : List UInt8) : Option CString :=
  if (0 : UInt8) ∈ buffer then
    some ⟨buffer.takeWhile (· ≠ 0), fun hmem => by simpa using List.mem_takeWhile_imp hmem⟩
  else none

/-! ## The digits of the two -/

theorem digitChar_toUInt8 {d : Nat} (hd : d < 16) : (Nat.digitChar d).toUInt8 = hexDigit d := by
  interval_cases d <;> decide

/-- The last digit comes off the end. -/
theorem hexText_eq (n : Nat) :
    hexText n = if n < 16 then [hexDigit n] else hexText (n / 16) ++ [hexDigit (n % 16)] := by
  have hmod : n % 16 < 16 := Nat.mod_lt _ (by decide)
  unfold hexText
  rw [Nat.toDigits_eq_if (by decide)]
  split_ifs with hlt
  · rw [List.map_singleton, digitChar_toUInt8 hlt]
  · rw [List.map_append, List.map_singleton, digitChar_toUInt8 hmod]

theorem hexDigits_zero : ∀ count, hexDigits count 0 = List.replicate count 48
  | 0 => rfl
  | count + 1 => by
      rw [hexDigits, hexDigits_zero count, Nat.zero_div, List.replicate_succ]
      rfl

theorem hexDigits_succ (n : Nat) : ∀ count,
    hexDigits (count + 1) n = hexDigits count (n / 16) ++ [hexDigit (n % 16)]
  | 0 => by simp [hexDigits]
  | count + 1 => by
      have hshift : n / 16 / 16 ^ count = n / 16 ^ (count + 1) := by
        rw [Nat.div_div_eq_div_mul, pow_succ']
      rw [hexDigits, hexDigits_succ n count, hexDigits, hshift, List.cons_append]

/-- Digits enough for the number are its shortest text behind zeros. -/
theorem hexDigits_eq_zeroPadded : ∀ {count n : Nat}, 0 < count → n < 16 ^ count →
    hexDigits count n = zeroPadded count (hexText n)
  | count + 1, n, _, hlt => by
      rw [hexDigits_succ, hexText_eq]
      split_ifs with hsmall
      · rw [Nat.div_eq_of_lt hsmall, Nat.mod_eq_of_lt hsmall, hexDigits_zero]
        rfl
      · have hpos : 0 < count := by
          rcases Nat.eq_zero_or_pos count with rfl | hpos
          · exact absurd hlt hsmall
          · exact hpos
        have hquot : n / 16 < 16 ^ count := by
          rw [pow_succ] at hlt
          exact Nat.div_lt_of_lt_mul (by rwa [Nat.mul_comm])
        rw [hexDigits_eq_zeroPadded hpos hquot]
        simp only [zeroPadded, List.length_append, List.length_singleton, Nat.add_sub_add_right,
          List.append_assoc]

/-- The text of `blobid2char` is what `sprintf` prints. -/
theorem blobid2char_bytes (blobid : BlobId) :
    (blobid2char blobid).bytes = 48 :: 120 :: zeroPadded 16 (hexText blobid.toNat) := by
  have hlt : blobid.toNat < 16 ^ 16 := blobid.toNat_lt
  rw [← hexDigits_eq_zeroPadded (by decide) hlt]
  rfl

/-- A NUL-terminated text at the start of a buffer is the string there. -/
theorem stringAt_append (string : CString) (rest : List UInt8) :
    stringAt (string.bytes ++ [0] ++ rest) = some string := by
  have hnul : ∀ c ∈ string.bytes, decide (c ≠ 0) = true := fun c hc =>
    decide_eq_true fun hzero => string.nulFree (hzero ▸ hc)
  have htake : (string.bytes ++ [0] ++ rest).takeWhile (fun c => decide (c ≠ 0)) =
      string.bytes := by
    rw [List.append_assoc, List.takeWhile_append_of_pos hnul, List.singleton_append,
      List.takeWhile_cons_of_neg (by decide), List.append_nil]
  have hmem : (0 : UInt8) ∈ string.bytes ++ [0] ++ rest := by simp
  rw [stringAt, if_pos hmem]
  exact congrArg some (CString.ext_bytes htake)

/-- `sprintf` needs nineteen bytes, and leaves the text of the id there. -/
theorem sprintfBlobid_eq {string : List UInt8} (blobid : BlobId) (hroom : 19 ≤ string.length) :
    sprintfBlobid string blobid =
      some ((blobid2char blobid).bytes ++ [0] ++ string.drop 19) := by
  have hlen : ((blobid2char blobid).bytes ++ [0]).length = 19 := by
    rw [List.length_append, List.length_singleton]
    exact congrArg (· + 1) (blobid2char_strlen blobid)
  have htext : sprintfBlobid string blobid =
      if ((blobid2char blobid).bytes ++ [0]).length ≤ string.length then
        some ((blobid2char blobid).bytes ++ [0] ++
          string.drop ((blobid2char blobid).bytes ++ [0]).length) else none := by
    rw [blobid2char_bytes]
    rfl
  rw [htext, hlen, if_pos hroom]

/-! ## The text in the table -/

theorem blobid2char_injective : Function.Injective blobid2char := fun a b hab => by
  rw [← char2blobid_blobid2char a, hab, char2blobid_blobid2char]

/-- An item that holds the text of an id has room for that of any other. -/
theorem strcpyValue_blobid2char {item : HtItem} {old : BlobId} (blobid : BlobId)
    (hvalue : item.value = blobid2char old) :
    ∃ updated, item.strcpyValue (blobid2char blobid) = some updated ∧
      updated.key = item.key ∧ updated.value = blobid2char blobid ∧
      updated.valueLen = item.valueLen := by
  have hroom : (blobid2char blobid).strlen ≤ item.valueLen := by
    have hfits := item.fits
    rw [hvalue, blobid2char_strlen] at hfits
    rwa [blobid2char_strlen]
  exact ⟨_, dif_pos hroom, rfl, rfl, rfl⟩

/-- What the names of a table rely on in the text of an id. -/
structure ResolvesBack (blobid : BlobId) : Prop where
  /-- The text and its NUL fit a buffer of `BLOBID_STRING_LEN` bytes. -/
  fits : ∀ string : List UInt8, string.length = blobidStringLen →
    ∃ written, sprintfBlobid string blobid = some written ∧ written.length = blobidStringLen ∧
      stringAt written = some (blobid2char blobid)
  back : char2blobid (blobid2char blobid) = blobid
  apart : ∀ other, other ≠ blobid → blobid2char other ≠ blobid2char blobid
  strlen : ∀ other, (blobid2char other).strlen = (blobid2char blobid).strlen
  /-- `ht_insert` over the text of any id copies this one in place. -/
  updates : ∀ (garbage : Ptr) (t : HashTable) (key : CString) (item : HtItem) (old : BlobId),
    t.item (hashFunction key) = some (some item) → item.key = key →
    item.value = blobid2char old →
    ∃ updated, htInsert garbage t key (blobid2char blobid) =
        some (t.setItem (hashFunction key) (some updated)) ∧
      updated.key = key ∧ updated.value = blobid2char blobid ∧ updated.valueLen = item.valueLen

/-- **The text of a blob id.**  Of every id it fits its buffer and is read back as the id; other
ids have other texts, of the same length. -/
theorem blobid2char_resolvesBack (blobid : BlobId) : ResolvesBack blobid where
  fits := by
    intro string hlen
    have hroom : 19 ≤ string.length := by
      rw [hlen]
      decide
    refine ⟨_, sprintfBlobid_eq blobid hroom, ?_, stringAt_append _ _⟩
    have htext : (blobid2char blobid).bytes.length = 18 := blobid2char_strlen blobid
    rw [List.length_append, List.length_append, htext, List.length_drop, hlen]
    rfl
  back := char2blobid_blobid2char blobid
  apart := fun _ hne => blobid2char_injective.ne hne
  strlen := fun other => (blobid2char_strlen other).trans (blobid2char_strlen blobid).symm
  updates := by
    intro garbage t key item old hitem hkey hvalue
    obtain ⟨updated, hcopy, hsame, htext, hbuffer⟩ := strcpyValue_blobid2char blobid hvalue
    have hcmp : CString.strcmp item.key key = 0 := CString.strcmp_eq_zero_iff.mpr hkey
    refine ⟨updated, ?_, hsame.trans hkey, htext, hbuffer⟩
    simp only [htInsert, hitem, Option.bind_eq_bind, Option.bind_some, if_pos hcmp, hcopy]

end Nbfs.Nbfs2
