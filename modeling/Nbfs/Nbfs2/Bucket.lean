import Nbfs.Nbfs2.HashTable
import Mathlib.Data.Finset.Card
import Mathlib.Data.List.TakeWhile
import Mathlib.Data.Finset.Range

set_option autoImplicit false

/-!
# Buckets of the hash table

What one bucket holds, and what each call does to it: a slot, the items of its
overflow list in order, and whether that list still ends at NULL.  A layout of a
table names the overflow nodes of every bucket; under a layout the calls on the
table are the calls on the one bucket their key hashes to.
-/

namespace Nbfs.Nbfs2

open Nbfs.Lib

/-- The contents of a bucket. -/
structure Bucket where
  slot : Option HtItem
  chain : List HtItem
  /-- The overflow list ends at NULL, not at a freed node. -/
  closed : Bool

/-- The value of the first item with the key. -/
def lookup (key : CString) (items : List HtItem) : Option CString :=
  (items.find? fun item => item.key = key).map HtItem.value

/-- The items that stay when `linkedlist_insert` adds one: it puts the new node in
the place of the last of two or more. -/
def kept : List HtItem → List HtItem
  | [] => []
  | [item] => [item]
  | item :: next :: rest => (item :: next :: rest).dropLast

theorem kept_append (items : List HtItem) (before last : HtItem) :
    kept (items ++ [before, last]) = items ++ [before] := by
  have hdrop : (items ++ [before, last]).dropLast = items ++ [before] := by
    simp
  cases items with
  | nil => rfl
  | cons item items =>
      cases items with
      | nil => rfl
      | cons next rest => exact hdrop

/-- A list has at most one element or a last and one before it. -/
theorem short_or_two {α : Type} (xs : List α) :
    xs = [] ∨ (∃ x, xs = [x]) ∨ ∃ front before last, xs = front ++ [before, last] := by
  rcases List.eq_nil_or_concat' xs with rfl | ⟨ys, last, rfl⟩
  · exact Or.inl rfl
  · rcases List.eq_nil_or_concat' ys with rfl | ⟨front, before, rfl⟩
    · exact Or.inr (Or.inl ⟨last, rfl⟩)
    · exact Or.inr (Or.inr ⟨front, before, last, by simp⟩)

namespace Bucket

/-- A walk over items that ends at NULL or, undefined, at a freed node. -/
def scan (key : CString) (closed : Bool) (items : List HtItem) : Option (Option CString) :=
  match lookup key items with
  | some value => some (some value)
  | none => if closed then some none else none

/-- `ht_search` on a bucket. -/
def search (b : Bucket) (key : CString) : Option (Option CString) :=
  match b.slot with
  | none => some none
  | some item => scan key b.closed (item :: b.chain)

/-- `ht_insert` on a bucket. -/
def insert (b : Bucket) (key value : CString) : Option Bucket :=
  match b.slot with
  | none => some { b with slot := some (createItem key value) }
  | some item =>
      if item.key = key then
        (item.strcpyValue value).map fun item => { b with slot := some item }
      else if b.closed then some { b with chain := kept b.chain ++ [createItem key value] }
      else none

/-- The walk of `ht_delete` along the overflow list. -/
def deleteOverflow (b : Bucket) (key : CString) : Option Bucket :=
  match b.chain.dropWhile fun item => item.key ≠ key with
  | [] => if b.closed then some b else none
  | _ :: _ =>
      match b.chain.takeWhile fun item => item.key ≠ key with
      | [] => if b.closed then some { b with chain := [] } else none
      | before => some { b with chain := before, closed := false }

/-- `ht_delete` on a bucket. -/
def delete (b : Bucket) (key : CString) : Option Bucket :=
  match b.slot with
  | none => some b
  | some item =>
      if item.key = key then
        match b.chain with
        | [] => if b.closed then some { b with slot := none } else none
        | next :: rest =>
            some { b with slot := some (createItem next.key next.value), chain := rest }
      else b.deleteOverflow key

end Bucket

/-- The number of slots in use. -/
def occupied (t : HashTable) : Nat :=
  ((Finset.range t.size).filter fun i => (t.items i).isSome).card

/-- The overflow nodes of each bucket, and the pointer each overflow list ends with. -/
structure Layout (t : HashTable) (rows : Nat → List (Addr × HtItem)) (ends : Nat → Ptr) : Prop where
  size : t.size = capacity
  segment : ∀ i, Segment t.lists (t.overflowBuckets i) (rows i) (ends i)
  stops : ∀ i, Stops t.lists (ends i)
  /-- A list ends at NULL or at a node that has been handed out. -/
  spent : ∀ i a, ends i = some a → a < t.brk
  apart : ∀ i j, i ≠ j → ∀ x ∈ rows i, ∀ y ∈ rows j, x.1 ≠ y.1
  live : ∀ a, t.lists a ≠ none → a < t.brk
  bare : ∀ i, t.items i = none → t.overflowBuckets i = none
  count : t.count = occupied t

/-- The buckets of a table with the layout. -/
def bucketsOf (t : HashTable) (rows : Nat → List (Addr × HtItem)) (ends : Nat → Ptr) (i : Nat) :
    Bucket where
  slot := t.items i
  chain := (rows i).map Prod.snd
  closed := (ends i).isNone

/-- The table holds the buckets. -/
def Holds (t : HashTable) (b : Nat → Bucket) : Prop :=
  ∃ rows ends, Layout t rows ends ∧ b = bucketsOf t rows ends

/-! ## Strings and hashes -/

theorem hashFunction_lt (key : CString) : hashFunction key < capacity := by
  have hmod := UInt64.toNat_mod
    (key.bytes.foldl (fun i c => i + charToULong c) 0) 65536
  unfold hashFunction capacity
  rw [hmod]
  exact Nat.mod_lt _ (by decide)

theorem lookup_cons (key : CString) (item : HtItem) (items : List HtItem) :
    lookup key (item :: items) =
      if item.key = key then some item.value else lookup key items := by
  by_cases hkey : item.key = key
  · simp [lookup, hkey]
  · simp [lookup, hkey]

theorem lookup_append (key : CString) (items rest : List HtItem) :
    lookup key (items ++ rest) = (lookup key items).or (lookup key rest) := by
  induction items with
  | nil => simp [lookup]
  | cons item items ih =>
      rw [List.cons_append, lookup_cons, lookup_cons, ih]
      split
      · rfl
      · rfl

/-- An item with the key is found. -/
theorem lookup_eq_none_iff {key : CString} {items : List HtItem} :
    lookup key items = none ↔ ∀ item ∈ items, item.key ≠ key := by
  simp [lookup]

theorem Bucket.scan_cons (key : CString) (closed : Bool) (item : HtItem) (items : List HtItem) :
    Bucket.scan key closed (item :: items) =
      if item.key = key then some (some item.value) else Bucket.scan key closed items := by
  unfold Bucket.scan
  rw [lookup_cons]
  split_ifs <;> rfl

/-- No item of the list has the key, or there is a first one that does. -/
theorem split_at_key (key : CString) (items : List HtItem) : (∀ item ∈ items, item.key ≠ key) ∨
    ∃ front item back, items = front ++ item :: back ∧ (∀ other ∈ front, other.key ≠ key) ∧
      item.key = key := by
  cases hfind : items.find? fun item => item.key = key with
  | none => exact Or.inl (by simpa using hfind)
  | some item =>
      obtain ⟨hkey, front, back, hsplit, hfront⟩ := List.find?_eq_some_iff_append.mp hfind
      exact Or.inr ⟨front, item, back, hsplit, by simpa using hfront, by simpa using hkey⟩

theorem Bucket.deleteOverflow_absent {b : Bucket} {key : CString}
    (hkeys : ∀ item ∈ b.chain, item.key ≠ key) :
    b.deleteOverflow key = if b.closed then some b else none := by
  have hdrop : b.chain.dropWhile (fun item => item.key ≠ key) = [] :=
    List.dropWhile_eq_nil_iff.mpr (by simpa using hkeys)
  rw [Bucket.deleteOverflow, hdrop]

theorem Bucket.deleteOverflow_first {b : Bucket} {key : CString} {back : List HtItem}
    {item : HtItem} (hchain : b.chain = item :: back) (hkey : item.key = key) :
    b.deleteOverflow key = if b.closed then some { b with chain := [] } else none := by
  simp [Bucket.deleteOverflow, hchain, hkey]

theorem Bucket.deleteOverflow_later {b : Bucket} {key : CString} {front back : List HtItem}
    {item : HtItem} (hchain : b.chain = front ++ item :: back) (hne : front ≠ [])
    (hfront : ∀ other ∈ front, other.key ≠ key) (hkey : item.key = key) :
    b.deleteOverflow key = some { b with chain := front, closed := false } := by
  have hdrop : b.chain.dropWhile (fun item => item.key ≠ key) = item :: back := by
    rw [hchain, List.dropWhile_append_of_pos (by simpa using hfront)]
    simp [hkey]
  have htake : b.chain.takeWhile (fun item => item.key ≠ key) = front := by
    rw [hchain, List.takeWhile_append_of_pos (by simpa using hfront)]
    simp [hkey]
  rw [Bucket.deleteOverflow, hdrop, htake]
  cases front with
  | nil => exact absurd rfl hne
  | cons first rest => rfl

namespace Layout

variable {t t' : HashTable} {rows : Nat → List (Addr × HtItem)} {ends : Nat → Ptr} {i : Nat}

theorem holds (L : Layout t rows ends) : Holds t (bucketsOf t rows ends) := ⟨rows, ends, L, rfl⟩

theorem nodup (L : Layout t rows ends) (i : Nat) : ((rows i).map Prod.fst).Nodup :=
  (L.segment i).nodup (L.stops i)

theorem row_live (L : Layout t rows ends) {x : Addr × HtItem} (hx : x ∈ rows i) :
    t.lists x.1 ≠ none := by
  obtain ⟨next, hnext⟩ := (L.segment i).link x hx
  simp [hnext]

theorem row_lt (L : Layout t rows ends) {x : Addr × HtItem} (hx : x ∈ rows i) : x.1 < t.brk :=
  L.live x.1 (L.row_live hx)

/-- A row has at most as many nodes as were handed out. -/
theorem length_le (L : Layout t rows ends) (i : Nat) : (rows i).length ≤ t.brk := by
  have hsub : (rows i).map Prod.fst ⊆ List.range t.brk := by
    intro a ha
    obtain ⟨x, hx, rfl⟩ := List.mem_map.mp ha
    exact List.mem_range.mpr (L.row_lt hx)
  have hle := ((L.nodup i).subperm hsub).length_le
  simpa using hle

/-- A table with a free slot is not full. -/
theorem count_lt (L : Layout t rows ends) (hi : i < capacity) (hitem : t.items i = none) :
    t.count < t.size := by
  have hcard : occupied t < (Finset.range t.size).card := by
    refine Finset.card_lt_card ⟨Finset.filter_subset _ _, fun hsub => ?_⟩
    have hmem := hsub (Finset.mem_range.mpr (L.size ▸ hi))
    simp [hitem] at hmem
  rw [Finset.card_range] at hcard
  rw [L.count]
  exact_mod_cast hcard

/-- A call that keeps to one bucket and its nodes leaves the others alone. -/
theorem change (L : Layout t rows ends) (i : Nat) (t' : HashTable)
    (row : List (Addr × HtItem)) (e : Ptr)
    (hsize : t'.size = t.size) (hitems : ∀ j, j ≠ i → t'.items j = t.items j)
    (hbuckets : ∀ j, j ≠ i → t'.overflowBuckets j = t.overflowBuckets j)
    (hframe : ∀ a, (∀ x ∈ rows i, x.1 ≠ a) → a < t.brk → t'.lists a = t.lists a)
    (hbrk : t.brk ≤ t'.brk) (hlive : ∀ a, t'.lists a ≠ none → a < t'.brk)
    (hsegment : Segment t'.lists (t'.overflowBuckets i) row e) (hstops : Stops t'.lists e)
    (hspent : ∀ a, e = some a → a < t'.brk)
    (hrow : ∀ x ∈ row, (∃ y ∈ rows i, y.1 = x.1) ∨ t.brk ≤ x.1)
    (hbare : t'.items i = none → t'.overflowBuckets i = none)
    (hcount : t'.count = occupied t') :
    Holds t' (Function.update (bucketsOf t rows ends) i
      ⟨t'.items i, row.map Prod.snd, e.isNone⟩) := by
  have hkeep : ∀ j, j ≠ i → ∀ x ∈ rows j, t'.lists x.1 = t.lists x.1 := by
    intro j hj x hx
    exact hframe x.1 (fun y hy => L.apart i j hj.symm y hy x hx) (L.row_lt hx)
  have hother : ∀ j, j ≠ i → ∀ x ∈ row, ∀ y ∈ rows j, x.1 ≠ y.1 := by
    intro j hj x hx y hy heq
    rcases hrow x hx with ⟨z, hz, hzx⟩ | hnew
    · exact L.apart i j hj.symm z hz y hy (hzx.trans heq)
    · exact absurd (L.row_lt hy) (by rw [← heq]; exact Nat.not_lt.mpr hnew)
  refine ⟨Function.update rows i row, Function.update ends i e, ?_, ?_⟩
  · constructor
    · exact hsize.trans L.size
    · intro j
      by_cases hj : j = i
      · subst hj
        simpa using hsegment
      · rw [Function.update_of_ne hj, Function.update_of_ne hj, hbuckets j hj]
        exact (L.segment j).frame (hkeep j hj)
    · intro j
      by_cases hj : j = i
      · subst hj
        simpa using hstops
      · rw [Function.update_of_ne hj]
        intro a ha
        have hgone := L.stops j a ha
        rw [hframe a ?_ (L.spent j a ha), hgone]
        rintro x hx rfl
        exact L.row_live hx hgone
    · intro j
      by_cases hj : j = i
      · subst hj
        simpa using hspent
      · rw [Function.update_of_ne hj]
        exact fun a ha => lt_of_lt_of_le (L.spent j a ha) hbrk
    · intro j k hjk x hx y hy
      by_cases hj : j = i
      · have hk : k ≠ i := fun hk => hjk (hj.trans hk.symm)
        rw [hj, Function.update_self] at hx
        rw [Function.update_of_ne hk] at hy
        exact hother k hk x hx y hy
      · rw [Function.update_of_ne hj] at hx
        by_cases hk : k = i
        · rw [hk, Function.update_self] at hy
          exact (hother j hj y hy x hx).symm
        · rw [Function.update_of_ne hk] at hy
          exact L.apart j k hjk x hx y hy
    · exact hlive
    · intro j
      by_cases hj : j = i
      · rw [hj]
        exact hbare
      · rw [hitems j hj, hbuckets j hj]
        exact L.bare j
    · exact hcount
  · funext j
    by_cases hj : j = i
    · subst hj
      simp [bucketsOf]
    · simp [bucketsOf, Function.update_of_ne hj, hitems j hj]

end Layout

end Nbfs.Nbfs2
