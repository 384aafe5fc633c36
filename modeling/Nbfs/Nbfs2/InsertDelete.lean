import Nbfs.Nbfs2.BucketCalls

set_option autoImplicit false

/-!
# Insertion and deletion as seen by a search

A hash table is meant to be a map: after an insertion the key has the value,
after a deletion it has none, and every other key is as before.  Over every run
of calls these laws hold exactly under a condition on the bucket of the key.
-/

namespace Nbfs.Nbfs2

open Nbfs.Lib

/-! ## The contents of the buckets over a run -/

/-- The items of a bucket, in the order a search meets them. -/
def Bucket.items (b : Bucket) : List HtItem := b.slot.toList ++ b.chain

/-- Every item is in the bucket its key hashes to. -/
def Homed (b : Nat → Bucket) : Prop := ∀ i, ∀ item ∈ (b i).items, hashFunction item.key = i

/-- The bucket of an empty table. -/
def Bucket.empty : Bucket := ⟨none, [], true⟩

theorem mem_kept {item : HtItem} {items : List HtItem} (h : item ∈ kept items) : item ∈ items := by
  rcases short_or_two items with rfl | ⟨x, rfl⟩ | ⟨front, before, last, rfl⟩
  · exact h
  · exact h
  · rw [kept_append] at h
    simp only [List.mem_append, List.mem_cons, List.not_mem_nil, or_false] at h ⊢
    exact h.imp_right Or.inl

/-- An insertion enters its key with its value and nothing else. -/
theorem Bucket.insert_items {b b' : Bucket} {key value : CString}
    (h : b.insert key value = some b') : ∀ item ∈ b'.items,
      item.key = key ∧ item.value = value ∨
        ∃ old ∈ b.items, old.key = item.key ∧ old.value = item.value := by
  unfold Bucket.insert at h
  cases hslot : b.slot with
  | none =>
      simp only [hslot, Option.some.injEq] at h
      subst h
      intro item hitem
      rcases List.mem_append.mp hitem with hitem | hitem
      · simp only [Option.toList_some, List.mem_singleton] at hitem
        exact Or.inl (hitem ▸ ⟨rfl, rfl⟩)
      · exact Or.inr ⟨item, List.mem_append_right _ hitem, rfl, rfl⟩
  | some slot =>
      simp only [hslot] at h
      split_ifs at h with hkey hclosed
      · obtain ⟨copy, hcopy, rfl⟩ := Option.map_eq_some_iff.mp h
        obtain ⟨hsame, hvalue⟩ := HtItem.strcpyValue_some hcopy
        intro item hitem
        rcases List.mem_append.mp hitem with hitem | hitem
        · simp only [Option.toList_some, List.mem_singleton] at hitem
          exact Or.inl (hitem ▸ ⟨hsame.trans hkey, hvalue⟩)
        · exact Or.inr ⟨item, List.mem_append_right _ hitem, rfl, rfl⟩
      · obtain rfl := Option.some.inj h
        intro item hitem
        rcases List.mem_append.mp hitem with hitem | hitem
        · exact Or.inr ⟨item, List.mem_append_left _ (by rwa [hslot]), rfl, rfl⟩
        · rcases List.mem_append.mp hitem with hitem | hitem
          · exact Or.inr ⟨item, List.mem_append_right _ (mem_kept hitem), rfl, rfl⟩
          · exact Or.inl (List.mem_singleton.mp hitem ▸ ⟨rfl, rfl⟩)

theorem Bucket.deleteOverflow_items {b b' : Bucket} {key : CString}
    (h : b.deleteOverflow key = some b') : b'.slot = b.slot ∧ b'.chain <+: b.chain := by
  unfold Bucket.deleteOverflow at h
  split at h
  · split_ifs at h
    obtain rfl := Option.some.inj h
    exact ⟨rfl, List.prefix_rfl⟩
  · split at h
    · split_ifs at h
      obtain rfl := Option.some.inj h
      exact ⟨rfl, List.nil_prefix⟩
    · obtain rfl := Option.some.inj h
      exact ⟨rfl, List.takeWhile_prefix _⟩

/-- A deletion enters nothing. -/
theorem Bucket.delete_items {b b' : Bucket} {key : CString} (h : b.delete key = some b') :
    ∀ item ∈ b'.items, ∃ old ∈ b.items, old.key = item.key ∧ old.value = item.value := by
  unfold Bucket.delete at h
  cases hslot : b.slot with
  | none =>
      simp only [hslot, Option.some.injEq] at h
      subst h
      exact fun item hitem => ⟨item, hitem, rfl, rfl⟩
  | some slot =>
      simp only [hslot] at h
      by_cases hkey : slot.key = key
      · rw [if_pos hkey] at h
        cases hchain : b.chain with
        | nil =>
            simp only [hchain] at h
            split_ifs at h
            obtain rfl := Option.some.inj h
            simp [Bucket.items, hchain]
        | cons next rest =>
            simp only [hchain] at h
            obtain rfl := Option.some.inj h
            intro item hitem
            rcases List.mem_append.mp hitem with hitem | hitem
            · simp only [Option.toList_some, List.mem_singleton] at hitem
              exact ⟨next, by simp [Bucket.items, hchain], by rw [hitem]; exact ⟨rfl, rfl⟩⟩
            · exact ⟨item, by simp [Bucket.items, hchain, hitem], rfl, rfl⟩
      · rw [if_neg hkey] at h
        obtain ⟨hsame, hpre⟩ := Bucket.deleteOverflow_items h
        intro item hitem
        rcases List.mem_append.mp hitem with hitem | hitem
        · exact ⟨item, List.mem_append_left _ (hsame ▸ hitem), rfl, rfl⟩
        · exact ⟨item, List.mem_append_right _ (hpre.subset hitem), rfl, rfl⟩

/-- The table and its buckets, as every run leaves them. -/
def Sound (t : HashTable) (b : Nat → Bucket) : Prop := Holds t b ∧ Homed b

theorem Layout.createTable : Layout (createTable capacity) (fun _ => []) (fun _ => none) where
  size := rfl
  segment := fun _ => rfl
  stops := fun _ => Stops.null _
  spent := fun _ _ h => nomatch h
  apart := fun _ _ _ x hx => absurd hx List.not_mem_nil
  live := fun _ h => absurd rfl h
  bare := fun _ _ => rfl
  count := by simp [occupied, Nbfs2.createTable]

theorem Sound.createTable : Sound (createTable capacity) fun _ => Bucket.empty :=
  ⟨⟨_, _, Layout.createTable, rfl⟩, by simp [Homed, Bucket.empty, Bucket.items]⟩

/-- The bucket a call works on and what it makes of it. -/
def Call.key : Call → CString
  | .insert key _ => key
  | .delete key => key

def Call.onBucket : Call → Bucket → Option Bucket
  | .insert key value, b => b.insert key value
  | .delete key, b => b.delete key

/-- The entry that a call makes. -/
def Call.Enters (P : CString → CString → Prop) : Call → Prop
  | .insert key value => P key value
  | .delete _ => True

/-- What holds of every entry, a call keeps if it holds of the one it makes. -/
theorem Call.onBucket_items {P : CString → CString → Prop} {call : Call} {b b' : Bucket}
    (h : call.onBucket b = some b') (henters : call.Enters P)
    (hitems : ∀ item ∈ b.items, P item.key item.value) :
    ∀ item ∈ b'.items, P item.key item.value := by
  cases call with
  | insert key value =>
      intro item hitem
      rcases Bucket.insert_items h item hitem with ⟨hkey, hvalue⟩ | ⟨old, hold, hkey, hvalue⟩
      · rw [hkey, hvalue]
        exact henters
      · rw [← hkey, ← hvalue]
        exact hitems old hold
  | delete key =>
      intro item hitem
      obtain ⟨old, hold, hkey, hvalue⟩ := Bucket.delete_items h item hitem
      rw [← hkey, ← hvalue]
      exact hitems old hold

theorem Holds.call {t : HashTable} {b : Nat → Bucket} (h : Holds t b) (call : Call) :
    Tracks b (hashFunction call.key) (call.run none t)
      (call.onBucket (b (hashFunction call.key))) := by
  obtain ⟨rows, ends, L, rfl⟩ := h
  cases call with
  | insert key value => exact L.insert key value
  | delete key => exact L.delete key

theorem Holds.search {t : HashTable} {b : Nat → Bucket} (h : Holds t b) (key : CString) :
    htSearch t key = (b (hashFunction key)).search key := by
  obtain ⟨rows, ends, L, rfl⟩ := h
  exact L.search key

/-- A call works on the bucket of its key and keeps the table sound. -/
theorem Sound.onBucket {t t' : HashTable} {b : Nat → Bucket} (h : Sound t b) {call : Call}
    (hrun : call.run none t = some t') :
    ∃ c, call.onBucket (b (hashFunction call.key)) = some c ∧
      Sound t' (Function.update b (hashFunction call.key) c) := by
  have htracks := h.1.call call
  cases hbucket : call.onBucket (b (hashFunction call.key)) with
  | none =>
      rw [hbucket, Tracks, hrun] at htracks
      cases htracks
  | some c =>
      rw [hbucket] at htracks
      obtain ⟨t₁, hrun₁, hholds⟩ := htracks
      obtain rfl := Option.some.inj (hrun.symm.trans hrun₁)
      refine ⟨c, rfl, hholds, fun i item hitem => ?_⟩
      by_cases hi : i = hashFunction call.key
      · subst hi
        rw [Function.update_self] at hitem
        have henters : call.Enters fun key _ => hashFunction key = hashFunction call.key := by
          cases call <;> trivial
        exact Call.onBucket_items hbucket henters (h.2 _) item hitem
      · rw [Function.update_of_ne hi] at hitem
        exact h.2 i item hitem

/-- One call keeps the table sound. -/
theorem Sound.step {t t' : HashTable} {b : Nat → Bucket} (h : Sound t b) {call : Call}
    (hrun : call.run none t = some t') : ∃ b', Sound t' b' := by
  obtain ⟨c, -, hsound⟩ := h.onBucket hrun
  exact ⟨_, hsound⟩

/-- Every run keeps the table sound. -/
theorem Sound.runCalls {calls : List Call} : ∀ {t t' : HashTable} {b : Nat → Bucket}, Sound t b →
    runCalls none t calls = some t' → ∃ b', Sound t' b' := by
  induction calls with
  | nil =>
      intro t t' b h hrun
      obtain rfl := Option.some.inj hrun
      exact ⟨b, h⟩
  | cons call calls ih =>
      intro t t' b h hrun
      rw [Nbfs2.runCalls, List.foldlM_cons, Option.bind_eq_bind] at hrun
      obtain ⟨t₁, hcall, hrest⟩ := Option.bind_eq_some_iff.mp hrun
      obtain ⟨b₁, h₁⟩ := h.step hcall
      exact ih h₁ hrest

/-! ## The two laws -/

/-- A search of `t'` for the key gives `result`; other searches give what they gave in `t`. -/
def AnswersAs (t t' : HashTable) (key : CString) (result : Option CString) : Prop :=
  htSearch t' key = some result ∧
    ∀ other, other ≠ key → ∀ found, htSearch t other = some found → htSearch t' other = some found

/-- After the insertion the key has the value and every other key what it had. -/
def InsertLaw (t : HashTable) (key value : CString) : Prop :=
  ∃ t', htInsert none t key value = some t' ∧ AnswersAs t t' key (some value)

/-- After the deletion the key has no value and every other key what it had. -/
def DeleteLaw (t : HashTable) (key : CString) : Prop :=
  ∃ t', htDelete t key = some t' ∧ AnswersAs t t' key none

/-- The same for the keys of one bucket. -/
def Bucket.AnswersAs (b c : Bucket) (key : CString) (result : Option CString) : Prop :=
  c.search key = some result ∧ ∀ other, other ≠ key → hashFunction other = hashFunction key →
    ∀ found, b.search other = some found → c.search other = some found

/-- A call meets a law when it does so on the bucket of its key. -/
theorem Holds.answersAs_iff {t : HashTable} {b : Nat → Bucket} (h : Holds t b) (call : Call)
    {result : Option CString} :
    (∃ t', call.run none t = some t' ∧ AnswersAs t t' call.key result) ↔
      ∃ c, call.onBucket (b (hashFunction call.key)) = some c ∧
        Bucket.AnswersAs (b (hashFunction call.key)) c call.key result := by
  have htracks := h.call call
  cases hbucket : call.onBucket (b (hashFunction call.key)) with
  | none =>
      rw [hbucket, Tracks] at htracks
      simp [htracks]
  | some c =>
      rw [hbucket] at htracks
      obtain ⟨t', hrun, hholds⟩ := htracks
      simp only [hrun, Option.some.injEq, exists_eq_left']
      unfold AnswersAs Bucket.AnswersAs
      rw [hholds.search, Function.update_self]
      refine and_congr_right fun _ => ⟨fun hother other hne hsame found hfound => ?_,
        fun hother other hne found hfound => ?_⟩
      · have hsearch := hother other hne found (by rw [h.search, hsame, hfound])
        rwa [hholds.search, hsame, Function.update_self] at hsearch
      · rw [h.search] at hfound
        rw [hholds.search]
        by_cases hsame : hashFunction other = hashFunction call.key
        · rw [hsame] at hfound ⊢
          rw [Function.update_self]
          exact hother other hne hsame found hfound
        · rwa [Function.update_of_ne hsame]

/-! ### The overflow list of a bucket -/

/-- The items of the list at a pointer, when it ends at NULL. -/
def listItems : Nat → HashTable → Ptr → Option (List HtItem)
  | _, _, none => some []
  | 0, _, some _ => none
  | fuel + 1, t, some list => do
      let node ← t.lists list
      let rest ← listItems fuel t node.next
      some (node.item :: rest)

/-- The items of an overflow list that ends at NULL. -/
def overflowItems (t : HashTable) (index : Nat) : Option (List HtItem) :=
  listItems t.brk t (t.overflowBuckets index)

theorem listItems_eq {t : HashTable} {e : Ptr} (hstops : Stops t.lists e) :
    ∀ {xs : List (Addr × HtItem)} {fuel : Nat} {p : Ptr}, Segment t.lists p xs e →
      xs.length ≤ fuel →
      listItems fuel t p = if e.isNone then some (xs.map Prod.snd) else none
  | [], fuel, p, hseg, _ => by
      obtain rfl := Segment.nil_iff.mp hseg
      cases p with
      | none => cases fuel <;> rfl
      | some f =>
          cases fuel with
          | zero => rfl
          | succ fuel => simp [listItems, hstops f rfl]
  | x :: xs, 0, p, _, hfuel => absurd hfuel (Nat.not_succ_le_zero _)
  | x :: xs, fuel + 1, p, hseg, hfuel => by
      obtain ⟨rfl, next, hnode, hrest⟩ := hseg
      simp only [listItems, hnode, Option.bind_eq_bind, Option.bind_some,
        listItems_eq hstops hrest (Nat.le_of_succ_le_succ hfuel)]
      split <;> rfl

theorem Holds.overflowItems_eq {t : HashTable} {b : Nat → Bucket} (h : Holds t b) (i : Nat) :
    overflowItems t i = if (b i).closed then some (b i).chain else none := by
  obtain ⟨rows, ends, L, rfl⟩ := h
  exact listItems_eq (L.stops i) (L.segment i) (L.length_le i)

theorem Holds.items_eq {t : HashTable} {b : Nat → Bucket} (h : Holds t b) (i : Nat) :
    t.items i = (b i).slot := by
  obtain ⟨rows, ends, L, rfl⟩ := h
  rfl

/-- The bucket as the table has it. -/
theorem Holds.bare {t : HashTable} {b : Nat → Bucket} (h : Holds t b) {i : Nat}
    (hslot : (b i).slot = none) : b i = Bucket.empty := by
  obtain ⟨rows, ends, L, rfl⟩ := h
  have hseg := L.segment i
  rw [L.bare i hslot] at hseg
  obtain ⟨hrow, hends⟩ := hseg.null
  simp only [bucketsOf] at hslot
  simp [bucketsOf, Bucket.empty, hslot, hrow, hends]

/-! ### Insertion -/

/-- The insertion meets its law: the slot is free or holds the key; or the overflow
list ends at NULL, of the nodes `linkedlist_insert` keeps the first with the key has
the value already, and the node it replaces has the key or one that occurs before. -/
def Insertable (t : HashTable) (key value : CString) : Prop :=
  ∀ item, t.items (hashFunction key) = some item → item.key ≠ key →
    ∃ chain, overflowItems t (hashFunction key) = some chain ∧
      (∀ found, lookup key (kept chain) = some found → found = value) ∧
      ∀ front before last, chain = front ++ [before, last] → last.key ≠ key →
        ∃ other ∈ item :: (front ++ [before]), other.key = last.key

theorem Bucket.search_closed {b : Bucket} {item : HtItem} (hslot : b.slot = some item)
    (hclosed : b.closed = true) (key : CString) :
    b.search key = some (lookup key (item :: b.chain)) := by
  simp only [Bucket.search, hslot, hclosed, Bucket.scan, if_true]
  cases lookup key (item :: b.chain) <;> rfl

theorem lookup_single_ne {key : CString} {item : HtItem} (h : item.key ≠ key) :
    lookup key [item] = none := by
  simp [lookup, h]

theorem lookup_single_self (item : HtItem) : lookup item.key [item] = some item.value := by
  simp [lookup]

/-- A key before the last item hides it. -/
theorem lookup_snoc_of_mem {key : CString} {items : List HtItem} (last : HtItem)
    (h : ∃ item ∈ items, item.key = key) : lookup key (items ++ [last]) = lookup key items := by
  obtain ⟨item, hitem, hkey⟩ := h
  rw [lookup_append]
  cases hfound : lookup key items with
  | none => exact absurd hkey (lookup_eq_none_iff.mp hfound item hitem)
  | some value => rfl

theorem lookup_snoc_ne {key : CString} {items : List HtItem} {last : HtItem}
    (h : last.key ≠ key) : lookup key (items ++ [last]) = lookup key items := by
  rw [lookup_append, lookup_single_ne h, Option.or_none]

/-- Which other keys of a bucket are hidden by the node that `linkedlist_insert` replaces. -/
theorem kept_answers_iff {item : HtItem} {chain : List HtItem} {key value : CString}
    (hhome : ∀ other ∈ item :: chain, hashFunction other.key = hashFunction key) :
    (∀ other, other ≠ key → hashFunction other = hashFunction key →
        lookup other (item :: (kept chain ++ [createItem key value])) =
          lookup other (item :: chain)) ↔
      ∀ front before last, chain = front ++ [before, last] → last.key ≠ key →
        ∃ other ∈ item :: (front ++ [before]), other.key = last.key := by
  have hnew : ∀ other, other ≠ key →
      lookup other (item :: (kept chain ++ [createItem key value])) =
        lookup other (item :: kept chain) := fun other hne =>
    @lookup_snoc_ne other (item :: kept chain) (createItem key value) (Ne.symm hne)
  constructor
  · intro hsame front before last hchain hne
    subst hchain
    have hlast := hsame last.key hne (hhome last (by simp))
    rw [hnew _ hne, kept_append] at hlast
    by_contra habsent
    have hnone : lookup last.key (item :: (front ++ [before])) = none :=
      lookup_eq_none_iff.mpr fun other hother hkey => habsent ⟨other, hother, hkey⟩
    rw [hnone, show item :: (front ++ [before, last]) = (item :: (front ++ [before])) ++ [last] by
      simp, lookup_append, hnone, lookup_single_self] at hlast
    cases hlast
  · intro hlast other hne _
    rw [hnew other hne]
    rcases short_or_two chain with rfl | ⟨x, rfl⟩ | ⟨front, before, last, rfl⟩
    · rfl
    · rfl
    · rw [kept_append, show item :: (front ++ [before, last]) =
        (item :: (front ++ [before])) ++ [last] by simp]
      by_cases hkey : last.key = other
      · refine (lookup_snoc_of_mem last ?_).symm
        obtain ⟨first, hfirst, hsame⟩ := hlast front before last rfl (hkey ▸ hne)
        exact ⟨first, hfirst, hsame.trans hkey⟩
      · exact (lookup_snoc_ne hkey).symm

/-- On a collision a bucket meets the law of insertion exactly under the condition. -/
theorem Bucket.insert_answersAs_iff {b : Bucket} {item : HtItem} {key value : CString}
    (hhome : ∀ other ∈ b.items, hashFunction other.key = hashFunction key)
    (hslot : b.slot = some item) (hkey : item.key ≠ key) :
    (∃ c, b.insert key value = some c ∧ Bucket.AnswersAs b c key (some value)) ↔
      b.closed = true ∧ (∀ found, lookup key (kept b.chain) = some found → found = value) ∧
        ∀ front before last, b.chain = front ++ [before, last] → last.key ≠ key →
          ∃ other ∈ item :: (front ++ [before]), other.key = last.key := by
  unfold Bucket.insert
  simp only [hslot, if_neg hkey]
  by_cases hclosed : b.closed = true
  · rw [if_pos hclosed]
    simp only [Option.some.injEq, exists_eq_left', hclosed, true_and]
    unfold Bucket.AnswersAs
    have hafter : ∀ other, Bucket.search ⟨some item, kept b.chain ++ [createItem key value], true⟩
        other = some (lookup other (item :: (kept b.chain ++ [createItem key value]))) :=
      Bucket.search_closed rfl rfl
    simp only [hafter, Bucket.search_closed hslot hclosed, Option.some.injEq, forall_eq']
    rw [kept_answers_iff (by simpa [Bucket.items, hslot] using hhome)]
    refine and_congr_left fun _ => ?_
    rw [lookup_cons, if_neg hkey, lookup_append]
    cases lookup key (kept b.chain) with
    | none => simp [lookup, createItem]
    | some found => simp
  · simp [hclosed]

/-- Into a free slot, or over the value of the slot's own key, an insertion meets its law. -/
theorem Bucket.insert_slot {b : Bucket} {key value : CString}
    (hslot : ∀ item, b.slot = some item → item.key = key ∧ value.strlen ≤ item.valueLen)
    (hbare : b.slot = none → b = Bucket.empty) :
    ∃ c, b.insert key value = some c ∧ Bucket.AnswersAs b c key (some value) := by
  cases hitem : b.slot with
  | none =>
      rw [hbare hitem]
      refine ⟨⟨some (createItem key value), [], true⟩, rfl, ?_, ?_⟩
      · rw [Bucket.search_closed rfl rfl]
        exact congrArg some (lookup_single_self (createItem key value))
      · intro other hne _ found hfound
        obtain rfl := Option.some.inj hfound
        rw [Bucket.search_closed rfl rfl]
        exact congrArg some (lookup_single_ne (Ne.symm hne))
  | some item =>
      obtain ⟨hkey, hfits⟩ := hslot item hitem
      have hinsert : b.insert key value = some
          { b with slot := some { item with value := value, fits := hfits } } := by
        simp [Bucket.insert, hitem, hkey, HtItem.strcpyValue, hfits]
      refine ⟨_, hinsert, ?_, fun other hne _ found hfound => ?_⟩
      · simp [Bucket.search, Bucket.scan_cons, hkey]
      · rw [Bucket.search, hitem] at hfound
        simp only [Bucket.scan_cons, hkey, Ne.symm hne, if_false] at hfound
        simpa [Bucket.search, Bucket.scan_cons, hkey, Ne.symm hne] using hfound

/-- An insertion whose value is no longer than the one it replaces meets its law exactly
under the condition on the bucket of its key. -/
theorem Sound.meetsInsertLaw {t : HashTable} {b : Nat → Bucket} (h : Sound t b)
    {key value : CString}
    (hfits : ∀ old, htSearch t key = some (some old) → value.strlen ≤ old.strlen) :
    InsertLaw t key value ↔ Insertable t key value := by
  obtain ⟨hholds, hhomed⟩ := h
  refine (hholds.answersAs_iff (.insert key value)).trans ?_
  unfold Insertable
  simp only [hholds.items_eq, hholds.overflowItems_eq]
  simp only [Call.onBucket, Call.key]
  by_cases hcollide : ∃ item, (b (hashFunction key)).slot = some item ∧ item.key ≠ key
  · obtain ⟨item, hslot, hne⟩ := hcollide
    rw [Bucket.insert_answersAs_iff (hhomed _) hslot hne]
    simp only [hslot, Option.some.injEq, forall_eq', ne_eq, hne, not_false_eq_true, true_implies]
    by_cases hclosed : (b (hashFunction key)).closed = true
    · simp [hclosed]
    · simp [hclosed]
  · have hown : ∀ item, (b (hashFunction key)).slot = some item → item.key = key := by
      intro item hslot
      by_contra hne
      exact hcollide ⟨item, hslot, hne⟩
    refine iff_of_true (Bucket.insert_slot (fun item hslot => ⟨hown item hslot, ?_⟩) hholds.bare) ?_
    · have hfound : htSearch t key = some (some item.value) := by
        rw [hholds.search, Bucket.search, hslot]
        simp [Bucket.scan_cons, hown item hslot]
      exact le_trans (hfits _ hfound) item.fits
    · exact fun item hslot hne => absurd (hown item hslot) hne

/-- `"ab"` and `"ba"` share a bucket. -/
def keyAb : CString := ⟨[97, 98], by decide⟩

def keyBa : CString := ⟨[98, 97], by decide⟩

def textOne : CString := ⟨[49], by decide⟩

/-- The deletion meets its law: the slot is free; or the overflow list ends at NULL
and either has no node with the key, or the key is not the slot's, the first node
has it and every other node has it too or has the slot's. -/
def Deletable (t : HashTable) (key : CString) : Prop :=
  ∀ item, t.items (hashFunction key) = some item →
    ∃ chain, overflowItems t (hashFunction key) = some chain ∧
      ((∀ other ∈ chain, other.key ≠ key) ∨
        item.key ≠ key ∧ (∃ first rest, chain = first :: rest ∧ first.key = key) ∧
          ∀ other ∈ chain, other.key = key ∨ other.key = item.key)

theorem lookup_createItem (key : CString) (item : HtItem) (rest : List HtItem) :
    lookup key (createItem item.key item.value :: rest) = lookup key (item :: rest) := by
  rw [lookup_cons, lookup_cons]
  rfl

theorem Bucket.search_open {b : Bucket} {item : HtItem} (hslot : b.slot = some item)
    (hopen : b.closed = false) {key : CString} : b.search key ≠ some none := by
  simp only [Bucket.search, hslot, Bucket.scan, hopen]
  cases lookup key (item :: b.chain) <;> simp

/-- Deleting the slot's key. -/
theorem Bucket.delete_slot_iff {b : Bucket} {item : HtItem} (hslot : b.slot = some item) :
    (∃ c, b.delete item.key = some c ∧ Bucket.AnswersAs b c item.key none) ↔
      b.closed = true ∧ ∀ other ∈ b.chain, other.key ≠ item.key := by
  unfold Bucket.delete
  simp only [hslot, if_true]
  cases hchain : b.chain with
  | nil =>
      by_cases hclosed : b.closed = true
      · simp only [hclosed, if_true, Option.some.injEq, exists_eq_left', true_and]
        refine iff_of_true ⟨rfl, fun other hne _ found hfound => ?_⟩ (by simp)
        rw [Bucket.search_closed hslot hclosed, hchain, lookup_single_ne (Ne.symm hne)] at hfound
        exact hfound
      · simp [hclosed]
  | cons next rest =>
      simp only [Option.some.injEq, exists_eq_left']
      by_cases hclosed : b.closed = true
      · unfold Bucket.AnswersAs
        have hafter : ∀ other, Bucket.search
            ⟨some (createItem next.key next.value), rest, true⟩ other =
              some (lookup other (next :: rest)) := fun other =>
          (Bucket.search_closed rfl rfl other).trans (congrArg some (lookup_createItem ..))
        simp only [hafter, hclosed, true_and, Option.some.injEq, lookup_eq_none_iff]
        refine and_iff_left fun other hne _ found hfound => ?_
        rw [Bucket.search_closed hslot hclosed, hchain, lookup_cons, if_neg (Ne.symm hne)] at hfound
        exact Option.some.inj hfound
      · refine iff_of_false (fun h => ?_) (fun h => hclosed h.1)
        exact Bucket.search_open (b := ⟨_, rest, b.closed⟩) rfl (by simpa using hclosed) h.1

/-- Deleting a key that is not the slot's. -/
theorem Bucket.delete_overflow_iff {b : Bucket} {item : HtItem} {key : CString}
    (hhome : ∀ other ∈ b.items, hashFunction other.key = hashFunction key)
    (hslot : b.slot = some item) (hkey : item.key ≠ key) :
    (∃ c, b.delete key = some c ∧ Bucket.AnswersAs b c key none) ↔
      b.closed = true ∧ ((∀ other ∈ b.chain, other.key ≠ key) ∨
        (∃ first rest, b.chain = first :: rest ∧ first.key = key) ∧
          ∀ other ∈ b.chain, other.key = key ∨ other.key = item.key) := by
  unfold Bucket.delete
  simp only [hslot, if_neg hkey]
  rcases split_at_key key b.chain with habsent | ⟨front, found, back, hchain, hfront, hfound⟩
  · rw [Bucket.deleteOverflow_absent habsent]
    by_cases hclosed : b.closed = true
    · simp only [hclosed, if_true, Option.some.injEq, exists_eq_left', true_and]
      refine iff_of_true ⟨?_, fun other _ _ value hvalue => hvalue⟩ (Or.inl habsent)
      rw [Bucket.search_closed hslot hclosed, lookup_cons, if_neg hkey,
        lookup_eq_none_iff.mpr habsent]
    · simp [hclosed]
  · have hmem : found ∈ b.chain := by simp [hchain]
    have hpresent : ¬ ∀ other ∈ b.chain, other.key ≠ key := fun h => h found hmem hfound
    simp only [hpresent, false_or]
    cases front with
    | nil =>
        rw [Bucket.deleteOverflow_first (show b.chain = found :: back from hchain) hfound]
        have hfirst : ∃ first rest, b.chain = first :: rest ∧ first.key = key :=
          ⟨found, back, hchain, hfound⟩
        simp only [hfirst, true_and]
        by_cases hclosed : b.closed = true
        · simp only [hclosed, if_true, Option.some.injEq, exists_eq_left', true_and]
          unfold Bucket.AnswersAs
          have hafter : ∀ other, Bucket.search ⟨some item, [], true⟩ other =
              some (lookup other [item]) := Bucket.search_closed rfl rfl
          simp only [hslot, hafter, Bucket.search_closed hslot hclosed, lookup_single_ne hkey,
            true_and, Option.some.injEq, forall_eq']
          constructor
          · intro hsame other hother
            by_contra hlost
            obtain ⟨hne, hitem⟩ := not_or.mp hlost
            have hnone := hsame other.key hne (hhome other (by simp [Bucket.items, hother]))
            rw [lookup_single_ne (Ne.symm hitem), lookup_cons, if_neg (Ne.symm hitem)] at hnone
            exact lookup_eq_none_iff.mp hnone.symm other hother rfl
          · intro hkeys other hne _
            rw [lookup_cons, lookup_cons]
            split
            · rfl
            · rename_i hitem
              refine (lookup_eq_none_iff.mpr fun one hone heq => ?_).symm
              rcases hkeys one hone with h | h
              · exact hne (heq.symm.trans h)
              · exact hitem (h.symm.trans heq)
        · simp [hclosed]
    | cons first rest =>
        rw [Bucket.deleteOverflow_later hchain (List.cons_ne_nil _ _) hfront hfound]
        simp only [Option.some.injEq, exists_eq_left']
        refine iff_of_false (fun h => ?_) ?_
        · exact Bucket.search_open (b := ⟨b.slot, first :: rest, false⟩) hslot rfl h.1
        rintro ⟨-, ⟨head, tail, hhead, hheadKey⟩, -⟩
        rw [hchain, List.cons_append] at hhead
        exact hfront first List.mem_cons_self ((List.cons.inj hhead).1 ▸ hheadKey)

/-- A deletion meets its law exactly under the condition on the bucket of its key. -/
theorem Sound.meetsDeleteLaw {t : HashTable} {b : Nat → Bucket} (h : Sound t b) (key : CString) :
    DeleteLaw t key ↔ Deletable t key := by
  obtain ⟨hholds, hhomed⟩ := h
  refine (hholds.answersAs_iff (.delete key)).trans ?_
  unfold Deletable
  simp only [hholds.items_eq, hholds.overflowItems_eq]
  simp only [Call.onBucket, Call.key]
  cases hslot : (b (hashFunction key)).slot with
  | none =>
      rw [hholds.bare hslot]
      refine iff_of_true ⟨Bucket.empty, rfl, rfl, fun _ _ _ _ hfound => hfound⟩ ?_
      exact fun item hitem => nomatch hitem
  | some item =>
      simp only [Option.some.injEq, forall_eq']
      by_cases hkey : item.key = key
      · subst hkey
        rw [Bucket.delete_slot_iff hslot]
        by_cases hclosed : (b (hashFunction item.key)).closed = true <;> simp [hclosed]
      · rw [Bucket.delete_overflow_iff (hhomed _) hslot hkey]
        by_cases hclosed : (b (hashFunction key)).closed = true <;> simp [hclosed, hkey]

/-- A third key in the bucket of `"ab"` and `"ba"`. -/
def keyBacktickC : CString := ⟨[96, 99], by decide⟩

end Nbfs.Nbfs2
