import Nbfs.Nbfs2.TableEntries

set_option autoImplicit false

/-!
# Entering the entries of a table again

The entries of a table, entered in the order of the scan into an empty table, make a table
again.  It answers every search as the first one did exactly when, of the nodes of each
overflow list that have the key of the slot, the last one has its value.
-/

namespace Nbfs.Nbfs2

open Nbfs.Lib

/-- The name fits its array, and the value is the text of a blob id. -/
def IsRecord (key value : CString) : Prop :=
  key.strlen < maxfilename ∧ ∃ id, value = blobid2char id

/-- The call of `ht_insert` for an entry. -/
def HtItem.enter (item : HtItem) : Call := .insert item.key item.value

/-- Calls one after the other on one bucket. -/
def Bucket.runCalls (b : Bucket) (calls : List Call) : Option Bucket :=
  calls.foldlM (fun b call => call.onBucket b) b

/-! ## One bucket -/

/-- Entering records in a bucket that holds one: its slot keeps its key and has the value of
the last record with the key, and the others are found as they are in the list. -/
theorem Bucket.enter_all {items : List HtItem} : ∀ {slot : HtItem} {chain : List HtItem},
    18 ≤ slot.valueLen → (∀ item ∈ items, item.value.strlen = 18) →
    chain.length + items.length ≤ 2 →
    ∃ slot' chain', Bucket.runCalls ⟨some slot, chain, true⟩ (items.map HtItem.enter) =
        some ⟨some slot', chain', true⟩ ∧ slot'.key = slot.key ∧
      slot'.value = (lookup slot.key items.reverse).getD slot.value ∧
      ∀ key, key ≠ slot.key → lookup key chain' = lookup key (chain ++ items) := by
  induction items with
  | nil =>
      intro slot chain _ _ _
      refine ⟨slot, chain, rfl, rfl, rfl, fun key _ => ?_⟩
      rw [List.append_nil]
  | cons item items ih =>
      intro slot chain hroom hlen hshort
      have hitem := hlen item List.mem_cons_self
      have hrest : ∀ item ∈ items, item.value.strlen = 18 := fun other hother =>
        hlen other (List.mem_cons_of_mem _ hother)
      rw [List.length_cons] at hshort
      have hreverse : lookup slot.key (item :: items).reverse =
          (lookup slot.key items.reverse).or (lookup slot.key [item]) := by
        rw [List.reverse_cons, lookup_append]
      by_cases hkey : slot.key = item.key
      · have hfits : item.value.strlen ≤ slot.valueLen := by omega
        obtain ⟨slot', chain', hrun, hsame, hvalue, hlookup⟩ :=
          @ih { slot with value := item.value, fits := hfits } chain hroom hrest (by omega)
        have hstep : (HtItem.enter item).onBucket ⟨some slot, chain, true⟩ =
            some ⟨some { slot with value := item.value, fits := hfits }, chain, true⟩ := by
          simp [HtItem.enter, Call.onBucket, Bucket.insert, hkey, HtItem.strcpyValue, hfits]
        refine ⟨slot', chain', ?_, hsame, ?_, fun key hne => ?_⟩
        · rw [List.map_cons, Bucket.runCalls, List.foldlM_cons, hstep]
          exact hrun
        · rw [hvalue, hreverse, hkey, lookup_single_self]
          cases lookup item.key items.reverse <;> rfl
        · rw [hlookup key hne, lookup_append, lookup_append, lookup_cons, if_neg]
          rw [← hkey]
          exact Ne.symm hne
      · have hkept : kept chain = chain := by
          rcases short_or_two chain with rfl | ⟨x, rfl⟩ | ⟨front, before, last, rfl⟩
          · rfl
          · rfl
          · simp only [List.length_append, List.length_cons, List.length_nil] at hshort
            omega
        obtain ⟨slot', chain', hrun, hsame, hvalue, hlookup⟩ :=
          @ih slot (chain ++ [createItem item.key item.value]) hroom hrest (by
            rw [List.length_append, List.length_singleton]
            omega)
        have hstep : (HtItem.enter item).onBucket ⟨some slot, chain, true⟩ =
            some ⟨some slot, chain ++ [createItem item.key item.value], true⟩ := by
          simp [HtItem.enter, Call.onBucket, Bucket.insert, hkey, hkept]
        refine ⟨slot', chain', ?_, hsame, ?_, fun key hne => ?_⟩
        · rw [List.map_cons, Bucket.runCalls, List.foldlM_cons, hstep]
          exact hrun
        · rw [hvalue, hreverse, lookup_single_ne (Ne.symm hkey), Option.or_none]
        · rw [hlookup key hne, List.append_assoc, List.singleton_append, lookup_append,
            lookup_append, lookup_createItem]

/-- Of the nodes with the key of the slot, the last one has its value. -/
def Bucket.Consistent (b : Bucket) : Prop :=
  ∀ item, b.slot = some item → ∀ value, lookup item.key b.chain.reverse = some value →
    value = item.value

/-- A bucket entered again. -/
theorem Bucket.rebuilt {b : Bucket} (hbare : b.slot = none → b = Bucket.empty)
    (hlen : ∀ item ∈ b.items, item.value.strlen = 18) (hshort : b.chain.length ≤ 2) :
    ∃ c, Bucket.runCalls Bucket.empty (b.items.map HtItem.enter) = some c ∧
      (b.closed = true → b.Consistent → ∀ key, c.search key = b.search key) ∧
      (b.closed = true → (∀ item, b.slot = some item → c.search item.key = b.search item.key) →
        b.Consistent) := by
  cases hslot : b.slot with
  | none =>
      refine ⟨Bucket.empty, ?_, ?_, fun _ _ item hitem => ?_⟩
      · rw [hbare hslot]
        rfl
      · intro _ _ key
        rw [hbare hslot]
      · cases hslot.symm.trans hitem
  | some item =>
      have hitems : b.items = item :: b.chain := by simp [Bucket.items, hslot]
      rw [hitems] at hlen ⊢
      have hitem := hlen item List.mem_cons_self
      obtain ⟨slot', chain', hrun, hkey, hvalue, hlookup⟩ :=
        @Bucket.enter_all b.chain (createItem item.key item.value) [] (le_of_eq hitem.symm)
          (fun other hother => hlen other (List.mem_cons_of_mem _ hother)) (by simpa using hshort)
      have hsearch : ∀ key, Bucket.search ⟨some slot', chain', true⟩ key =
          some (lookup key (slot' :: chain')) := Bucket.search_closed rfl rfl
      change slot'.key = item.key at hkey
      change slot'.value = (lookup item.key b.chain.reverse).getD item.value at hvalue
      refine ⟨⟨some slot', chain', true⟩, hrun, fun hclosed hconsistent key => ?_,
        fun hclosed hsame => ?_⟩
      · rw [hsearch, Bucket.search_closed hslot hclosed, lookup_cons, lookup_cons, hkey]
        by_cases hown : item.key = key
        · rw [if_pos hown, if_pos hown, hvalue]
          cases hlast : lookup item.key b.chain.reverse with
          | none => rfl
          | some value => rw [Option.getD_some, hconsistent item hslot value hlast]
        · rw [if_neg hown, if_neg hown, hlookup key (Ne.symm hown), List.nil_append]
      · intro other hother value hlast
        obtain rfl := Option.some.inj (hslot.symm.trans hother)
        have hown := hsame item rfl
        rw [hsearch, Bucket.search_closed hslot hclosed, lookup_cons, lookup_cons, if_pos hkey,
          if_pos rfl, hvalue, hlast] at hown
        exact Option.some.inj (Option.some.inj hown)

/-! ## The table -/

/-- Calls on the keys of one bucket are calls on the bucket. -/
theorem Holds.runCalls_bucket {calls : List Call} {i : Nat} {c : Bucket} :
    ∀ {t : HashTable} {b : Nat → Bucket}, Holds t b → (∀ call ∈ calls, hashFunction call.key = i) →
      (b i).runCalls calls = some c →
        ∃ t', Nbfs2.runCalls none t calls = some t' ∧ Holds t' (Function.update b i c) := by
  induction calls with
  | nil =>
      intro t b h _ hrun
      obtain rfl := Option.some.inj hrun
      exact ⟨t, rfl, by rwa [Function.update_eq_self]⟩
  | cons call calls ih =>
      intro t b h hall hrun
      rw [Bucket.runCalls, List.foldlM_cons, Option.bind_eq_bind] at hrun
      obtain ⟨c₁, hcall, hrest⟩ := Option.bind_eq_some_iff.mp hrun
      have htracks := h.call call
      rw [hall call List.mem_cons_self, hcall] at htracks
      obtain ⟨t₁, hrun₁, h₁⟩ := htracks
      have hrest₁ : (Function.update b i c₁ i).runCalls calls = some c := by
        rw [Function.update_self]
        exact hrest
      obtain ⟨t', hrun', h'⟩ := ih h₁ (fun call hcall => hall call (List.mem_cons_of_mem _ hcall))
        hrest₁
      rw [Function.update_idem] at h'
      refine ⟨t', ?_, h'⟩
      rw [Nbfs2.runCalls, List.foldlM_cons, hrun₁]
      exact hrun'

/-- The entries of the first `n` buckets, entered into an empty table. -/
theorem enter_buckets {b c : Nat → Bucket} (hhomed : Homed b)
    (hc : ∀ i, Bucket.runCalls Bucket.empty ((b i).items.map HtItem.enter) = some (c i)) (n : Nat) :
    ∃ t, runCalls none (createTable capacity)
        (((List.range n).flatMap fun i => (b i).items).map HtItem.enter) = some t ∧
      Holds t fun i => if i < n then c i else Bucket.empty := by
  induction n with
  | zero => exact ⟨createTable capacity, rfl, by simpa using Sound.createTable.1⟩
  | succ n ih =>
      obtain ⟨t, hrun, hholds⟩ := ih
      have hbucket : (if n < n then c n else Bucket.empty).runCalls
          ((b n).items.map HtItem.enter) = some (c n) := by
        rw [if_neg (Nat.lt_irrefl n)]
        exact hc n
      have hkeys : ∀ call ∈ (b n).items.map HtItem.enter, hashFunction call.key = n := by
        intro call hcall
        obtain ⟨item, hitem, rfl⟩ := List.mem_map.mp hcall
        exact hhomed n item hitem
      obtain ⟨t', hrun', hholds'⟩ := hholds.runCalls_bucket hkeys hbucket
      refine ⟨t', ?_, ?_⟩
      · rw [List.range_succ, List.flatMap_append, List.map_append, runCalls, List.foldlM_append]
        change (runCalls none (createTable capacity) _).bind _ = _
        rw [hrun]
        exact (congrArg (runCalls none t) (by simp)).trans hrun'
      · have hsame : (fun i => if i < n + 1 then c i else Bucket.empty) =
            Function.update (fun i => if i < n then c i else Bucket.empty) n (c n) := by
          funext i
          by_cases hi : i = n
          · subst hi
            simp
          · have hlt : i < n + 1 ↔ i < n := by omega
            simp only [Function.update_of_ne hi, hlt]
        rw [hsame]
        exact hholds'

/-- In each bucket with a slot in use the overflow list ends at NULL, and of its nodes with the
key of the slot the last one has the value of the slot. -/
def Codable (t : HashTable) : Prop :=
  ∀ i < t.size, ∀ item, t.items i = some item → ∃ chain, overflowItems t i = some chain ∧
    ∀ value, lookup item.key chain.reverse = some value → value = item.value

theorem Holds.codable_iff {t : HashTable} {b : Nat → Bucket} (h : Holds t b) :
    Codable t ↔ ∀ i < capacity, (b i).closed = true ∧ (b i).Consistent := by
  rw [Codable, h.size]
  refine forall_congr' fun i => imp_congr_right fun _ => ?_
  simp only [h.items_eq, h.overflowItems_eq]
  cases hslot : (b i).slot with
  | none =>
      rw [h.bare hslot]
      refine iff_of_true (fun item hitem => nomatch hitem) ⟨rfl, fun item hitem => ?_⟩
      cases hitem
  | some item =>
      by_cases hclosed : (b i).closed = true
      · simp [hclosed, Bucket.Consistent, hslot]
      · simp [hclosed]

/-- The entries of a table of records, entered into an empty table, make a table; and it
answers every search as the first one if and only if the first one is codable. -/
theorem Tidy.rebuilt {t : HashTable} {b : Nat → Bucket} (h : Tidy IsRecord t b)
    {entries : List HtItem} (hentries : tableEntries t = some entries) :
    ∃ t', Nbfs2.runCalls none (Nbfs2.createTable capacity) (entries.map HtItem.enter) = some t' ∧
      ((∀ key, htSearch t' key = htSearch t key) ↔ Codable t) := by
  have hholds := h.sound.1
  rw [tableEntries, hholds.size, hholds.entriesBelow_eq] at hentries
  split_ifs at hentries with hclosed
  obtain rfl := Option.some.inj hentries
  have hlen : ∀ i, ∀ item ∈ (b i).items, item.value.strlen = 18 := by
    intro i item hitem
    obtain ⟨-, id, hvalue⟩ := h.entries i item hitem
    rw [hvalue, blobid2char_strlen]
  choose c hc hsame hconsistent using fun i =>
    Bucket.rebuilt (fun hslot => hholds.bare hslot) (hlen i) (h.short i)
  obtain ⟨t', hrun, hholds'⟩ := enter_buckets h.sound.2 hc capacity
  have hsearch : ∀ key, htSearch t' key = (c (hashFunction key)).search key := by
    intro key
    rw [hholds'.search, if_pos (hashFunction_lt key)]
  refine ⟨t', hrun, ?_⟩
  rw [hholds.codable_iff]
  constructor
  · intro hall i hi
    refine ⟨hclosed i hi, hconsistent i (hclosed i hi) fun item hitem => ?_⟩
    have hhome : hashFunction item.key = i := h.sound.2 i item (by simp [Bucket.items, hitem])
    have hown := hall item.key
    rwa [hsearch, hholds.search, hhome] at hown
  · intro hall key
    have hlt := hashFunction_lt key
    rw [hsearch, hholds.search]
    exact hsame _ (hclosed _ hlt) (hall _ hlt).2 key

end Nbfs.Nbfs2
