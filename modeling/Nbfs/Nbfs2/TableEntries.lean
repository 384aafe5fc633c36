import Nbfs.Nbfs2.Mount

set_option autoImplicit false

/-!
# The entries of a table in use

What holds of every entry that is made holds of every entry there is, no overflow list
grows beyond two nodes, and the scan of `_nbfs2_write_htable` comes to every entry.
-/

namespace Nbfs.Nbfs2

open Nbfs.Lib

/-- A table all of whose entries are as `P` has it. -/
structure Tidy (P : CString → CString → Prop) (t : HashTable) (b : Nat → Bucket) : Prop where
  sound : Sound t b
  entries : ∀ i, ∀ item ∈ (b i).items, P item.key item.value
  short : ∀ i, (b i).chain.length ≤ 2

theorem kept_length (items : List HtItem) (h : items.length ≤ 2) : (kept items).length ≤ 1 := by
  rcases short_or_two items with rfl | ⟨x, rfl⟩ | ⟨front, before, last, rfl⟩
  · exact Nat.zero_le 1
  · exact Nat.le_refl 1
  · rw [kept_append]
    simp only [List.length_append, List.length_cons, List.length_nil] at h ⊢
    omega

theorem Bucket.insert_short {b b' : Bucket} {key value : CString}
    (h : b.insert key value = some b') (hshort : b.chain.length ≤ 2) : b'.chain.length ≤ 2 := by
  unfold Bucket.insert at h
  cases hslot : b.slot with
  | none =>
      simp only [hslot, Option.some.injEq] at h
      subst h
      exact hshort
  | some slot =>
      simp only [hslot] at h
      split_ifs at h
      · obtain ⟨copy, -, rfl⟩ := Option.map_eq_some_iff.mp h
        exact hshort
      · obtain rfl := Option.some.inj h
        have hkept := kept_length b.chain hshort
        simp only [List.length_append, List.length_singleton]
        omega

theorem Bucket.delete_short {b b' : Bucket} {key : CString} (h : b.delete key = some b') :
    b'.chain.length ≤ b.chain.length := by
  unfold Bucket.delete at h
  cases hslot : b.slot with
  | none =>
      simp only [hslot, Option.some.injEq] at h
      exact h ▸ Nat.le_refl _
  | some slot =>
      simp only [hslot] at h
      by_cases hkey : slot.key = key
      · rw [if_pos hkey] at h
        cases hchain : b.chain with
        | nil =>
            simp only [hchain] at h
            split_ifs at h
            obtain rfl := Option.some.inj h
            exact Nat.zero_le _
        | cons next rest =>
            simp only [hchain] at h
            obtain rfl := Option.some.inj h
            exact Nat.le_succ _
      · rw [if_neg hkey] at h
        exact (Bucket.deleteOverflow_items h).2.length_le

namespace Tidy

variable {P : CString → CString → Prop} {t t' : HashTable} {b : Nat → Bucket}

theorem createTable : Tidy P (createTable capacity) fun _ => Bucket.empty where
  sound := Sound.createTable
  entries := by simp [Bucket.empty, Bucket.items]
  short := fun _ => Nat.zero_le 2

/-- A call works on the bucket of its key and keeps the table tidy. -/
theorem onBucket (h : Tidy P t b) {call : Call} (henters : call.Enters P)
    (hrun : call.run none t = some t') :
    ∃ c, call.onBucket (b (hashFunction call.key)) = some c ∧
      Tidy P t' (Function.update b (hashFunction call.key) c) := by
  obtain ⟨c, hbucket, hsound⟩ := h.sound.onBucket hrun
  have hitems := Call.onBucket_items hbucket henters (h.entries _)
  have hshort : c.chain.length ≤ 2 := by
    cases call with
    | insert key value => exact Bucket.insert_short hbucket (h.short _)
    | delete key => exact le_trans (Bucket.delete_short hbucket) (h.short _)
  refine ⟨c, hbucket, hsound, fun i => ?_, fun i => ?_⟩
  · by_cases hi : i = hashFunction call.key
    · subst hi
      rw [Function.update_self]
      exact hitems
    · rw [Function.update_of_ne hi]
      exact h.entries i
  · by_cases hi : i = hashFunction call.key
    · subst hi
      rw [Function.update_self]
      exact hshort
    · rw [Function.update_of_ne hi]
      exact h.short i

theorem step (h : Tidy P t b) {call : Call} (henters : call.Enters P)
    (hrun : call.run none t = some t') : ∃ b', Tidy P t' b' := by
  obtain ⟨c, -, htidy⟩ := h.onBucket henters hrun
  exact ⟨_, htidy⟩

theorem runCalls {calls : List Call} : ∀ {t : HashTable} {b : Nat → Bucket}, Tidy P t b →
    (∀ call ∈ calls, call.Enters P) → runCalls none t calls = some t' → ∃ b', Tidy P t' b' := by
  induction calls with
  | nil =>
      intro t b h _ hrun
      obtain rfl := Option.some.inj hrun
      exact ⟨b, h⟩
  | cons call calls ih =>
      intro t b h hall hrun
      rw [Nbfs2.runCalls, List.foldlM_cons, Option.bind_eq_bind] at hrun
      obtain ⟨t₁, hcall, hrest⟩ := Option.bind_eq_some_iff.mp hrun
      obtain ⟨b₁, h₁⟩ := h.step (hall call List.mem_cons_self) hcall
      exact ih h₁ (fun call hcall => hall call (List.mem_cons_of_mem _ hcall)) hrest

/-- What a search finds is the value of an entry. -/
theorem search (h : Tidy P t b) {key value : CString}
    (hfound : htSearch t key = some (some value)) : P key value := by
  rw [h.sound.1.search, Bucket.search] at hfound
  have hentries := h.entries (hashFunction key)
  cases hslot : (b (hashFunction key)).slot with
  | none =>
      rw [hslot] at hfound
      cases hfound
  | some item =>
      simp only [hslot, Bucket.scan] at hfound
      simp only [Bucket.items, hslot, Option.toList_some, List.singleton_append] at hentries
      cases hlookup : lookup key (item :: (b (hashFunction key)).chain) with
      | none =>
          simp only [hlookup] at hfound
          split_ifs at hfound
          cases Option.some.inj hfound
      | some found =>
          simp only [hlookup, Option.some.injEq] at hfound
          subst hfound
          obtain ⟨entry, hfind, rfl⟩ := Option.map_eq_some_iff.mp hlookup
          have hkey : entry.key = key := by simpa using List.find?_some hfind
          have hentry := hentries entry (List.mem_of_find?_eq_some hfind)
          rwa [hkey] at hentry

end Tidy

/-! ## The scan of `_nbfs2_write_htable` -/

theorem MountedFs.listItems_eq (t : HashTable) : ∀ (fuel : Nat) (p : Ptr),
    MountedFs.listItems t fuel p = Nbfs2.listItems fuel t p
  | 0, none => rfl
  | 0, some _ => rfl
  | _ + 1, none => rfl
  | fuel + 1, some list => by
      simp only [MountedFs.listItems, Nbfs2.listItems, MountedFs.listItems_eq t fuel]

/-- The scan comes to the items of each bucket, if every overflow list it walks ends at NULL. -/
theorem Holds.tableItems_eq {t : HashTable} {b : Nat → Bucket} (h : Holds t b) :
    ∀ {n : Nat}, n ≤ capacity → MountedFs.tableItems t n =
      if ∀ i < n, (b i).closed = true then some ((List.range n).flatMap fun i => (b i).items)
      else none
  | 0, _ => by simp [MountedFs.tableItems]
  | n + 1, hn => by
      have hall : (∀ i < n + 1, (b i).closed = true) ↔
          (∀ i < n, (b i).closed = true) ∧ (b n).closed = true := Nat.forall_lt_succ_right
      have hrange : (List.range (n + 1)).flatMap (fun i => (b i).items) =
          (List.range n).flatMap (fun i => (b i).items) ++ (b n).items := by
        simp [List.range_succ]
      simp only [MountedFs.tableItems, h.tableItems_eq (Nat.le_of_succ_le hn), hrange, hall,
        Option.bind_eq_bind]
      by_cases hbefore : ∀ i < n, (b i).closed = true
      · rw [if_pos hbefore, Option.bind_some]
        obtain ⟨rows, ends, L, rfl⟩ := h
        simp only [L.item_eq hn, L.bucket_eq hn, Option.bind_some]
        cases hitem : t.items n with
        | none =>
            have hempty := L.holds.bare (i := n) hitem
            rw [hempty, if_pos ⟨hbefore, rfl⟩]
            simp [Bucket.empty, Bucket.items]
        | some item =>
            have hlist := listItems_eq (L.stops n) (L.segment n)
              (le_trans (L.length_le n) (Nat.le_succ t.brk))
            simp only [MountedFs.listItems_eq, hlist]
            by_cases hclosed : (ends n).isNone = true
            · rw [if_pos hclosed, if_pos ⟨hbefore, hclosed⟩]
              simp [bucketsOf, Bucket.items, hitem]
            · rw [if_neg hclosed, if_neg fun hboth => hclosed hboth.2]
              rfl
      · rw [if_neg hbefore, Option.bind_none, if_neg fun hboth => hbefore hboth.1]

/-! ## All entries -/

/-- The items of the first `n` slots and overflow lists. -/
def entriesBelow (t : HashTable) : Nat → Option (List HtItem)
  | 0 => some []
  | n + 1 => do
      let before ← entriesBelow t n
      let chain ← overflowItems t n
      some (before ++ ((t.items n).toList ++ chain))

/-- The entries of the table. -/
def tableEntries (t : HashTable) : Option (List HtItem) := entriesBelow t t.size

theorem Holds.entriesBelow_eq {t : HashTable} {b : Nat → Bucket} (h : Holds t b) (n : Nat) :
    entriesBelow t n =
      if ∀ i < n, (b i).closed = true then some ((List.range n).flatMap fun i => (b i).items)
      else none := by
  induction n with
  | zero => simp [entriesBelow]
  | succ n ih =>
      have hall : (∀ i < n + 1, (b i).closed = true) ↔
          (∀ i < n, (b i).closed = true) ∧ (b n).closed = true := Nat.forall_lt_succ_right
      have hrange : (List.range (n + 1)).flatMap (fun i => (b i).items) =
          (List.range n).flatMap (fun i => (b i).items) ++ (b n).items := by
        simp [List.range_succ]
      simp only [entriesBelow, ih, hrange, hall, Option.bind_eq_bind, h.overflowItems_eq,
        h.items_eq]
      by_cases hbefore : ∀ i < n, (b i).closed = true
      · rw [if_pos hbefore, Option.bind_some]
        by_cases hclosed : (b n).closed = true
        · rw [if_pos hclosed, if_pos ⟨hbefore, hclosed⟩]
          rfl
        · rw [if_neg hclosed, if_neg fun hboth => hclosed hboth.2]
          rfl
      · rw [if_neg hbefore, Option.bind_none, if_neg fun hboth => hbefore hboth.1]

theorem Holds.size {t : HashTable} {b : Nat → Bucket} (h : Holds t b) : t.size = capacity := by
  obtain ⟨rows, ends, L, -⟩ := h
  exact L.size

/-- The scan of `_nbfs2_write_htable` comes to every entry. -/
theorem Holds.scan_eq {t : HashTable} {b : Nat → Bucket} (h : Holds t b) :
    MountedFs.tableItems t capacity = tableEntries t := by
  rw [tableEntries, h.size, h.tableItems_eq (Nat.le_refl _), h.entriesBelow_eq]

theorem Tidy.mem_entries {P : CString → CString → Prop} {t : HashTable} {b : Nat → Bucket}
    (h : Tidy P t b) {items : List HtItem} (hitems : tableEntries t = some items) :
    ∀ item ∈ items, P item.key item.value := by
  rw [tableEntries, h.sound.1.size, h.sound.1.entriesBelow_eq] at hitems
  split_ifs at hitems
  obtain rfl := Option.some.inj hitems
  intro item hitem
  obtain ⟨i, -, hitem⟩ := List.mem_flatMap.mp hitem
  exact h.entries i item hitem

end Nbfs.Nbfs2
