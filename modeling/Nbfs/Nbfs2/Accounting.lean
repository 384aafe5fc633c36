import Nbfs.Nbfs2.InUse

set_option autoImplicit false

/-!
# The size of the superblob's data

`spb_data_size` is counted up and down as files come and go, and the buffer that is filled
from the table at the end has that size.  Where each call changes the number of entries by
the one that it counts, the size is right.
-/

namespace Nbfs.Nbfs2

open Nbfs.Lib Conv

/-- The size is that of the records of all entries. -/
def Accounted (fs : Filesystem) : Prop :=
  ∃ items, tableEntries fs.table = some items ∧
    fs.spbDataSize.toNat = metaDataSize.toNat * items.length

/-- An insertion of the key makes an entry: the slot is free, or has another key and a list of
at most one node. -/
def Adds (t : HashTable) (key : CString) : Prop :=
  t.items (hashFunction key) = none ∨
    ∃ item, t.items (hashFunction key) = some item ∧ item.key ≠ key ∧
      ∃ chain, overflowItems t (hashFunction key) = some chain ∧ chain.length ≤ 1

/-- A deletion of the key removes one entry: the slot has the key, or the one node there is. -/
def Removes (t : HashTable) (key : CString) : Prop :=
  ∃ item, t.items (hashFunction key) = some item ∧
    ∃ chain, overflowItems t (hashFunction key) = some chain ∧
      (item.key = key ∨ ∃ only, chain = [only] ∧ only.key = key)

/-! ## Buckets -/

/-- The number of entries in the first buckets. -/
def entryCount (b : Nat → Bucket) (n : Nat) : Nat :=
  ((List.range n).flatMap fun i => (b i).items).length

theorem entryCount_succ (b : Nat → Bucket) (n : Nat) :
    entryCount b (n + 1) = entryCount b n + (b n).items.length := by
  simp [entryCount, List.range_succ]

theorem entryCount_update {b : Nat → Bucket} {i : Nat} {c : Bucket} : ∀ {n : Nat}, i < n →
    entryCount (Function.update b i c) n + (b i).items.length = entryCount b n + c.items.length
  | 0, h => absurd h (Nat.not_lt_zero i)
  | n + 1, h => by
      have hbelow : ∀ m ≤ i, entryCount (Function.update b i c) m = entryCount b m := by
        intro m hm
        refine congrArg List.length (List.flatMap_congr fun j hj => ?_)
        rw [Function.update_of_ne (Nat.ne_of_lt (lt_of_lt_of_le (List.mem_range.mp hj) hm))]
      rw [entryCount_succ, entryCount_succ]
      by_cases hi : i = n
      · subst hi
        rw [hbelow i (Nat.le_refl i), Function.update_self]
        omega
      · have hlt : i < n := Nat.lt_of_le_of_ne (Nat.le_of_lt_succ h) hi
        have ih := @entryCount_update b i c n hlt
        rw [Function.update_of_ne (Ne.symm hi)]
        omega

theorem Bucket.items_length (b : Bucket) :
    b.items.length = b.slot.toList.length + b.chain.length := by
  simp [Bucket.items]

/-- When an insertion makes an entry. -/
theorem Bucket.insert_adds_iff {b c : Bucket} {key value : CString}
    (h : b.insert key value = some c) : c.closed = b.closed ∧
      (c.items.length = b.items.length + 1 ↔
        b.slot = none ∨ ∃ item, b.slot = some item ∧ item.key ≠ key ∧ b.chain.length ≤ 1) := by
  unfold Bucket.insert at h
  cases hslot : b.slot with
  | none =>
      simp only [hslot, Option.some.injEq] at h
      subst h
      refine ⟨rfl, iff_of_true ?_ (Or.inl rfl)⟩
      simp [Bucket.items_length, hslot, Nat.add_comm]
  | some slot =>
      simp only [hslot] at h
      split_ifs at h with hkey hclosed
      · obtain ⟨copy, -, rfl⟩ := Option.map_eq_some_iff.mp h
        refine ⟨rfl, iff_of_false ?_ ?_⟩
        · simp [Bucket.items_length, hslot]
        · rintro (hnone | ⟨item, hitem, hne, -⟩)
          · cases hnone
          · exact hne (Option.some.inj hitem ▸ hkey)
      · obtain rfl := Option.some.inj h
        refine ⟨rfl, ?_⟩
        simp only [Bucket.items_length, hslot, Option.toList_some, List.length_append,
          List.length_singleton, Option.some.injEq, exists_eq_left', reduceCtorEq, false_or]
        rcases short_or_two b.chain with hchain | ⟨x, hchain⟩ | ⟨front, before, last, hchain⟩
        · simp [hchain, kept, hkey]
        · simp [hchain, kept, hkey]
        · rw [hchain, kept_append]
          simp only [List.length_append, List.length_cons, List.length_nil]
          omega

/-- When a deletion removes one entry. -/
theorem Bucket.delete_removes_iff {b c : Bucket} {key : CString} (h : b.delete key = some c)
    (hclosed : b.closed = true) : c.closed = true ∧ c.items.length + 1 = b.items.length ↔
      ∃ item, b.slot = some item ∧
        (item.key = key ∨ ∃ only, b.chain = [only] ∧ only.key = key) := by
  unfold Bucket.delete at h
  cases hslot : b.slot with
  | none =>
      simp only [hslot, Option.some.injEq] at h
      subst h
      simp
  | some item =>
      simp only [hslot] at h
      simp only [Option.some.injEq, exists_eq_left']
      by_cases hkey : item.key = key
      · rw [if_pos hkey] at h
        refine iff_of_true ?_ (Or.inl hkey)
        cases hchain : b.chain with
        | nil =>
            simp only [hchain, hclosed, if_true, Option.some.injEq] at h
            subst h
            simp [Bucket.items_length, hslot, hchain]
        | cons next rest =>
            simp only [hchain, Option.some.injEq] at h
            subst h
            simp [Bucket.items_length, hslot, hchain, hclosed, Nat.add_comm]
      · rw [if_neg hkey] at h
        simp only [hkey, false_or]
        rcases split_at_key key b.chain with habsent | ⟨front, other, back, hchain, hfront, hother⟩
        · rw [Bucket.deleteOverflow_absent habsent, if_pos hclosed] at h
          obtain rfl := Option.some.inj h
          refine iff_of_false (fun hless => Nat.succ_ne_self _ hless.2) ?_
          rintro ⟨only, honly, hsame⟩
          exact habsent only (honly ▸ List.mem_singleton_self only) hsame
        · cases front with
          | nil =>
              rw [Bucket.deleteOverflow_first hchain hother, if_pos hclosed] at h
              obtain rfl := Option.some.inj h
              rw [List.nil_append] at hchain
              simp only [Bucket.items_length, hslot, hchain, hclosed, true_and]
              cases back with
              | nil => simp [hother]
              | cons second back =>
                  simp
                  omega
          | cons first rest =>
              rw [Bucket.deleteOverflow_later hchain (List.cons_ne_nil _ _) hfront hother] at h
              obtain rfl := Option.some.inj h
              refine iff_of_false (fun hopen => nomatch hopen.1) ?_
              rintro ⟨only, honly, -⟩
              rw [hchain] at honly
              simp at honly

/-! ## Tables -/

/-- The table has this many entries. -/
def HasEntries (t : HashTable) (n : Nat) : Prop :=
  ∃ items, tableEntries t = some items ∧ items.length = n

section tables

variable {P : CString → CString → Prop} {t t' : HashTable} {b : Nat → Bucket} {n : Nat}
  {key value : CString}

theorem Tidy.hasEntries_iff (h : Tidy P t b) :
    HasEntries t n ↔ (∀ i < capacity, (b i).closed = true) ∧ entryCount b capacity = n := by
  rw [HasEntries, tableEntries, h.sound.1.size, h.sound.1.entriesBelow_eq]
  by_cases hclosed : ∀ i < capacity, (b i).closed = true
  · simp only [if_pos hclosed, Option.some.injEq, exists_eq_left', and_iff_right hclosed]
    exact Iff.rfl
  · rw [if_neg hclosed]
    simp [hclosed]

/-- No bucket has more than three entries. -/
theorem Tidy.entries_le (h : Tidy P t b) (hn : HasEntries t n) : n ≤ 3 * capacity := by
  obtain ⟨-, rfl⟩ := h.hasEntries_iff.mp hn
  have hle : ∀ m, entryCount b m ≤ 3 * m := by
    intro m
    induction m with
    | zero => exact Nat.le_refl 0
    | succ m ih =>
        have hslot : (b m).slot.toList.length ≤ 1 := by cases (b m).slot <;> simp
        have hshort := h.short m
        rw [entryCount_succ, Bucket.items_length]
        omega
  exact hle capacity

theorem Holds.bucket_eq {i : Nat} (h : Holds t b) (hclosed : (b i).closed = true) :
    overflowItems t i = some (b i).chain := by
  rw [h.overflowItems_eq, if_pos hclosed]

/-- An insertion into a table with `n` entries makes one more exactly when it adds one. -/
theorem Tidy.insert_hasEntries (h : Tidy P t b) (hn : HasEntries t n) (hP : P key value)
    (hinsert : htInsert none t key value = some t') : HasEntries t' (n + 1) ↔ Adds t key := by
  obtain ⟨hclosed, rfl⟩ := h.hasEntries_iff.mp hn
  obtain ⟨c, hbucket, htidy⟩ := h.onBucket (show (Call.insert key value).Enters P from hP) hinsert
  change (b (hashFunction key)).insert key value = some c at hbucket
  change Tidy P t' (Function.update b (hashFunction key) c) at htidy
  have hlt := hashFunction_lt key
  have hcount := @entryCount_update b (hashFunction key) c capacity hlt
  obtain ⟨hsame, hadds⟩ := Bucket.insert_adds_iff hbucket
  have hstill : ∀ i < capacity, (Function.update b (hashFunction key) c i).closed = true := by
    intro i hi
    by_cases heq : i = hashFunction key
    · subst heq
      rw [Function.update_self, hsame]
      exact hclosed _ hi
    · rw [Function.update_of_ne heq]
      exact hclosed i hi
  rw [htidy.hasEntries_iff, Adds, h.sound.1.items_eq, h.sound.1.bucket_eq (hclosed _ hlt)]
  simp only [Option.some.injEq, exists_eq_left', and_iff_right hstill]
  rw [← hadds]
  omega

/-- A deletion from a table with `n + 1` entries leaves `n` exactly when it removes one. -/
theorem Tidy.delete_hasEntries (h : Tidy P t b) (hn : HasEntries t (n + 1))
    (hdelete : htDelete t key = some t') : HasEntries t' n ↔ Removes t key := by
  obtain ⟨hclosed, hentries⟩ := h.hasEntries_iff.mp hn
  obtain ⟨c, hbucket, htidy⟩ := h.onBucket (show (Call.delete key).Enters P from trivial) hdelete
  change (b (hashFunction key)).delete key = some c at hbucket
  change Tidy P t' (Function.update b (hashFunction key) c) at htidy
  have hlt := hashFunction_lt key
  have hcount := @entryCount_update b (hashFunction key) c capacity hlt
  have hremoves := Bucket.delete_removes_iff hbucket (hclosed _ hlt)
  have hstill : (∀ i < capacity, (Function.update b (hashFunction key) c i).closed = true) ↔
      c.closed = true := by
    constructor
    · intro hall
      have hself := hall _ hlt
      rwa [Function.update_self] at hself
    · intro hself i hi
      by_cases heq : i = hashFunction key
      · subst heq
        rwa [Function.update_self]
      · rw [Function.update_of_ne heq]
        exact hclosed i hi
  rw [htidy.hasEntries_iff, hstill, Removes, h.sound.1.items_eq,
    h.sound.1.bucket_eq (hclosed _ hlt)]
  simp only [Option.some.injEq, exists_eq_left']
  rw [← hremoves]
  refine and_congr_right fun _ => ?_
  omega

/-- A table in which a name is found has an entry. -/
theorem Tidy.hasEntries_pos (h : Tidy P t b) (hn : HasEntries t n)
    (hfound : htSearch t key = some (some value)) : 0 < n := by
  obtain ⟨-, rfl⟩ := h.hasEntries_iff.mp hn
  rw [h.sound.1.search, Bucket.search] at hfound
  cases hslot : (b (hashFunction key)).slot with
  | none =>
      rw [hslot] at hfound
      cases hfound
  | some item =>
      refine List.length_pos_iff_exists_mem.mpr ⟨item, List.mem_flatMap.mpr
        ⟨hashFunction key, List.mem_range.mpr (hashFunction_lt key), ?_⟩⟩
      simp [Bucket.items, hslot]

end tables

/-! ## Runs -/

theorem accounted_iff {fs : Filesystem} : Accounted fs ↔
    ∃ n, HasEntries fs.table n ∧ fs.spbDataSize.toNat = metaDataSize.toNat * n := by
  constructor
  · rintro ⟨items, hitems, hsize⟩
    exact ⟨items.length, ⟨items, hitems, rfl⟩, hsize⟩
  · rintro ⟨n, ⟨items, hitems, rfl⟩, hsize⟩
    exact ⟨items, hitems, hsize⟩

/-- A call with what was asked and answered. -/
def TraceStep (fs : Filesystem) (e : FileCall × Asked) (fs' : Filesystem) : Prop :=
  Free (e.1.run fs) e.2 (some fs')

/-- The call changes the number of entries by the one that it counts: no blob was created or
the name makes an entry; no blob was deleted or the text of its id removes one. -/
def Counts (fs : Filesystem) (e : FileCall × Asked) : Prop :=
  match e.1 with
  | .create filename _ =>
      (∀ id, ⟨.createBlob, ((id, 0) : BlobId × Int)⟩ ∉ e.2) ∨ Adds fs.table filename
  | .delete filename =>
      (∀ id, ⟨.deleteBlob id, (0 : Int)⟩ ∉ e.2) ∨
        ∀ text, htSearch fs.table filename = some (some text) →
          Removes fs.table (blobid2char (char2blobid text))

/-- The records are entered one by one and each makes an entry. -/
def EachAdds : HashTable → List (CString × BlobId) → Prop
  | _, [] => True
  | t, record :: records => Adds t record.1 ∧
      ∀ t', (enter record).run none t = some t' → EachAdds t' records

/-- The filesystem was initialized with 0 in `spb_data_size`; or it was loaded, each record
that was read made an entry, and the size that was read is that of the records. -/
def BuiltAccounted (fs : Filesystem) : Prop :=
  (∃ garbage m t m', Free (nbfs2BuildFs garbage m .init) t (some m') ∧
    ⟨.callback 0, ()⟩ ∈ t ∧ m.fs.spbDataSize = 0 ∧ m'.fs = fs) ∨
  ∃ m t m', Free (nbfs2BuildFs (fun _ => none) m .load) t (some m') ∧
    ⟨.callback 0, ()⟩ ∈ t ∧ m'.htSize = initHashtableSize ∧
      EachAdds (createTable capacity) (recordsRead t) ∧
      m'.fs.spbDataSize.toNat = metaDataSize.toNat * (recordsRead t).length ∧ m'.fs = fs

/-- Entering records of which each makes an entry. -/
theorem Tidy.enter_all {records : List (CString × BlobId)} : ∀ {t t' : HashTable}
    {b : Nat → Bucket} {n : Nat}, Tidy IsText t b → HasEntries t n → EachAdds t records →
    Nbfs2.runCalls none t (records.map enter) = some t' →
    (∃ b', Tidy IsText t' b') ∧ HasEntries t' (n + records.length) := by
  induction records with
  | nil =>
      intro t t' b n h hn _ hrun
      obtain rfl := Option.some.inj hrun
      exact ⟨⟨b, h⟩, hn⟩
  | cons record records ih =>
      rintro t t' b n h hn ⟨hadds, heach⟩ hrun
      rw [List.map_cons, Nbfs2.runCalls, List.foldlM_cons, Option.bind_eq_bind] at hrun
      obtain ⟨t₁, hcall, hrest⟩ := Option.bind_eq_some_iff.mp hrun
      have htext : IsText record.1 (blobid2char record.2) := ⟨record.2, rfl⟩
      have hn₁ := (h.insert_hasEntries hn htext hcall).mpr hadds
      obtain ⟨b₁, h₁⟩ := h.step (show (enter record).Enters IsText from htext) hcall
      obtain ⟨htidy, hall⟩ := ih h₁ hn₁ (heach t₁ hcall) hrest
      refine ⟨htidy, ?_⟩
      rwa [List.length_cons, Nat.add_comm records.length 1, ← Nat.add_assoc]

theorem hasEntries_createTable : HasEntries (createTable capacity) 0 := by
  have htidy : Tidy IsText (createTable capacity) fun _ => Bucket.empty := Tidy.createTable
  refine htidy.hasEntries_iff.mpr ⟨fun _ _ => rfl, ?_⟩
  simp [entryCount, Bucket.items, Bucket.empty]

theorem BuiltAccounted.start {fs : Filesystem} (h : BuiltAccounted fs) :
    (∃ b, Tidy IsText fs.table b) ∧ Accounted fs := by
  rcases h with ⟨garbage, m, t, m', hbuild, hdone, hzero, rfl⟩ |
    ⟨m, t, m', hbuild, hdone, hht, heach, hsize, rfl⟩
  · obtain ⟨-, -, hfs⟩ := builds_init garbage t m' hbuild hdone
    rw [hfs, hzero]
    exact ⟨⟨_, Tidy.createTable⟩, accounted_iff.mpr ⟨0, hasEntries_createTable, rfl⟩⟩
  · obtain ⟨htidy, hentries⟩ := Tidy.createTable.enter_all hasEntries_createTable heach
      (builds_load t m' hbuild hdone hht)
    rw [Nat.zero_add] at hentries
    exact ⟨htidy, accounted_iff.mpr ⟨_, hentries, hsize⟩⟩

theorem toNat_add_metaDataSize {size : UInt64} {n : Nat} (hn : n ≤ 3 * capacity)
    (h : size.toNat = metaDataSize.toNat * n) :
    (size + metaDataSize).toNat = metaDataSize.toNat * (n + 1) := by
  have hmeta : metaDataSize.toNat = 136 := rfl
  have hcapacity : capacity = 65536 := rfl
  rw [UInt64.toNat_add, h, hmeta]
  have hfits : 136 * n + 136 < 2 ^ 64 := by omega
  rw [Nat.mod_eq_of_lt hfits, Nat.mul_succ]

theorem toNat_sub_metaDataSize {size : UInt64} {n : Nat}
    (h : size.toNat = metaDataSize.toNat * (n + 1)) :
    (size - metaDataSize).toNat = metaDataSize.toNat * n := by
  have hle : metaDataSize ≤ size := by
    rw [UInt64.le_iff_toNat_le, h]
    exact Nat.le_mul_of_pos_right _ (Nat.succ_pos n)
  rw [UInt64.toNat_sub_of_le _ _ hle, h, Nat.mul_succ, Nat.add_sub_cancel]

/-- After a call the size is right exactly when the call changes the number of entries by the
one that it counts. -/
theorem Accounted.step_iff {fs fs' : Filesystem} (htidy : ∃ b, Tidy IsText fs.table b)
    (h : Accounted fs) {e : FileCall × Asked} (hnull : NullNext fs e.1)
    (hstep : TraceStep fs e fs') : Accounted fs' ↔ Counts fs e := by
  obtain ⟨b, hb⟩ := htidy
  obtain ⟨n, hn, hsize⟩ := accounted_iff.mp h
  have hmeta : 0 < metaDataSize.toNat := by decide
  obtain ⟨call, t⟩ := e
  cases call with
  | create filename garbage =>
      rcases createFile_free hstep with ⟨rfl, hnone⟩ | ⟨id, hcreated, hinsert, hcount⟩
      · exact iff_of_true h (Or.inl hnone)
      · rw [Kept.htInsert_garbage hnull] at hinsert
        rw [accounted_iff, hcount, toNat_add_metaDataSize (hb.entries_le hn) hsize]
        simp only [Nat.mul_left_cancel_iff hmeta]
        have hfailed : ¬ ∀ id, ⟨.createBlob, ((id, 0) : BlobId × Int)⟩ ∉ t := fun hall =>
          hall id hcreated
        have hadds := hb.insert_hasEntries hn (show IsText _ _ from ⟨id, rfl⟩) hinsert
        refine Iff.trans ⟨?_, fun hmore => ⟨n + 1, hmore, rfl⟩⟩
          (hadds.trans (or_iff_right hfailed).symm)
        rintro ⟨m, hm, rfl⟩
        exact hm
  | delete filename =>
      obtain ⟨text, hfound, hlen⟩ := deleteFile_found hstep
      rcases (deleteFile_free hfound hlen).mp hstep with
        ⟨bserrno, herror, hsame, rfl⟩ | ⟨rfl, hdeleted⟩
      · refine iff_of_true (Option.some.inj hsame ▸ h) (Or.inl fun id hmem => ?_)
        simp only [List.mem_cons, List.not_mem_nil, or_false] at hmem
        rcases hmem with heq | heq
        · cases heq
          exact herror rfl
        · cases congrArg Sigma.fst heq
      · obtain ⟨table, hdelete, rfl⟩ := Option.map_eq_some_iff.mp hdeleted.symm
        obtain ⟨k, rfl⟩ : ∃ k, n = k + 1 :=
          Nat.exists_eq_add_one.mpr (hb.hasEntries_pos hn hfound)
        rw [accounted_iff, toNat_sub_metaDataSize hsize]
        simp only [Nat.mul_left_cancel_iff hmeta]
        have hremoves := hb.delete_hasEntries hn hdelete
        have hasked : ¬ ∀ id, ⟨.deleteBlob id, (0 : Int)⟩ ∉
            ([⟨.deleteBlob (char2blobid text), (0 : Int)⟩] : Asked) := fun hall =>
          hall _ List.mem_cons_self
        refine Iff.trans ⟨?_, fun hless => ⟨k, hless, rfl⟩⟩ (hremoves.trans ?_)
        · rintro ⟨m, hm, rfl⟩
          exact hm
        · refine Iff.trans ?_ (or_iff_right hasked).symm
          simp only [hfound, Option.some.injEq, forall_eq']

/-- **The size of the superblob's data.**  In a run from a build with the right size, of calls
that each change the number of entries by the one that they count, the size is right, and
every record fits a buffer of that size; and the next call keeps it right exactly when it
does so too. -/
theorem accounted_of_runs {fs₀ fs : Filesystem} (h₀ : BuiltAccounted fs₀)
    (hruns : Runs TraceStep (fun fs e => NullNext fs e.1 ∧ Counts fs e) fs₀ fs) :
    Accounted fs ∧
      (∀ items, MountedFs.tableItems fs.table capacity = some items → ∀ i < items.length,
        (i + 1) * metaDataSize.toNat ≤ fs.spbDataSize.toNat) ∧
      ∀ e fs', NullNext fs e.1 → TraceStep fs e fs' → (Accounted fs' ↔ Counts fs e) := by
  have hkept : (∃ b, Tidy IsText fs.table b) ∧ Accounted fs := by
    refine @Runs.keeps _ _ _ _ _ _
      (fun fs => (∃ b, Tidy IsText fs.table b) ∧ Accounted fs) hruns h₀.start ?_
    rintro fs₁ e fs₂ ⟨htidy, haccounted⟩ ⟨hnull, hcounts⟩ hstep
    exact ⟨CallStep.tidy ⟨e.2, hstep⟩ hnull htidy,
      (haccounted.step_iff htidy hnull hstep).mpr hcounts⟩
  obtain ⟨htidy, haccounted⟩ := hkept
  refine ⟨haccounted, fun items hitems i hi => ?_, fun e fs' hnull hstep =>
    haccounted.step_iff htidy hnull hstep⟩
  obtain ⟨all, hall, hsize⟩ := haccounted
  obtain ⟨b, hb⟩ := htidy
  rw [← hb.sound.1.scan_eq] at hall
  obtain rfl := Option.some.inj (hall.symm.trans hitems)
  rw [hsize, Nat.mul_comm]
  exact Nat.mul_le_mul_left _ hi

/-- After a first file was created. -/
theorem accounted_one : Accounted (oneFile keyAb 5) := by
  have hbuilt : BuiltAccounted freshFs :=
    Or.inl ⟨_, _, freshTrace, _, free_freshTrace, by simp [freshTrace], rfl, rfl⟩
  have hstep : TraceStep freshFs (.create keyAb none, createTrace 5) (oneFile keyAb 5) :=
    free_createTrace (htInsert_createTable none keyAb 5)
  have hcounts : NullNext freshFs (.create keyAb none) ∧
      Counts freshFs (.create keyAb none, createTrace 5) := ⟨Or.inr rfl, Or.inr (Or.inl rfl)⟩
  exact (accounted_of_runs hbuilt (.one hcounts hstep)).1

/-- The same name created twice is counted twice. -/
theorem accounted_twice : ¬ ∀ fs : Filesystem, InUse fs → Accounted fs := by
  intro hall
  obtain ⟨b, hb⟩ := (inUse_oneFile keyAb 5).tidy
  have haccounted := hall _ (inUse_oneFile keyAb 5)
  have hitem : (oneFile keyAb 5).table.items (hashFunction keyAb) =
      some (createItem keyAb (blobid2char 5)) := by
    simp [oneFile, HashTable.setItem]
  obtain ⟨table, hinsert⟩ : ∃ table,
      htInsert none (oneFile keyAb 5).table keyAb (blobid2char 6) = some table := ⟨_, rfl⟩
  have hstep : TraceStep (oneFile keyAb 5) (.create keyAb none, createTrace 6)
      ⟨table, metaDataSize + metaDataSize⟩ := free_createTrace hinsert
  have hnull : NullNext (oneFile keyAb 5) (.create keyAb none) := Or.inr rfl
  obtain ⟨fs₀, hbuilt, hruns⟩ := inUse_oneFile keyAb 5
  have hagain := hall _ ⟨fs₀, hbuilt, hruns.tail hnull ⟨_, hstep⟩⟩
  rcases (haccounted.step_iff ⟨b, hb⟩ hnull hstep).mp hagain with hfailed | hfree | hother
  · exact hfailed 6 (by simp [createTrace])
  · cases hitem.symm.trans hfree
  · obtain ⟨item, hslot, hne, -⟩ := hother
    exact hne (Option.some.inj (hitem.symm.trans hslot) ▸ rfl)

end Nbfs.Nbfs2
