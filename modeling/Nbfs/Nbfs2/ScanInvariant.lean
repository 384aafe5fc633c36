import Nbfs.Lib.Runs
import Nbfs.Nbfs2.TableEntries
import Nbfs.Nbfs2.TableMemory

set_option autoImplicit false

/-!
# Slots, overflow lists and `count` (`src/NBFS2/hash_table.h`)

`_nbfs2_write_htable` visits an overflow list only under a slot in use, and `ht_insert`
compares `count` with the size of the table.  Both rely on a relation between slots, lists
and `count` that each of the four ways to change a bucket keeps in its own way, as long as
every list ends at NULL.
-/

namespace Nbfs.Nbfs2

open Nbfs.Lib

/-- One call; the second component of the event is what `malloc` leaves in a new node. -/
def TableSteps (t : HashTable) (e : Call × Ptr) (t' : HashTable) : Prop :=
  e.1.run e.2 t = some t'

/-- The relation of slots, overflow lists and `count`, and what rests on it. -/
structure ScanComplete (t : HashTable) : Prop where
  /-- Slot and overflow list hold only keys of their own index. -/
  homed : ∀ i < t.size, ∃ chain, overflowItems t i = some chain ∧
    ∀ item ∈ (t.items i).toList ++ chain, hashFunction item.key = i
  bare : ∀ i < t.size, t.items i = none → t.overflowBuckets i = none
  count : t.count = occupied t
  /-- The scan of `_nbfs2_write_htable` comes to all entries. -/
  scan : ∃ items, MountedFs.tableItems t t.size = some items ∧ tableEntries t = some items
  /-- `ht_insert` refuses no key as long as its slot is free. -/
  accepts : ∀ key, t.items (hashFunction key) = none → t.count ≠ (t.size : Int)

/-- A call that leaves its overflow list ending at NULL.  An insertion has room where it copies
over a value, and finds NULL in the node that begins a list; a deletion takes out no node but
the first of its list. -/
def Spares (t : HashTable) : Call × Ptr → Prop
  | (.insert key value, garbage) => ∀ item, t.items (hashFunction key) = some item →
      (item.key = key → value.strlen ≤ item.valueLen) ∧
        (item.key ≠ key → t.overflowBuckets (hashFunction key) = none → garbage = none)
  | (.delete key, _) => ∀ item first rest, t.items (hashFunction key) = some item →
      overflowItems t (hashFunction key) = some (first :: rest) →
      item.key ≠ key → first.key ≠ key → ∀ other ∈ rest, other.key ≠ key

/-! ## A bucket whose list ends at NULL -/

/-- The same for the bucket of the key. -/
def Bucket.Spares (b : Bucket) : Call → Prop
  | .insert key value => ∀ item, b.slot = some item → item.key = key →
      value.strlen ≤ item.valueLen
  | .delete key => ∀ item first rest, b.slot = some item → b.chain = first :: rest →
      item.key ≠ key → first.key ≠ key → ∀ other ∈ rest, other.key ≠ key

theorem Bucket.insert_closed {b : Bucket} {key value : CString} (hclosed : b.closed = true)
    (h : b.Spares (.insert key value)) :
    ∃ c, b.insert key value = some c ∧ c.closed = true := by
  unfold Bucket.insert
  cases hslot : b.slot with
  | none => exact ⟨_, rfl, hclosed⟩
  | some item =>
      by_cases hkey : item.key = key
      · obtain ⟨copy, hcopy⟩ : ∃ copy, item.strcpyValue value = some copy :=
          ⟨_, dif_pos (h item hslot hkey)⟩
        exact ⟨{ b with slot := some copy }, by simp only [if_pos hkey, hcopy, Option.map_some],
          hclosed⟩
      · exact ⟨_, (if_neg hkey).trans (if_pos hclosed), hclosed⟩

theorem Bucket.deleteOverflow_closed {b : Bucket} {key : CString} (hclosed : b.closed = true)
    (h : ∀ first rest, b.chain = first :: rest → first.key ≠ key →
      ∀ other ∈ rest, other.key ≠ key) :
    ∃ c, b.deleteOverflow key = some c ∧ c.closed = true := by
  rcases split_at_key key b.chain with habsent | ⟨front, item, back, hsplit, hfront, hkey⟩
  · exact ⟨b, (Bucket.deleteOverflow_absent habsent).trans (if_pos hclosed), hclosed⟩
  · cases front with
    | nil =>
        exact ⟨_, (Bucket.deleteOverflow_first hsplit hkey).trans (if_pos hclosed), hclosed⟩
    | cons first front =>
        -- the node behind the first would leave its predecessor pointing at a freed one
        have hne := h first (front ++ item :: back) hsplit (hfront first List.mem_cons_self)
        exact absurd hkey (hne item (by simp))

theorem Bucket.delete_closed {b : Bucket} {key : CString} (hclosed : b.closed = true)
    (h : b.Spares (.delete key)) : ∃ c, b.delete key = some c ∧ c.closed = true := by
  unfold Bucket.delete
  cases hslot : b.slot with
  | none => exact ⟨b, rfl, hclosed⟩
  | some item =>
      by_cases hkey : item.key = key
      · simp only [if_pos hkey]
        cases b.chain with
        | nil => exact ⟨_, if_pos hclosed, hclosed⟩
        | cons next rest => exact ⟨_, rfl, hclosed⟩
      · simp only [if_neg hkey]
        exact Bucket.deleteOverflow_closed hclosed fun first rest hchain =>
          h item first rest hslot hchain hkey

theorem Call.onBucket_closed {call : Call} {b : Bucket} (hclosed : b.closed = true)
    (h : b.Spares call) : ∃ c, call.onBucket b = some c ∧ c.closed = true := by
  cases call with
  | insert key value => exact Bucket.insert_closed hclosed h
  | delete key => exact Bucket.delete_closed hclosed h

/-! ## Runs -/

/-- Every overflow list ends at NULL. -/
def Intact (t : HashTable) (b : Nat → Bucket) : Prop :=
  Sound t b ∧ ∀ i, (b i).closed = true

namespace Intact

variable {t t' : HashTable} {b : Nat → Bucket} {e : Call × Ptr}

theorem createTable : Intact (createTable capacity) fun _ => Bucket.empty :=
  ⟨Sound.createTable, fun _ => rfl⟩

theorem overflowItems_eq (h : Intact t b) (i : Nat) : overflowItems t i = some (b i).chain := by
  rw [h.1.1.overflowItems_eq, if_pos (h.2 i)]

/-- What `malloc` leaves in a new node does not matter. -/
theorem run_eq (h : Intact t b) (hspares : Spares t e) : e.1.run e.2 t = e.1.run none t := by
  obtain ⟨call, garbage⟩ := e
  cases call with
  | delete key => rfl
  | insert key value =>
      have hi := hashFunction_lt key
      obtain ⟨rows, ends, L, -⟩ := h.1.1
      simp only [Call.run, htInsert, L.item_eq hi, Option.bind_eq_bind, Option.bind_some,
        CString.strcmp_eq_zero_iff]
      cases hitem : t.items (hashFunction key) with
      | none => rfl
      | some item =>
          by_cases hkey : item.key = key
          · simp only [if_pos hkey]
          · simp only [if_neg hkey, handleCollision, L.bucket_eq hi, Option.bind_eq_bind,
              Option.bind_some]
            cases hbucket : t.overflowBuckets (hashFunction key) with
            | none =>
                obtain rfl : garbage = none := (hspares item hitem).2 hkey hbucket
                rfl
            | some list => rfl

theorem bucketSpares (h : Intact t b) (hspares : Spares t e) :
    (b (hashFunction e.1.key)).Spares e.1 := by
  obtain ⟨call, garbage⟩ := e
  cases call with
  | insert key value =>
      intro item hslot
      rw [← h.1.1.items_eq] at hslot
      exact (hspares item hslot).1
  | delete key =>
      intro item first rest hslot hchain
      rw [← h.1.1.items_eq] at hslot
      exact hspares item first rest hslot ((h.overflowItems_eq _).trans (congrArg some hchain))

/-- A call under the condition is defined and leaves every list ending at NULL. -/
theorem step (h : Intact t b) (hspares : Spares t e) :
    ∃ t' b', TableSteps t e t' ∧ Intact t' b' := by
  obtain ⟨c, hbucket, hclosed⟩ := Call.onBucket_closed (h.2 _) (h.bucketSpares hspares)
  have htracks := h.1.1.call e.1
  rw [hbucket] at htracks
  obtain ⟨t', hrun, -⟩ := htracks
  obtain ⟨c', hbucket', hsound⟩ := h.1.onBucket hrun
  obtain rfl := Option.some.inj (hbucket.symm.trans hbucket')
  refine ⟨t', _, (h.run_eq hspares).trans hrun, hsound, fun i => ?_⟩
  by_cases hi : i = hashFunction e.1.key
  · rw [hi, Function.update_self]
    exact hclosed
  · rw [Function.update_of_ne hi]
    exact h.2 i

theorem scanComplete (h : Intact t b) : ScanComplete t where
  homed := by
    intro i _
    refine ⟨_, h.overflowItems_eq i, fun item hitem => h.1.2 i item ?_⟩
    rwa [h.1.1.items_eq] at hitem
  bare := by
    obtain ⟨rows, ends, L, -⟩ := h.1.1
    exact fun i _ => L.bare i
  count := by
    obtain ⟨rows, ends, L, -⟩ := h.1.1
    exact L.count
  scan := by
    have hentries : tableEntries t = some ((List.range t.size).flatMap fun i => (b i).items) := by
      rw [tableEntries, h.1.1.entriesBelow_eq, if_pos fun i _ => h.2 i]
    refine ⟨_, ?_, hentries⟩
    rw [h.1.1.size, h.1.1.scan_eq, hentries, h.1.1.size]
  accepts := by
    obtain ⟨rows, ends, L, -⟩ := h.1.1
    exact fun key hfree => ne_of_lt (L.count_lt (hashFunction_lt key) hfree)

/-- Every run under the condition leaves every list ending at NULL. -/
theorem of_runs (hrun : Runs TableSteps Spares (Nbfs2.createTable capacity) t) :
    ∃ b, Intact t b := by
  refine hrun.keeps (P := fun t => ∃ b, Intact t b) ⟨_, createTable⟩ ?_
  rintro t₁ e t₂ ⟨b, h⟩ hspares hstep
  obtain ⟨t', b', hstep', h'⟩ := h.step hspares
  obtain rfl := Option.some.inj (hstep.symm.trans hstep')
  exact ⟨b', h'⟩

end Intact

/-- **The scan invariant.**  In every run whose calls leave their overflow lists ending at NULL,
every table reached has the relation of slots, lists and `count`, and the next such call is
defined. -/
theorem scanComplete_of_runs {t : HashTable}
    (hrun : Runs TableSteps Spares (createTable capacity) t) :
    ScanComplete t ∧ ∀ e, Spares t e → ∃ t', TableSteps t e t' := by
  obtain ⟨b, h⟩ := Intact.of_runs hrun
  refine ⟨h.scanComplete, fun e hspares => ?_⟩
  obtain ⟨t', -, hstep, -⟩ := h.step hspares
  exact ⟨t', hstep⟩

/-- Two keys of one index, the second in a list whose node had NULL in `next`. -/
theorem scanComplete_of_runs_collision : ∃ t,
    runCalls none (createTable capacity) [.insert keyAb textOne, .insert keyBa textOne] = some t ∧
      ScanComplete t := by
  obtain ⟨t, ht⟩ : ∃ t, htInsert none oneEntry keyBa textOne = some t := ⟨_, rfl⟩
  have hfirst : TableSteps (createTable capacity) (.insert keyAb textOne, none) oneEntry := rfl
  have hspares : Spares oneEntry (.insert keyBa textOne, none) := fun item hitem =>
    ⟨fun hkey => by
      have hslot : oneEntry.items (hashFunction keyBa) = some (createItem keyAb textOne) := by
        have hsame : hashFunction keyBa = hashFunction keyAb := by decide
        simp [oneEntry, HashTable.setItem, hsame]
      obtain rfl := Option.some.inj (hslot.symm.trans hitem)
      exact absurd hkey (by decide), fun _ _ => rfl⟩
  have hrun : Runs TableSteps Spares (createTable capacity) t :=
    .tail (.one (e := (.insert keyAb textOne, none)) (by rintro _ ⟨⟩) hfirst)
      hspares ht
  exact ⟨t, ht, (scanComplete_of_runs hrun).1⟩

/-- A run of calls, each of whose new nodes comes from `malloc` with the same `next`. -/
theorem runs_of_calls {garbage : Ptr} {calls : List Call} : ∀ {t t' : HashTable},
    runCalls garbage t calls = some t' → Runs TableSteps (fun _ _ => True) t t' := by
  induction calls with
  | nil =>
      intro t t' hrun
      obtain rfl := Option.some.inj hrun
      exact .refl
  | cons call calls ih =>
      intro t t' hrun
      rw [runCalls, List.foldlM_cons, Option.bind_eq_bind] at hrun
      obtain ⟨t₁, hcall, hrest⟩ := Option.bind_eq_some_iff.mp hrun
      exact (Runs.one (e := (call, garbage)) trivial hcall).trans (ih hrest)

/-- The second of two overflow nodes is deleted; the first still points at it. -/
theorem scanComplete_freed : ¬ ∀ t, Runs TableSteps (fun _ _ => True) (createTable capacity) t →
    ScanComplete t := by
  intro hall
  obtain ⟨t, ht⟩ : ∃ t, runCalls none (createTable capacity)
      [.insert keyAb textOne, .insert keyBa textOne, .insert keyBacktickC textOne,
        .delete keyBacktickC] = some t := ⟨_, rfl⟩
  have hopen : (overflowItems t (hashFunction keyAb)).isNone = true := by
    cases ht
    decide
  have hsize : t.size = capacity := by
    cases ht
    rfl
  obtain ⟨chain, hchain, -⟩ := (hall t (runs_of_calls ht)).homed (hashFunction keyAb)
    (hsize ▸ hashFunction_lt keyAb)
  rw [hchain] at hopen
  cases hopen

end Nbfs.Nbfs2
