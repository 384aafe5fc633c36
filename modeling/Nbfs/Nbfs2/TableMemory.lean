import Nbfs.Nbfs2.InsertDelete

set_option autoImplicit false

/-!
# The memory of the hash table

A table of any size, under any calls with any strings: whether each index is within the two
arrays, and whether each overflow list is a finite list of assigned nodes that ends at NULL.
What `malloc` leaves in the `next` of a new head is not known, and any value may stand for it.
-/

namespace Nbfs.Nbfs2

open Nbfs.Lib

/-- A call of `ht_insert`, `ht_delete` or `ht_search`. -/
inductive TableOp where
  | update (call : Call)
  | search (key : CString)

namespace TableOp

def key : TableOp → CString
  | update call => call.key
  | search key => key

/-- Make the call; `garbage` is what `malloc` leaves in a new overflow node. -/
def run (garbage : Ptr) (t : HashTable) : TableOp → Option HashTable
  | update call => call.run garbage t
  | search key => (htSearch t key).map fun _ => t

/-- The index of the key is within the arrays; and an insertion finds its slot free, or holding
the key in an item with room for the value. -/
def Fits (t : HashTable) : TableOp → Prop
  | update (.insert key value) => hashFunction key < t.size ∧
      ∀ item, t.items (hashFunction key) = some item →
        item.key = key ∧ value.strlen ≤ item.valueLen
  | op => hashFunction op.key < t.size

end TableOp

/-- The calls of a run, each with what `malloc` leaves if it makes a new node. -/
def runOps (t : HashTable) (ops : List (TableOp × Ptr)) : Option HashTable :=
  ops.foldlM (fun t op => op.1.run op.2 t) t

/-- Every overflow list is a finite list of nodes that ends at NULL. -/
def WellShaped (t : HashTable) : Prop :=
  ∀ i < t.size, ∃ xs, Segment t.lists (t.overflowBuckets i) xs none

/-- Whatever `malloc` leaves, the first calls of the run, however many, are defined and leave
the table well shaped. -/
def MemorySafe (size : Nat) (ops : List TableOp) : Prop :=
  ∀ run : List (TableOp × Ptr), run.map Prod.fst <+: ops →
    ∃ t, runOps (createTable size) run = some t ∧ WellShaped t

/-- Each call of a run fits the table that the calls before it made. -/
def EachFits : HashTable → List TableOp → Prop
  | _, [] => True
  | t, op :: ops => op.Fits t ∧ ∀ t', op.run none t = some t' → EachFits t' ops

/-- No overflow node was ever made. -/
structure Listless (t : HashTable) : Prop where
  buckets : ∀ i, t.overflowBuckets i = none
  lists : ∀ a, t.lists a = none

namespace Listless

variable {t t' : HashTable} {op : TableOp} {garbage : Ptr}

theorem createTable (size : Nat) : Listless (createTable size) := ⟨fun _ => rfl, fun _ => rfl⟩

theorem wellShaped (h : Listless t) : WellShaped t := fun i _ => ⟨[], h.buckets i⟩

theorem itemAt {i : Nat} (h : i < t.size) : t.item i = some (t.items i) := if_pos h

theorem bucketAt (hL : Listless t) {i : Nat} (h : i < t.size) : t.bucket i = some none :=
  (if_pos h).trans (congrArg some (hL.buckets i))

/-- An insertion into a free slot, or over the value of the slot's own key, makes no node. -/
theorem insert (hL : Listless t) {key value : CString}
    (h : (TableOp.update (.insert key value)).Fits t) :
    ∃ t', (∀ garbage, htInsert garbage t key value = some t') ∧ Listless t' := by
  obtain ⟨hindex, hslot⟩ := h
  simp only [htInsert, itemAt hindex, Option.bind_eq_bind, Option.bind_some]
  cases hfound : t.items (hashFunction key) with
  | none =>
      by_cases hfull : t.count = (t.size : Int)
      · exact ⟨t, fun _ => if_pos hfull, hL⟩
      · exact ⟨_, fun _ => if_neg hfull, hL.buckets, hL.lists⟩
  | some item =>
      obtain ⟨hkey, hroom⟩ := hslot item hfound
      have hcmp : CString.strcmp item.key key = 0 := CString.strcmp_eq_zero_iff.mpr hkey
      simp only [if_pos hcmp, HtItem.strcpyValue, dif_pos hroom, Option.bind_some]
      exact ⟨_, fun _ => rfl, hL.buckets, hL.lists⟩

theorem delete (hL : Listless t) {key : CString} (h : hashFunction key < t.size) :
    ∃ t', htDelete t key = some t' ∧ Listless t' := by
  simp only [htDelete, itemAt h, hL.bucketAt h, Option.bind_eq_bind, Option.bind_some]
  cases t.items (hashFunction key) with
  | none => exact ⟨t, rfl, hL⟩
  | some item =>
      dsimp only
      split
      · exact ⟨_, rfl, hL.buckets, hL.lists⟩
      · exact ⟨t, rfl, hL⟩

theorem search (hL : Listless t) {key : CString} (h : hashFunction key < t.size) :
    ∃ found, htSearch t key = some found := by
  simp only [htSearch, itemAt h, hL.bucketAt h, Option.bind_eq_bind, Option.bind_some]
  cases t.items (hashFunction key) with
  | none => exact ⟨none, rfl⟩
  | some item =>
      simp only [searchLoop]
      split
      · exact ⟨_, rfl⟩
      · exact ⟨none, rfl⟩

/-- A call that fits makes no node, so nothing that `malloc` leaves matters. -/
theorem step (hL : Listless t) (h : op.Fits t) :
    ∃ t', (∀ garbage, op.run garbage t = some t') ∧ Listless t' := by
  cases op with
  | update call =>
      cases call with
      | insert key value => exact hL.insert h
      | delete key =>
          obtain ⟨t', hrun, hL'⟩ := hL.delete h
          exact ⟨t', fun _ => hrun, hL'⟩
  | search key =>
      obtain ⟨found, hfound⟩ := hL.search h
      have hrun : (htSearch t key).map (fun _ => t) = some t := congrArg _ hfound
      exact ⟨t, fun _ => hrun, hL⟩

/-- Outside the arrays every call reads an item that is not there. -/
theorem outside (h : ¬ hashFunction op.key < t.size) : op.run garbage t = none := by
  have hitem : t.item (hashFunction op.key) = none := if_neg h
  cases op with
  | update call =>
      cases call with
      | insert key value =>
          have hkey : t.item (hashFunction key) = none := hitem
          simp only [TableOp.run, Call.run, htInsert, hkey, Option.bind_eq_bind, Option.bind_none]
      | delete key =>
          have hkey : t.item (hashFunction key) = none := hitem
          simp only [TableOp.run, Call.run, htDelete, hkey, Option.bind_eq_bind, Option.bind_none]
  | search key =>
      have hkey : t.item (hashFunction key) = none := hitem
      simp only [TableOp.run, htSearch, hkey, Option.bind_eq_bind, Option.bind_none,
        Option.map_none]

/-- A first collision makes a node whose `next` is what `malloc` left there. -/
theorem collision (hL : Listless t) {key value : CString} {item : HtItem}
    (hindex : hashFunction key < t.size) (hitem : t.items (hashFunction key) = some item)
    (hkey : item.key ≠ key) (hrun : htInsert (some (t.brk + 1)) t key value = some t') :
    ¬ WellShaped t' := by
  have hcmp : ¬ CString.strcmp item.key key = 0 := mt CString.strcmp_eq_zero_iff.mp hkey
  simp only [htInsert, itemAt hindex, hitem, Option.bind_eq_bind, Option.bind_some, if_neg hcmp,
    handleCollision, hL.bucketAt hindex, HashTable.allocateList, Option.some.injEq] at hrun
  subst hrun
  intro hshape
  obtain ⟨xs, hseg⟩ := hshape (hashFunction key) hindex
  simp only [HashTable.setBucket, Function.update_self] at hseg
  cases xs with
  | nil => cases hseg
  | cons x xs =>
      obtain ⟨hstart, next, hnode, hrest⟩ := hseg
      rw [← Option.some.inj hstart, Function.update_self] at hnode
      obtain ⟨-, rfl⟩ := Link.mk.inj (Option.some.inj hnode)
      cases xs with
      | nil => cases hrest
      | cons y ys =>
          obtain ⟨hy, after, hgone, -⟩ := hrest
          rw [← Option.some.inj hy, Function.update_of_ne (Nat.succ_ne_self _), hL.lists] at hgone
          cases hgone

/-- A call that is safe whatever `malloc` leaves fits. -/
theorem fits (hL : Listless t) (h : ∀ garbage, ∃ t', op.run garbage t = some t' ∧ WellShaped t') :
    op.Fits t := by
  have hindex : hashFunction op.key < t.size := by
    by_contra hout
    obtain ⟨t', hrun, -⟩ := h none
    cases (outside hout).symm.trans hrun
  cases op with
  | search key => exact hindex
  | update call =>
      cases call with
      | delete key => exact hindex
      | insert key value =>
          refine ⟨hindex, fun item hitem => ?_⟩
          have hkey : item.key = key := by
            by_contra hne
            obtain ⟨t', hrun, hshape⟩ := h (some (t.brk + 1))
            exact hL.collision hindex hitem hne hrun hshape
          refine ⟨hkey, ?_⟩
          by_contra hlong
          obtain ⟨t', hrun, -⟩ := h none
          have hcmp : CString.strcmp item.key key = 0 := CString.strcmp_eq_zero_iff.mpr hkey
          have hslot := itemAt (show hashFunction key < t.size from hindex)
          simp only [TableOp.run, Call.run, htInsert, hslot, hitem, Option.bind_eq_bind,
            Option.bind_some, if_pos hcmp, HtItem.strcpyValue, dif_neg hlong,
            Option.bind_none] at hrun
          cases hrun

/-- A run from a table without nodes is safe exactly when each of its calls fits. -/
theorem safe_iff {ops : List TableOp} : ∀ {t : HashTable}, Listless t →
    ((∀ run : List (TableOp × Ptr), run.map Prod.fst <+: ops →
        ∃ t', runOps t run = some t' ∧ WellShaped t') ↔ EachFits t ops) := by
  induction ops with
  | nil =>
      intro t hL
      refine iff_of_true (fun run hrun => ?_) trivial
      obtain rfl := List.map_eq_nil_iff.mp (List.prefix_nil.mp hrun)
      exact ⟨t, rfl, hL.wellShaped⟩
  | cons op ops ih =>
      intro t hL
      constructor
      · intro h
        have hfits : op.Fits t := by
          refine hL.fits fun garbage => ?_
          obtain ⟨t', hrun, hshape⟩ := h [(op, garbage)] (by simp)
          refine ⟨t', ?_, hshape⟩
          simpa [runOps] using hrun
        obtain ⟨t₁, hstep, hL₁⟩ := hL.step hfits
        refine ⟨hfits, fun t' hrun => ?_⟩
        obtain rfl := Option.some.inj ((hstep none).symm.trans hrun)
        refine (ih hL₁).mp fun run hpre => ?_
        obtain ⟨t', hrun', hshape⟩ := h ((op, none) :: run) (by simpa using hpre)
        refine ⟨t', ?_, hshape⟩
        rw [runOps, List.foldlM_cons, hstep none] at hrun'
        exact hrun'
      · rintro ⟨hfits, hrest⟩ run hpre
        obtain ⟨t₁, hstep, hL₁⟩ := hL.step hfits
        cases run with
        | nil => exact ⟨t, rfl, hL.wellShaped⟩
        | cons first run =>
            obtain ⟨hfirst, hpre'⟩ := List.cons_prefix_cons.mp hpre
            subst hfirst
            obtain ⟨t', hrun, hshape⟩ := (ih hL₁).mpr (hrest t₁ (hstep none)) run hpre'
            refine ⟨t', ?_, hshape⟩
            rw [runOps, List.foldlM_cons, hstep first.2]
            exact hrun

end Listless

/-- **The memory of the table.**  A run of calls on a new table of any size is safe exactly when
every key's index is within the arrays and no insertion collides or outgrows the buffer of the
value that it replaces. -/
theorem memorySafe_iff (size : Nat) (ops : List TableOp) :
    MemorySafe size ops ↔ EachFits (createTable size) ops :=
  (Listless.createTable size).safe_iff

/-- The table of the load path with one entry. -/
def oneEntry : HashTable :=
  { (createTable capacity).setItem (hashFunction keyAb) (some (createItem keyAb textOne)) with
    count := 1 }

/-- The second of two keys with one index makes a node whose `next` nobody assigns. -/
theorem memorySafe_collision : ¬ ∀ (size : Nat) (ops : List TableOp), 0 < size →
    MemorySafe size ops := by
  intro hall
  have hsafe := hall capacity [.update (.insert keyAb textOne), .update (.insert keyBa textOne)]
    (by decide)
  obtain ⟨-, hrest⟩ := (Listless.createTable capacity).safe_iff.mp hsafe
  have hfirst : htInsert none (createTable capacity) keyAb textOne = some oneEntry := rfl
  have hsame : hashFunction keyBa = hashFunction keyAb := by decide
  have hitem : oneEntry.items (hashFunction keyBa) = some (createItem keyAb textOne) := by
    simp [oneEntry, HashTable.setItem, hsame]
  have hkey := ((hrest oneEntry hfirst).1.2 _ hitem).1
  exact absurd hkey (by decide)

end Nbfs.Nbfs2
