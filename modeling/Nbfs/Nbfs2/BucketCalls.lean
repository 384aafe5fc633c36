import Nbfs.Nbfs2.Bucket

set_option autoImplicit false

/-!
# The hash table's functions on buckets

Each function of the table does to the bucket of its key what the bucket model
says, is undefined exactly where the model is, and leaves every other bucket as
it is.  Overflow lists are read as the NULL-terminated lists they are meant to
be: the head that `handle_collision` allocates starts with a NULL `next`.
-/

namespace Nbfs.Nbfs2

open Nbfs.Lib

/-! ## Walks along an overflow list -/

section walks

variable {t : HashTable} {e : Ptr}

/-- The loop of `ht_search` scans the items in order. -/
theorem searchLoop_eq (key : CString) : ∀ {xs : List (Addr × HtItem)} {fuel : Nat}
    {item : HtItem} {head : Ptr}, Segment t.lists head xs e → Stops t.lists e → xs.length < fuel →
      searchLoop fuel t key item head =
        Bucket.scan key e.isNone (item :: xs.map Prod.snd)
  | _, 0, _, _, _, _, hfuel => absurd hfuel (Nat.not_lt_zero _)
  | [], fuel + 1, item, head, hseg, hstops, _ => by
      obtain rfl := Segment.nil_iff.mp hseg
      simp only [searchLoop, List.map_nil, Bucket.scan_cons, CString.strcmp_eq_zero_iff]
      split
      · rfl
      · cases head with
        | none => rfl
        | some a => simp [hstops a rfl, Bucket.scan, lookup]
  | (a, next) :: xs, fuel + 1, item, head, hseg, hstops, hfuel => by
      obtain ⟨rfl, p, hnode, hrest⟩ := hseg
      simp only [searchLoop, List.map_cons, Bucket.scan_cons key e.isNone item,
        CString.strcmp_eq_zero_iff]
      split
      · rfl
      · simp only [hnode, Option.bind_eq_bind, Option.bind_some]
        exact searchLoop_eq key hrest hstops (by simpa using hfuel)

/-- The walk of `linkedlist_insert` stops at the node before the last. -/
theorem nextToLast_eq : ∀ {front : List (Addr × HtItem)} {fuel : Nat} {first : Addr}
    {before last : Addr × HtItem}, Segment t.lists (some first) (front ++ [before, last]) none →
      front.length < fuel → nextToLast fuel t first = some before.1
  | front, 0, _, _, _, _, hfuel => absurd hfuel (Nat.not_lt_zero _)
  | [], fuel + 1, first, before, last, hseg, _ => by
      obtain ⟨hfirst, _, hbefore, rfl, _, hlast, hend⟩ := hseg
      obtain rfl := Option.some.inj hfirst
      obtain rfl := Segment.nil_iff.mp hend
      simp [nextToLast, hbefore, hlast]
  | x :: front, fuel + 1, first, before, last, hseg, hfuel => by
      obtain ⟨y, ys, hsplit, hne⟩ : ∃ y ys, front ++ [before, last] = y :: ys ∧ ys ≠ [] := by
        cases front with
        | nil => exact ⟨before, [last], rfl, List.cons_ne_nil _ _⟩
        | cons z zs => exact ⟨z, zs ++ [before, last], rfl, by simp⟩
      rw [List.cons_append] at hseg
      obtain ⟨hfirst, q, hx, hrest⟩ := hseg
      obtain rfl := Option.some.inj hfirst
      obtain ⟨rfl, p, hy, hys⟩ : Segment t.lists q (y :: ys) none := hsplit ▸ hrest
      obtain ⟨a, rfl⟩ := hys.start hne
      simp only [nextToLast, hx, hy, Option.bind_eq_bind, Option.bind_some]
      exact nextToLast_eq hrest (by simpa using hfuel)

/-- On a list that ends at a freed node the walk of `linkedlist_insert` reads it. -/
theorem nextToLast_freed {f : Addr} (hf : t.lists f = none) : ∀ {fuel : Nat} {first : Addr}
    {xs : List (Addr × HtItem)}, Segment t.lists (some first) xs (some f) →
      nextToLast fuel t first = none
  | 0, _, _, _ => rfl
  | fuel + 1, first, [], hseg => by
      obtain rfl := Option.some.inj (Segment.nil_iff.mp hseg)
      simp [nextToLast, hf]
  | fuel + 1, first, [x], hseg => by
      obtain ⟨hfirst, _, hx, rfl⟩ := hseg
      obtain rfl := Option.some.inj hfirst
      simp [nextToLast, hx, hf]
  | fuel + 1, first, x :: y :: ys, hseg => by
      obtain ⟨hfirst, _, hx, hrest⟩ := hseg
      obtain rfl := Option.some.inj hfirst
      obtain ⟨rfl, p, hy, hys⟩ := id hrest
      simp only [nextToLast, hx, hy, Option.bind_eq_bind, Option.bind_some]
      cases p with
      | none =>
          cases ys with
          | nil => exact absurd hys (by simp)
          | cons z zs => exact absurd hys.1 (by simp)
      | some a => exact nextToLast_freed hf hrest

/-- `free_linkedlist` frees the nodes of the list. -/
theorem freeLinkedlist_eq : ∀ {xs : List (Addr × HtItem)} {fuel : Nat} {t : HashTable} {p : Ptr},
    Segment t.lists p xs none → xs.length ≤ fuel →
      freeLinkedlist fuel t p = some (xs.foldl (fun t x => t.freeNode x.1) t)
  | [], fuel, t, p, hseg, _ => by
      obtain rfl := Segment.nil_iff.mp hseg
      simp [freeLinkedlist]
  | x :: xs, 0, _, _, _, hfuel => absurd hfuel (Nat.not_succ_le_zero _)
  | x :: xs, fuel + 1, t, p, hseg, hfuel => by
      have hnodup := hseg.nodup (Stops.null _)
      obtain ⟨rfl, next, hx, hrest⟩ := hseg
      simp only [freeLinkedlist, hx, Option.bind_eq_bind, Option.bind_some, List.foldl_cons]
      refine freeLinkedlist_eq (hrest.frame fun y hy => ?_) (by simpa using hfuel)
      have hne : y.1 ≠ x.1 := by
        rintro heq
        exact (List.nodup_cons.mp hnodup).1 (heq ▸ List.mem_map_of_mem hy)
      exact Function.update_of_ne hne _ _

theorem freeLinkedlist_single {t : HashTable} {a : Addr} {b : HtItem} {fuel : Nat}
    (hnode : t.lists a = some ⟨b, none⟩) (hfuel : 0 < fuel) :
    freeLinkedlist fuel t (some a) = some (t.freeNode a) :=
  @freeLinkedlist_eq [(a, b)] fuel t a ⟨rfl, none, hnode, rfl⟩ hfuel

/-- `free_linkedlist` on a list that ends at a freed node reads it. -/
theorem freeLinkedlist_freed {f : Addr} : ∀ {xs : List (Addr × HtItem)} {fuel : Nat}
    {t : HashTable} {p : Ptr}, Segment t.lists p xs (some f) → t.lists f = none →
      freeLinkedlist fuel t p = none
  | [], fuel, t, p, hseg, hf => by
      obtain rfl := Segment.nil_iff.mp hseg
      cases fuel with
      | zero => rfl
      | succ fuel => simp [freeLinkedlist, hf]
  | x :: xs, 0, t, p, hseg, _ => by
      obtain ⟨rfl, -⟩ := hseg
      rfl
  | x :: xs, fuel + 1, t, p, hseg, hf => by
      have hnodup := hseg.nodup (e := some f) fun a ha => Option.some.inj ha ▸ hf
      obtain ⟨rfl, next, hx, hrest⟩ := hseg
      simp only [freeLinkedlist, hx, Option.bind_eq_bind, Option.bind_some]
      refine freeLinkedlist_freed (hrest.frame fun y hy => ?_) ?_
      · have hne : y.1 ≠ x.1 := by
          rintro heq
          exact (List.nodup_cons.mp hnodup).1 (heq ▸ List.mem_map_of_mem hy)
        exact Function.update_of_ne hne _ _
      · have hne : f ≠ x.1 := fun heq => absurd (heq ▸ hf) (by simp [hx])
        exact (Function.update_of_ne hne _ _).trans hf

/-- The loop of `ht_delete` passes over nodes with other keys; `prev` then equals `curr`. -/
theorem deleteLoop_pass (index : Nat) (key : CString) (head : Addr) (fuel : Nat) :
    ∀ {front : List (Addr × HtItem)} {curr prev m : Ptr}, Segment t.lists curr front m →
      (∀ x ∈ front, x.2.key ≠ key) → front ≠ [] →
      deleteLoop index key head (front.length + fuel) t curr prev =
        deleteLoop index key head fuel t m m
  | [], _, _, _, _, _, hne => absurd rfl hne
  | x :: front, curr, prev, m, hseg, hkeys, _ => by
      obtain ⟨rfl, next, hx, hrest⟩ := hseg
      have hkey := hkeys x List.mem_cons_self
      have hstep : deleteLoop index key head ((x :: front).length + fuel) t (some x.1) prev =
          deleteLoop index key head (front.length + fuel) t next next := by
        rw [List.length_cons, Nat.add_right_comm]
        simp [deleteLoop, hx, CString.strcmp_eq_zero_iff, hkey]
      rw [hstep]
      cases front with
      | nil =>
          obtain rfl := Segment.nil_iff.mp hrest
          simp
      | cons y ys =>
          exact deleteLoop_pass index key head fuel hrest
            (fun z hz => hkeys z (List.mem_cons_of_mem _ hz)) (List.cons_ne_nil _ _)

/-- At the end of the list the loop of `ht_delete` returns, or reads a freed node. -/
theorem deleteLoop_end (hstops : Stops t.lists e) (index : Nat) (key : CString) (head : Addr)
    (fuel : Nat) (prev : Ptr) :
    deleteLoop index key head fuel t e prev = if e.isNone then some t else none := by
  cases e with
  | none => cases fuel <;> rfl
  | some f =>
      cases fuel with
      | zero => rfl
      | succ fuel => simp [deleteLoop, hstops f rfl]

end walks

/-! ## The count of slots in use -/

theorem occupied_congr {t t' : HashTable} (hsize : t'.size = t.size)
    (hitems : ∀ i, (t'.items i).isSome = (t.items i).isSome) : occupied t' = occupied t := by
  unfold occupied
  rw [hsize]
  simp only [hitems]

theorem occupied_fill {t : HashTable} {i : Nat} (hi : i < t.size) (hitem : t.items i = none)
    (item : HtItem) : occupied (t.setItem i (some item)) = occupied t + 1 := by
  have hnew : (Finset.range t.size).filter (fun j => ((t.setItem i (some item)).items j).isSome) =
      insert i ((Finset.range t.size).filter fun j => (t.items j).isSome) := by
    ext j
    rw [Finset.mem_filter, Finset.mem_insert, Finset.mem_filter]
    by_cases hj : j = i
    · subst hj
      simp [HashTable.setItem, hi]
    · simp [HashTable.setItem, hj]
  unfold occupied
  rw [show (t.setItem i (some item)).size = t.size from rfl, hnew,
    Finset.card_insert_of_notMem (by simp [hitem])]

theorem occupied_replace {t : HashTable} {i : Nat} {item : HtItem} (hitem : t.items i = some item)
    (item' : HtItem) : occupied (t.setItem i (some item')) = occupied t := by
  refine occupied_congr rfl fun j => ?_
  by_cases hj : j = i
  · subst hj
    simp [HashTable.setItem, hitem]
  · simp [HashTable.setItem, Function.update_of_ne hj]

theorem occupied_clear {t : HashTable} {i : Nat} {item : HtItem} (hi : i < t.size)
    (hitem : t.items i = some item) : occupied t = occupied (t.setItem i none) + 1 := by
  rw [← occupied_fill (t := t.setItem i none) hi (by simp [HashTable.setItem]) item]
  refine occupied_congr rfl fun j => ?_
  by_cases hj : j = i
  · subst hj
    simp [HashTable.setItem, hitem]
  · simp [HashTable.setItem, Function.update_of_ne hj]

/-! ## The calls -/

theorem live_update {α : Type} {lists : Addr → Option α} {a b : Addr} {x : Option α}
    (h : Function.update lists b x a ≠ none) : a = b ∨ lists a ≠ none := by
  by_cases hab : a = b
  · exact Or.inl hab
  · rw [Function.update_of_ne hab] at h
    exact Or.inr h

/-- The call ended with the bucket `i` as given and the others unchanged, or is
undefined with it. -/
def Tracks (b : Nat → Bucket) (i : Nat) (r : Option HashTable) : Option Bucket → Prop
  | none => r = none
  | some b' => ∃ t', r = some t' ∧ Holds t' (Function.update b i b')

namespace Layout

variable {t : HashTable} {rows : Nat → List (Addr × HtItem)} {ends : Nat → Ptr} {i : Nat}

theorem item_eq (L : Layout t rows ends) (hi : i < capacity) : t.item i = some (t.items i) :=
  if_pos (L.size ▸ hi)

theorem bucket_eq (L : Layout t rows ends) (hi : i < capacity) :
    t.bucket i = some (t.overflowBuckets i) :=
  if_pos (L.size ▸ hi)

theorem holds_update (L : Layout t rows ends) (i : Nat) :
    Holds t (Function.update (bucketsOf t rows ends) i (bucketsOf t rows ends i)) := by
  rw [Function.update_eq_self]
  exact L.holds

/-- Put another item into a slot. -/
theorem setItem (L : Layout t rows ends) {item : Option HtItem} {count : Int}
    (hbare : item = none → t.overflowBuckets i = none)
    (hcount : count = occupied (t.setItem i item)) :
    Holds { t.setItem i item with count := count }
      (Function.update (bucketsOf t rows ends) i
        { bucketsOf t rows ends i with slot := item }) := by
  have hchange := L.change i { t.setItem i item with count := count }
    (rows i) (ends i) rfl (fun j hj => Function.update_of_ne hj _ _)
    (fun _ _ => rfl) (fun _ _ _ => rfl) (le_refl _) L.live (L.segment i) (L.stops i) (L.spent i)
    (fun x hx => Or.inl ⟨x, hx, rfl⟩) (by simpa [HashTable.setItem] using hbare) hcount
  simpa [HashTable.setItem, bucketsOf] using hchange

/-- Add a node with the item to the bucket: its list is now `row`. -/
theorem addNode (L : Layout t rows ends) (i : Nat) (t' : HashTable) (item : HtItem)
    (front : List (Addr × HtItem)) (hfront : ∀ x ∈ front, x ∈ rows i)
    (hitem : t.items i ≠ none) (hsize : t'.size = t.size) (hcount : t'.count = t.count)
    (hitems : t'.items = t.items) (hbrk : t'.brk = t.brk + 1)
    (hbuckets : ∀ j, j ≠ i → t'.overflowBuckets j = t.overflowBuckets j)
    (hframe : ∀ a, (∀ x ∈ rows i, x.1 ≠ a) → a < t.brk → t'.lists a = t.lists a)
    (hlive : ∀ a, t'.lists a ≠ none → a = t.brk ∨ t.lists a ≠ none)
    (hsegment : Segment t'.lists (t'.overflowBuckets i) (front ++ [(t.brk, item)]) none) :
    Holds t' (Function.update (bucketsOf t rows ends) i
      ⟨t.items i, front.map Prod.snd ++ [item], true⟩) := by
  have hcount' : t'.count = occupied t' := by
    rw [hcount, L.count, occupied_congr hsize fun j => by rw [hitems]]
  have hchange := L.change i t' (front ++ [(t.brk, item)]) none hsize
    (fun j _ => by rw [hitems]) hbuckets hframe (hbrk ▸ Nat.le_succ _) ?_ hsegment (Stops.null _)
    (fun a ha => nomatch ha) ?_ (fun hnone => absurd (hitems ▸ hnone) hitem) hcount'
  · simpa [hitems] using hchange
  · intro a ha
    rw [hbrk]
    rcases hlive a ha with rfl | hold
    · exact Nat.lt_succ_self _
    · exact Nat.lt_succ_of_lt (L.live a hold)
  · intro x hx
    rcases List.mem_append.mp hx with hx | hx
    · exact Or.inl ⟨x, hfront x hx, rfl⟩
    · rw [List.mem_singleton.mp hx]
      exact Or.inr (le_refl _)

/-- `ht_search` reads the bucket of its key. -/
theorem search (L : Layout t rows ends) (key : CString) :
    htSearch t key = (bucketsOf t rows ends (hashFunction key)).search key := by
  have hi := hashFunction_lt key
  simp only [htSearch, L.item_eq hi, L.bucket_eq hi, Option.bind_eq_bind, Option.bind_some]
  unfold Bucket.search bucketsOf
  cases hitem : t.items (hashFunction key) with
  | none => rfl
  | some item =>
      exact searchLoop_eq key (L.segment _) (L.stops _) (Nat.lt_succ_of_le (L.length_le _))

/-- On a list that ends at a freed node `handle_collision` is undefined. -/
theorem collide_freed (L : Layout t rows ends) (hi : i < capacity) {f : Addr}
    (hends : ends i = some f) (item : HtItem) : handleCollision none t i item = none := by
  have hf := L.stops i f hends
  have hseg := L.segment i
  rw [hends] at hseg
  simp only [handleCollision, L.bucket_eq hi, Option.bind_eq_bind, Option.bind_some]
  cases hrow : rows i with
  | nil =>
      rw [hrow] at hseg
      rw [Segment.nil_iff.mp hseg]
      simp [linkedlistInsert, hf]
  | cons x xs =>
      rw [hrow] at hseg
      obtain ⟨hx, next, hnode, hrest⟩ := id hseg
      rw [hx] at hseg ⊢
      cases next with
      | none =>
          cases xs with
          | nil => exact absurd hrest (by simp)
          | cons y ys => exact absurd hrest.1 (by simp)
      | some a =>
          simp [linkedlistInsert, hnode, nextToLast_freed hf hseg]

/-- On a list that ends at NULL `handle_collision` adds the item behind those
`linkedlist_insert` keeps. -/
theorem collide (L : Layout t rows ends) (hi : i < capacity) (hends : ends i = none)
    (hitem : t.items i ≠ none) (item : HtItem) :
    ∃ t', handleCollision none t i item = some t' ∧
      Holds t' (Function.update (bucketsOf t rows ends) i
        ⟨t.items i, kept ((rows i).map Prod.snd) ++ [item], true⟩) := by
  have hseg := L.segment i
  rw [hends] at hseg
  simp only [handleCollision, L.bucket_eq hi, Option.bind_eq_bind, Option.bind_some]
  rcases short_or_two (rows i) with hrow | ⟨x, hrow⟩ | ⟨front, before, last, hrow⟩
  · rw [hrow] at hseg ⊢
    rw [Segment.nil_iff.mp hseg]
    refine ⟨_, rfl, ?_⟩
    refine L.addNode i _ item [] (by simp) hitem rfl rfl rfl rfl
      (fun j hj => Function.update_of_ne hj _ _)
      (fun a _ ha => Function.update_of_ne (Nat.ne_of_lt ha) _ _) (fun a => live_update) ?_
    exact ⟨Function.update_self .., none, Function.update_self .., rfl⟩
  · have hx : x.1 < t.brk := L.row_lt (hrow ▸ List.mem_singleton_self x)
    rw [hrow] at hseg ⊢
    obtain ⟨hfirst, _, hnode, rfl⟩ := hseg
    rw [hfirst]
    simp only [linkedlistInsert, hnode, Option.bind_eq_bind, Option.bind_some,
      HashTable.allocateList, HashTable.setNext, Function.update_of_ne (Nat.ne_of_lt hx),
      Option.map_some]
    refine ⟨_, rfl, ?_⟩
    refine L.addNode i _ item [x] (by simp [hrow]) hitem rfl rfl rfl rfl
      (fun j hj => Function.update_of_ne hj _ _) (fun a hrows ha => ?_) (fun a ha => ?_) ?_
    · have hax : a ≠ x.1 := (hrows x (by simp [hrow])).symm
      exact (Function.update_of_ne hax _ _).trans (Function.update_of_ne (Nat.ne_of_lt ha) _ _)
    · rcases live_update ha with rfl | hold
      · exact Or.inr (by simp [hnode])
      · exact live_update hold
    · refine ⟨Function.update_self .., some t.brk, Function.update_self .., rfl, none, ?_, rfl⟩
      exact (Function.update_of_ne (Nat.ne_of_gt hx) _ _).trans (Function.update_self ..)
  · have hmem : ∀ x ∈ front ++ [before], x ∈ rows i := by
      intro x hx
      rw [hrow]
      rcases List.mem_append.mp hx with hx | hx
      · exact List.mem_append_left _ hx
      · rw [List.mem_singleton.mp hx]
        simp
    have hlast : last ∈ rows i := by simp [hrow]
    have hbefore : before ∈ rows i := hmem before (by simp)
    have hlt := L.row_lt hbefore
    have hnodup := L.nodup i
    rw [hrow] at hseg
    have hlength : front.length < t.brk := by
      have hle := L.length_le i
      rw [hrow] at hle
      simp only [List.length_append, List.length_cons, List.length_nil] at hle
      omega
    obtain ⟨first, hfirst⟩ := hseg.start (by simp)
    rw [hfirst] at hseg ⊢
    obtain ⟨m, hsegFront, rfl, _, hnodeBefore, rfl, _, hnodeLast, rfl⟩ :=
      Segment.append_iff.mp hseg
    obtain ⟨second, hsecond⟩ : ∃ second, (t.lists first).map Link.next = some (some second) := by
      cases front with
      | nil =>
          obtain rfl := Option.some.inj (Segment.nil_iff.mp hsegFront)
          exact ⟨last.1, by rw [hnodeBefore]; rfl⟩
      | cons x front =>
          obtain ⟨hx, next, hnode, hrest⟩ := hsegFront
          obtain rfl := Option.some.inj hx
          cases front with
          | nil =>
              obtain rfl := Segment.nil_iff.mp hrest
              exact ⟨before.1, by rw [hnode]; rfl⟩
          | cons y front => exact ⟨y.1, by rw [hnode, hrest.1]; rfl⟩
    obtain ⟨node, hnode, hnext⟩ := Option.map_eq_some_iff.mp hsecond
    rw [hrow, List.map_append, List.map_cons, List.map_cons, List.map_nil, kept_append]
    simp only [linkedlistInsert, hnode, hnext, Option.bind_eq_bind, Option.bind_some,
      nextToLast_eq hseg hlength, HashTable.allocateList, HashTable.setNext,
      Function.update_of_ne (Nat.ne_of_lt hlt), hnodeBefore, Option.map_some]
    refine ⟨_, rfl, ?_⟩
    have hresult := L.addNode i
      (HashTable.setBucket
        { t with
          lists := Function.update (Function.update t.lists t.brk (some ⟨item, none⟩)) before.1
            (some ⟨before.2, some t.brk⟩)
          brk := t.brk + 1 } i (some first)) item (front ++ [before]) hmem hitem rfl rfl rfl rfl
      (fun j hj => Function.update_of_ne hj _ _) (fun a hrows ha => ?_) (fun a ha => ?_) ?_
    · simpa using hresult
    · exact (Function.update_of_ne (hrows before hbefore).symm _ _).trans
        (Function.update_of_ne (Nat.ne_of_lt ha) _ _)
    · rcases live_update ha with rfl | hold
      · exact Or.inr (by simp [hnodeBefore])
      · exact live_update hold
    · have hfrontBefore : Segment t.lists (some first) (front ++ [before]) (some last.1) :=
        Segment.append_iff.mpr ⟨_, hsegFront, rfl, _, hnodeBefore, rfl⟩
      rw [hrow, List.map_append] at hnodup
      have hmoved := hfrontBefore.redirect (some t.brk)
        (Function.update (Function.update t.lists t.brk (some ⟨item, none⟩)) before.1
          (some ⟨before.2, some t.brk⟩)) (fun x hx => ?_) (Function.update_self ..)
      · refine Segment.append_iff.mpr ⟨some t.brk, ?_, rfl, none, ?_, rfl⟩
        · simpa [HashTable.setBucket] using hmoved
        · exact (Function.update_of_ne (Nat.ne_of_gt hlt) _ _).trans (Function.update_self ..)
      · have hxlt := L.row_lt (hmem x (List.mem_append_left _ hx))
        have hxbefore : x.1 ≠ before.1 := fun heq =>
          (List.disjoint_of_nodup_append hnodup) (List.mem_map_of_mem hx) (by simp [heq])
        exact (Function.update_of_ne hxbefore _ _).trans
          (Function.update_of_ne (Nat.ne_of_lt hxlt) _ _)

/-- `ht_insert` does to the bucket of its key what the bucket model says. -/
theorem insert (L : Layout t rows ends) (key value : CString) :
    Tracks (bucketsOf t rows ends) (hashFunction key) (htInsert none t key value)
      ((bucketsOf t rows ends (hashFunction key)).insert key value) := by
  have hi := hashFunction_lt key
  simp only [htInsert, L.item_eq hi, Option.bind_eq_bind, Option.bind_some,
    CString.strcmp_eq_zero_iff]
  unfold Bucket.insert
  simp only [bucketsOf]
  cases hitem : t.items (hashFunction key) with
  | none =>
      have hroom := L.count_lt hi hitem
      have hcount : t.count + 1 = occupied (t.setItem (hashFunction key)
          (some (createItem key value))) := by
        rw [occupied_fill (L.size ▸ hi) hitem, L.count]
        rfl
      refine ⟨_, if_neg (ne_of_lt hroom), ?_⟩
      exact L.setItem (fun hnone => nomatch hnone) hcount
  | some item =>
      have hsome : t.items (hashFunction key) ≠ none := by simp [hitem]
      simp only
      split
      · cases hcopy : item.strcpyValue value with
        | none => rfl
        | some item' =>
            refine ⟨_, rfl, ?_⟩
            refine L.setItem (fun hnone => nomatch hnone) ?_
            rw [L.count, occupied_replace hitem]
      · rcases Option.eq_none_or_eq_some (ends (hashFunction key)) with hends | ⟨f, hends⟩
        · have hresult := L.collide hi hends hsome (createItem key value)
          rw [hitem] at hresult
          simpa [hends, Tracks] using hresult
        · have hresult := L.collide_freed hi hends (createItem key value)
          simpa [hends, Tracks] using hresult

/-- Free nodes of the bucket: the nodes in `row` stay, and its list ends at `e`. -/
theorem freeNodes (L : Layout t rows ends) (i : Nat) (t' : HashTable)
    (row : List (Addr × HtItem)) (e : Ptr)
    (hrow : ∀ x ∈ row, x ∈ rows i) (hitem : t'.items i ≠ none) (hsize : t'.size = t.size)
    (hcount : t'.count = occupied t') (hitems : ∀ j, j ≠ i → t'.items j = t.items j)
    (hbrk : t'.brk = t.brk) (hbuckets : ∀ j, j ≠ i → t'.overflowBuckets j = t.overflowBuckets j)
    (hframe : ∀ a, (∀ x ∈ rows i, x.1 ≠ a) → t'.lists a = t.lists a)
    (hlive : ∀ a, t'.lists a ≠ none → t.lists a ≠ none)
    (hsegment : Segment t'.lists (t'.overflowBuckets i) row e) (hstops : Stops t'.lists e)
    (hspent : ∀ a, e = some a → a < t.brk) :
    Holds t' (Function.update (bucketsOf t rows ends) i
      ⟨t'.items i, row.map Prod.snd, e.isNone⟩) :=
  L.change i t' row e hsize hitems hbuckets (fun a hrows _ => hframe a hrows) (le_of_eq hbrk.symm)
    (fun a ha => hbrk ▸ L.live a (hlive a ha)) hsegment hstops (fun a ha => hbrk ▸ hspent a ha)
    (fun x hx => Or.inl ⟨x, hrow x hx, rfl⟩) (fun hnone => absurd hnone hitem) hcount

/-- The head of the overflow list takes the place of the slot's item. -/
theorem promote (L : Layout t rows ends) {item : HtItem} {x : Addr × HtItem}
    {xs : List (Addr × HtItem)} (hitem : t.items i = some item) (hrow : rows i = x :: xs) :
    ∃ t', promoteHead t i x.1 = some t' ∧ Holds t' (Function.update (bucketsOf t rows ends) i
      ⟨some (createItem x.2.key x.2.value), xs.map Prod.snd, (ends i).isNone⟩) := by
  have hlt : x.1 < t.brk := L.row_lt (i := i) (by simp [hrow])
  have hseg := L.segment i
  have hnodup := L.nodup i
  rw [hrow] at hseg hnodup
  obtain ⟨-, next, hnode, hrest⟩ := hseg
  have hpos : 0 < t.brk := Nat.zero_lt_of_lt hlt
  simp only [promoteHead, hnode, HashTable.setNext, Option.bind_eq_bind, Option.bind_some,
    Option.map_some]
  rw [freeLinkedlist_single (b := x.2)]
  rotate_left
  · exact Function.update_self ..
  · exact hpos
  refine ⟨_, rfl, ?_⟩
  have hgone : ∀ {a : Addr} {next' : Ptr}, a ≠ x.1 →
      Function.update (Function.update t.lists x.1 (some ⟨x.2, next'⟩)) x.1 none a =
        t.lists a := fun hne => (Function.update_of_ne hne _ _).trans
          (Function.update_of_ne hne _ _)
  have hresult := L.freeNodes i
    (HashTable.setBucket
      (HashTable.freeNode
        (HashTable.setItem
          { t with lists := Function.update t.lists x.1 (some ⟨x.2, none⟩) } i
          (some (createItem x.2.key x.2.value))) x.1) i next) xs (ends i)
    (fun y hy => by simp [hrow, hy]) (by simp [HashTable.setBucket, HashTable.freeNode,
      HashTable.setItem]) rfl (L.count.trans (congrArg Nat.cast (occupied_replace hitem _).symm))
    (fun j hj => Function.update_of_ne hj _ _) rfl (fun j hj => Function.update_of_ne hj _ _)
    (fun a ha => hgone (ha x (by simp [hrow])).symm) (fun a ha => ?_) ?_ (fun a ha => ?_)
    (L.spent i)
  · simpa [HashTable.setBucket, HashTable.freeNode, HashTable.setItem] using hresult
  · rcases live_update ha with rfl | hold
    · simp [hnode]
    · rcases live_update hold with rfl | hold
      · simp [hnode]
      · exact hold
  · have hxs : Segment (Function.update (Function.update t.lists x.1 (some ⟨x.2, none⟩)) x.1 none)
        next xs (ends i) := hrest.frame fun y hy => hgone fun heq =>
      (List.nodup_cons.mp hnodup).1 (heq ▸ List.mem_map_of_mem hy)
    simpa [HashTable.setBucket, HashTable.freeNode, HashTable.setItem] using hxs
  · have hgoneEnd := L.stops i a ha
    by_cases hax : a = x.1
    · rw [hax]
      exact Function.update_self ..
    · exact (hgone hax).trans hgoneEnd

/-- A node behind the first is freed; the list then ends at it. -/
theorem splice (L : Layout t rows ends) (hitem : t.items i ≠ none) {head : Addr}
    {x : Addr × HtItem} {front back : List (Addr × HtItem)} (hrow : rows i = front ++ x :: back)
    (hhead : t.overflowBuckets i = some head) :
    ∃ t', spliceOut t i head x.1 x.1 = some t' ∧
      Holds t' (Function.update (bucketsOf t rows ends) i
        ⟨t.items i, front.map Prod.snd, false⟩) := by
  have hlt : x.1 < t.brk := L.row_lt (i := i) (by simp [hrow])
  have hpos : 0 < t.brk := Nat.zero_lt_of_lt hlt
  have hseg := L.segment i
  have hnodup := L.nodup i
  rw [hrow] at hseg hnodup
  obtain ⟨m, hfront, rfl, next, hnode, -⟩ := Segment.append_iff.mp hseg
  simp only [spliceOut, hnode, HashTable.setNext, Function.update_self, Option.bind_eq_bind,
    Option.bind_some, Option.map_some, Function.update_idem]
  rw [freeLinkedlist_single (b := x.2)]
  rotate_left
  · exact Function.update_self ..
  · exact hpos
  refine ⟨_, rfl, ?_⟩
  have hgone : ∀ {a : Addr}, a ≠ x.1 →
      Function.update (Function.update t.lists x.1 (some ⟨x.2, none⟩)) x.1 none a =
        t.lists a := fun hne => (Function.update_of_ne hne _ _).trans
          (Function.update_of_ne hne _ _)
  have hresult := L.freeNodes i
    (HashTable.setBucket
      (HashTable.freeNode
        { t with lists := Function.update t.lists x.1 (some ⟨x.2, none⟩) } x.1) i (some head))
    front (some x.1) (fun y hy => by simp [hrow, hy]) hitem rfl L.count (fun _ _ => rfl) rfl
    (fun j hj => Function.update_of_ne hj _ _)
    (fun a ha => hgone (ha x (by simp [hrow])).symm) (fun a ha => ?_) ?_ (fun a ha => ?_)
    (fun a ha => Option.some.inj ha ▸ hlt)
  · exact hresult
  · rcases live_update ha with rfl | hold
    · simp [hnode]
    · rcases live_update hold with rfl | hold
      · simp [hnode]
      · exact hold
  · have hkept : Segment (Function.update (Function.update t.lists x.1 (some ⟨x.2, none⟩)) x.1 none)
        (t.overflowBuckets i) front (some x.1) := hfront.frame fun y hy => hgone fun heq => by
      rw [List.map_append] at hnodup
      exact (List.disjoint_of_nodup_append hnodup) (List.mem_map_of_mem hy) (by simp [heq])
    simpa [HashTable.setBucket, HashTable.freeNode, hhead] using hkept
  · obtain rfl := Option.some.inj ha
    exact Function.update_self ..

/-- Freeing nodes one after the other. -/
theorem foldl_freeNode_lists (xs : List (Addr × HtItem)) : ∀ (t : HashTable) (a : Addr),
    (xs.foldl (fun t x => t.freeNode x.1) t).lists a =
      if a ∈ xs.map Prod.fst then none else t.lists a := by
  induction xs with
  | nil => simp
  | cons x xs ih =>
      intro t a
      rw [List.foldl_cons, ih]
      by_cases hax : a = x.1
      · simp [hax, HashTable.freeNode]
      · simp only [HashTable.freeNode, Function.update_of_ne hax, List.map_cons, List.mem_cons, hax,
          false_or]

theorem foldl_freeNode (xs : List (Addr × HtItem)) (t : HashTable) :
    xs.foldl (fun t x => t.freeNode x.1) t =
      { t with lists := fun a => if a ∈ xs.map Prod.fst then none else t.lists a } := by
  have hfields : ∀ t : HashTable, xs.foldl (fun t x => t.freeNode x.1) t =
      { t with lists := (xs.foldl (fun t x => t.freeNode x.1) t).lists } := by
    induction xs with
    | nil => exact fun _ => rfl
    | cons x xs ih => exact fun t => ih (t.freeNode x.1)
  rw [hfields]
  congr 1
  funext a
  exact foldl_freeNode_lists xs t a

/-- With the first node of an intact list the whole list goes. -/
theorem dropAll (L : Layout t rows ends) (hitem : t.items i ≠ none) (hends : ends i = none) :
    ∃ t', ((freeLinkedlist t.brk t (t.overflowBuckets i)).bind fun t =>
        some (t.setBucket i none)) = some t' ∧
      Holds t' (Function.update (bucketsOf t rows ends) i ⟨t.items i, [], true⟩) := by
  have hseg := L.segment i
  rw [hends] at hseg
  rw [freeLinkedlist_eq hseg (L.length_le i), foldl_freeNode]
  refine ⟨_, rfl, ?_⟩
  refine L.freeNodes i _ [] none (fun y hy => absurd hy List.not_mem_nil)
    hitem rfl L.count (fun _ _ => rfl) rfl (fun j hj => Function.update_of_ne hj _ _)
    (fun a ha => if_neg ?_) (fun a ha => ?_) (Function.update_self ..) (Stops.null _)
    (fun a ha => nomatch ha)
  · intro hmem
    obtain ⟨y, hy, rfl⟩ := List.mem_map.mp hmem
    exact ha y hy rfl
  · intro hnone
    simp [HashTable.setBucket, hnone] at ha

/-- The walk of `ht_delete` along an overflow list. -/
theorem deleteOverflow (L : Layout t rows ends) (key : CString) (hitem : t.items i ≠ none)
    {list : Addr} (hlist : t.overflowBuckets i = some list) :
    Tracks (bucketsOf t rows ends) i (deleteLoop i key list t.brk t (some list) none)
      ((bucketsOf t rows ends i).deleteOverflow key) := by
  have hseg := L.segment i
  rw [hlist] at hseg
  have hlength := L.length_le i
  rcases split_at_key key ((rows i).map Prod.snd) with habsent | ⟨front, item, back, hsplit, hfront,
    hkey⟩
  · rw [Bucket.deleteOverflow_absent habsent]
    have hkeys : ∀ x ∈ rows i, x.2.key ≠ key := fun x hx => habsent x.2 (List.mem_map_of_mem hx)
    have hloop : deleteLoop i key list t.brk t (some list) none =
        if (ends i).isNone then some t else none := by
      by_cases hrows : rows i = []
      · rw [hrows] at hseg
        rw [Segment.nil_iff.mp hseg]
        exact deleteLoop_end (L.stops i) ..
      · obtain ⟨fuel, hfuel⟩ := Nat.exists_eq_add_of_le hlength
        rw [hfuel, deleteLoop_pass i key list fuel hseg hkeys hrows]
        exact deleteLoop_end (L.stops i) ..
    rw [hloop]
    by_cases hclosed : (ends i).isNone
    · simpa [bucketsOf, hclosed, Tracks] using L.holds_update i
    · simp [bucketsOf, hclosed, Tracks]
  · obtain ⟨frontRow, rest, hrows, rfl, hrest⟩ := List.map_eq_append_iff.mp hsplit
    obtain ⟨x, backRow, rfl, rfl, rfl⟩ := List.map_eq_cons_iff.mp hrest
    rw [hrows] at hseg hlength
    obtain ⟨m, hsegFront, rfl, next, hnode, hback⟩ := Segment.append_iff.mp hseg
    cases frontRow with
    | nil =>
        obtain hx := Option.some.inj (Segment.nil_iff.mp hsegFront)
        have hpos : 0 < t.brk := lt_of_lt_of_le (by simp) hlength
        obtain ⟨fuel, hfuel⟩ := Nat.exists_eq_succ_of_ne_zero (Nat.ne_of_gt hpos)
        have hloop : deleteLoop i key list t.brk t (some list) none =
            (freeLinkedlist t.brk t (t.overflowBuckets i)).bind fun t =>
              some (t.setBucket i none) := by
          rw [hlist, hx]
          conv_lhs => rw [hfuel]
          simp only [deleteLoop, hnode, Option.bind_eq_bind, Option.bind_some,
            CString.strcmp_eq_zero_iff, hkey, if_true]
        rw [Bucket.deleteOverflow_first (b := bucketsOf t rows ends i) hsplit hkey, hloop]
        simp only [bucketsOf]
        rcases Option.eq_none_or_eq_some (ends i) with hends | ⟨f, hends⟩
        · simpa [hends, Tracks] using L.dropAll hitem hends
        · have hsegment := L.segment i
          rw [hends] at hsegment
          simp [hends, Tracks, freeLinkedlist_freed hsegment (L.stops i f hends)]
    | cons y ys =>
        rw [Bucket.deleteOverflow_later (b := bucketsOf t rows ends i) hsplit (by simp) hfront hkey]
        have hkeys : ∀ z ∈ y :: ys, z.2.key ≠ key := fun z hz =>
          hfront z.2 (List.mem_map_of_mem hz)
        obtain ⟨fuel, hfuel⟩ := Nat.exists_eq_add_of_le hlength
        have hbrk : t.brk = (y :: ys).length + (backRow.length + fuel + 1) := by
          rw [hfuel, List.length_append, List.length_cons (a := x)]
          omega
        rw [hbrk, deleteLoop_pass i key list _ hsegFront hkeys (List.cons_ne_nil _ _)]
        simp only [deleteLoop, hnode, Option.bind_eq_bind, Option.bind_some,
          CString.strcmp_eq_zero_iff, hkey, if_true]
        exact L.splice hitem hrows hlist

/-- `ht_delete` does to the bucket of its key what the bucket model says. -/
theorem delete (L : Layout t rows ends) (key : CString) :
    Tracks (bucketsOf t rows ends) (hashFunction key) (htDelete t key)
      ((bucketsOf t rows ends (hashFunction key)).delete key) := by
  have hi := hashFunction_lt key
  simp only [htDelete, L.item_eq hi, L.bucket_eq hi, Option.bind_eq_bind, Option.bind_some,
    CString.strcmp_eq_zero_iff]
  have hseg := L.segment (hashFunction key)
  unfold Bucket.delete
  cases hitem : t.items (hashFunction key) with
  | none =>
      simp only [bucketsOf, hitem]
      exact ⟨t, rfl, by simpa [bucketsOf, hitem] using L.holds_update (hashFunction key)⟩
  | some item =>
      have hsome : t.items (hashFunction key) ≠ none := by simp [hitem]
      cases hlist : t.overflowBuckets (hashFunction key) with
      | none =>
          rw [hlist] at hseg
          obtain ⟨hrow, hends⟩ := hseg.null
          by_cases hkey : item.key = key
          · simp only [bucketsOf, hitem, hkey, if_true, hrow, hends]
            refine ⟨_, rfl, ?_⟩
            have hcount : t.count - 1 = occupied (t.setItem (hashFunction key) none) := by
              rw [L.count, occupied_clear (L.size ▸ hi) hitem]
              omega
            simpa [bucketsOf, hrow, hends] using L.setItem (fun _ => hlist) hcount
          · simp only [bucketsOf, hitem, hkey, if_false]
            rw [Bucket.deleteOverflow_absent (by simp [hrow])]
            simpa [bucketsOf, hitem, hends, Tracks] using L.holds_update (hashFunction key)
      | some list =>
          by_cases hkey : item.key = key
          · simp only [bucketsOf, hitem, hkey, if_true]
            rw [hlist] at hseg
            cases hrow : rows (hashFunction key) with
            | nil =>
                rw [hrow] at hseg
                have hends := Segment.nil_iff.mp hseg
                have hgone := L.stops _ list hends.symm
                simp [promoteHead, hgone, ← hends, Tracks]
            | cons x xs =>
                rw [hrow] at hseg
                obtain rfl := Option.some.inj hseg.1
                exact L.promote hitem hrow
          · simp only [bucketsOf, hitem, hkey, if_false]
            have hoverflow := L.deleteOverflow key hsome hlist
            rwa [bucketsOf, hitem] at hoverflow

end Layout

end Nbfs.Nbfs2
