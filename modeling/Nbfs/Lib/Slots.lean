import Mathlib.Data.List.Induction

set_option autoImplicit false

/-!
# Loops over fixed arrays

A C array whose first cells are in use and whose other cells hold anything is a
list split at the end of the used part.  The loops here move cells one by one,
as `for` loops do, and refuse an index outside the array; each comes with the
list it leaves when it starts from such a split.
-/

namespace Nbfs.Lib.Slots

variable {α : Type}

/-- `a[i] = v`, refused outside the array. -/
def store (a : List α) (i : Nat) (v : α) : Option (List α) :=
  if i < a.length then some (a.set i v) else none

/-- `for (; count > 0; i++, count--) a[i] = a[i + 1];` -/
def shiftDown (a : List α) (i : Nat) : Nat → Option (List α)
  | 0 => some a
  | count + 1 => do
      let v ← a[i + 1]?
      let a ← store a i v
      shiftDown a (i + 1) count

/-- `for (i = lo + count; i > lo; i--) a[i] = a[i - 1];` -/
def shiftUp (a : List α) (lo : Nat) : Nat → Option (List α)
  | 0 => some a
  | count + 1 => do
      let v ← a[lo + count]?
      let a ← store a (lo + count + 1) v
      shiftUp a lo count

/-- `for (; count > 0; si++, di++, count--) dst[di] = src[si];` -/
def copyRange (src : List α) (si : Nat) (dst : List α) (di : Nat) : Nat → Option (List α)
  | 0 => some dst
  | count + 1 => do
      let v ← src[si]?
      let dst ← store dst di v
      copyRange src (si + 1) dst (di + 1) count

/-- `for (i = 0; i < n; i++) temp[i] = i == index ? v : i < index ? a[i] : a[i - 1];` -/
def spread (a : List α) (index : Nat) (v : α) (n : Nat) : Option (List α) :=
  (List.range n).mapM fun i =>
    if i = index then some v else if i < index then a[i]? else a[i - 1]?

/-- `for (i = 0; i < n && test(i); i++);` and the value of `i` after it. -/
def scanFrom (test : Nat → Option Bool) : Nat → Nat → Option Nat
  | 0, i => some i
  | n + 1, i => do
      if ← test i then scanFrom test n (i + 1) else some i

theorem store_length {a b : List α} {i : Nat} {v : α} (h : store a i v = some b) :
    b.length = a.length := by
  unfold store at h
  split at h
  · cases h
    simp
  · simp at h

theorem store_append_cons (xs : List α) (x v : α) (ys : List α) :
    store (xs ++ x :: ys) xs.length v = some (xs ++ v :: ys) := by
  simp [store]

/-- A store at the end of the used part, the position given by its value. -/
theorem store_append_cons_of_eq {xs : List α} {i : Nat} (x v : α) (ys : List α)
    (hi : i = xs.length) : store (xs ++ x :: ys) i v = some (xs ++ v :: ys) := by
  subst hi
  exact store_append_cons xs x v ys

theorem store_append_right {a b : List α} {i : Nat} {v : α} (ys : List α)
    (h : store a i v = some b) : store (a ++ ys) i v = some (b ++ ys) := by
  unfold store at h ⊢
  split at h
  · rename_i hi
    cases h
    rw [if_pos (by rw [List.length_append]; omega), List.set_append_left i v hi]
  · simp at h

/-- Moving the cells after `x` down by one overwrites `x`; the last cell moved
keeps its old content as well. -/
theorem shiftDown_append : ∀ (ys xs : List α) (x : α) (js : List α),
    ∃ w, shiftDown (xs ++ x :: (ys ++ js)) xs.length ys.length = some (xs ++ (ys ++ w :: js))
  | [], xs, x, js => ⟨x, by simp [shiftDown]⟩
  | y :: ys, xs, x, js => by
      obtain ⟨w, hw⟩ := shiftDown_append ys (xs ++ [y]) y js
      refine ⟨w, ?_⟩
      have hget : (xs ++ x :: (y :: ys ++ js))[xs.length + 1]? = some y := by simp
      have hset : store (xs ++ x :: (y :: ys ++ js)) xs.length y =
          some (xs ++ y :: (y :: ys ++ js)) := store_append_cons xs x y _
      simp only [List.length_cons, shiftDown, hget, hset, Option.bind_eq_bind, Option.bind_some]
      simpa using hw

/-- Moving the cells of `ys` up by one frees the first of them and overwrites
the cell after the last. -/
theorem shiftUp_append : ∀ (ys xs : List α) (j : α) (js : List α),
    ∃ w, shiftUp (xs ++ (ys ++ j :: js)) xs.length ys.length = some (xs ++ w :: (ys ++ js)) := by
  intro ys
  induction ys using List.reverseRecOn with
  | nil => exact fun xs j js => ⟨j, by simp [shiftUp]⟩
  | append_singleton ys y ih =>
    intro xs j js
    obtain ⟨w, hw⟩ := ih xs y (y :: js)
    refine ⟨w, ?_⟩
    have hget : (xs ++ (ys ++ [y] ++ j :: js))[xs.length + ys.length]? = some y := by simp
    have hset : store (xs ++ (ys ++ [y] ++ j :: js)) (xs.length + ys.length + 1) y =
        some (xs ++ (ys ++ y :: y :: js)) := by
      have h := store_append_cons (xs ++ (ys ++ [y])) j y js
      simpa [Nat.add_assoc] using h
    simp only [List.length_append, List.length_cons, List.length_nil, Nat.zero_add, shiftUp,
      hget, hset, Option.bind_eq_bind, Option.bind_some]
    simpa using hw

/-- Shifting up from `i` and storing there inserts a cell into the used part. -/
theorem shiftUp_store (xs : List α) {i : Nat} (hi : i ≤ xs.length) (v j : α) (js : List α) :
    (shiftUp (xs ++ j :: js) i (xs.length - i)).bind (store · i v) =
      some (xs.take i ++ v :: (xs.drop i ++ js)) := by
  obtain ⟨w, hw⟩ := shiftUp_append (xs.drop i) (xs.take i) j js
  have hlen : (xs.take i).length = i := by simp [hi]
  have hsplit : xs.take i ++ (xs.drop i ++ j :: js) = xs ++ j :: js := by
    rw [← List.append_assoc, List.take_append_drop]
  rw [hlen, hsplit, List.length_drop] at hw
  rw [hw, Option.bind_some]
  exact store_append_cons_of_eq w v _ hlen.symm

/-- Shifting down from `i` and clearing the last used cell erases a cell of the
used part. -/
theorem shiftDown_store (xs : List α) {i : Nat} (hi : i < xs.length) (v : α) (js : List α) :
    (shiftDown (xs ++ js) i (xs.length - 1 - i)).bind (store · (xs.length - 1) v) =
      some (xs.eraseIdx i ++ v :: js) := by
  obtain ⟨w, hw⟩ := shiftDown_append (xs.drop (i + 1)) (xs.take i) xs[i] js
  have hlen : (xs.take i).length = i := by simp; omega
  have hsplit : xs.take i ++ xs[i] :: (xs.drop (i + 1) ++ js) = xs ++ js := by
    rw [← List.cons_append, ← List.drop_eq_getElem_cons hi, ← List.append_assoc,
      List.take_append_drop]
  have hcount : (xs.drop (i + 1)).length = xs.length - 1 - i := by simp; omega
  rw [hlen, hsplit, hcount, ← List.append_assoc, ← List.eraseIdx_eq_take_drop_succ] at hw
  rw [hw, Option.bind_some]
  exact store_append_cons_of_eq w v js (by rw [List.length_eraseIdx_of_lt hi])

/-- A copy loop replaces one segment of the target by one of the source. -/
theorem copyRange_append : ∀ (ms ps qs xs ds zs : List α), ms.length = ds.length →
    copyRange (ps ++ (ms ++ qs)) ps.length (xs ++ (ds ++ zs)) xs.length ms.length =
      some (xs ++ (ms ++ zs))
  | [], ps, qs, xs, ds, zs, h => by
      have hds : ds = [] := List.length_eq_zero_iff.mp h.symm
      subst hds
      simp [copyRange]
  | m :: ms, ps, qs, xs, ds, zs, h => by
      cases ds with
      | nil => simp at h
      | cons d ds =>
        have hrec := copyRange_append ms (ps ++ [m]) qs (xs ++ [m]) ds zs (by simpa using h)
        have hget : (ps ++ (m :: ms ++ qs))[ps.length]? = some m := by simp
        have hset : store (xs ++ (d :: ds ++ zs)) xs.length m =
            some (xs ++ m :: (ds ++ zs)) := store_append_cons xs d m _
        simp only [List.length_cons, copyRange, hget, hset, Option.bind_eq_bind,
          Option.bind_some]
        simpa using hrec

/-- A copy loop, the positions given by their values. -/
theorem copyRange_append_of_eq {ms ps qs xs ds zs : List α} {si di count : Nat}
    (hlen : ms.length = ds.length) (hsi : si = ps.length) (hdi : di = xs.length)
    (hcount : count = ms.length) :
    copyRange (ps ++ (ms ++ qs)) si (xs ++ (ds ++ zs)) di count = some (xs ++ (ms ++ zs)) := by
  subst hsi hdi hcount
  exact copyRange_append ms ps qs xs ds zs hlen

/-- A store, by position. -/
theorem store_eq {a : List α} {i : Nat} (v : α) (hi : i < a.length) :
    store a i v = some (a.take i ++ v :: a.drop (i + 1)) := by
  rw [store, if_pos hi, List.set_eq_take_append_cons_drop, if_pos hi]

/-- A copy loop, by position. -/
theorem copyRange_eq {src dst : List α} {si di count : Nat} (hs : si + count ≤ src.length)
    (hd : di + count ≤ dst.length) : copyRange src si dst di count =
      some (dst.take di ++ ((src.drop si).take count ++ dst.drop (di + count))) := by
  have hsrc : src = src.take si ++ ((src.drop si).take count ++ src.drop (si + count)) := by
    rw [← List.drop_drop, List.take_append_drop, List.take_append_drop]
  have hdst : dst = dst.take di ++ ((dst.drop di).take count ++ dst.drop (di + count)) := by
    rw [← List.drop_drop, List.take_append_drop, List.take_append_drop]
  have hmain := @copyRange_append_of_eq α ((src.drop si).take count) (src.take si)
    (src.drop (si + count)) (dst.take di) ((dst.drop di).take count) (dst.drop (di + count)) si di
    count (by simp; omega) (by simp; omega) (by simp; omega) (by simp; omega)
  rwa [← hsrc, ← hdst] at hmain

theorem mapM_eq_some_map {β : Type} {f : α → Option β} {g : α → β} :
    ∀ {l : List α}, (∀ x ∈ l, f x = some (g x)) → l.mapM f = some (l.map g)
  | [], _ => rfl
  | x :: l, h => by
      have hrec := mapM_eq_some_map (fun y hy => h y (List.mem_cons_of_mem _ hy))
      simp [List.mapM_cons, h x List.mem_cons_self, hrec]

/-- The temporary array of a split holds the old cells with the new one among
them, as many as it has room for. -/
theorem spread_eq {a : List α} {index n : Nat} (v : α) (hn : n ≤ a.length + 1)
    (hi : index ≤ a.length) :
    spread a index v n = some ((a.take index ++ v :: a.drop index).take n) := by
  have hmem : ∀ i ∈ List.range n,
      (if i = index then some v else if i < index then a[i]? else a[i - 1]?) =
        some ((a.take index ++ v :: a.drop index)[i]?.getD v) := by
    intro i hr
    have hlt : i < n := List.mem_range.mp hr
    have htake : (a.take index).length = index := by simp [hi]
    rcases Nat.lt_trichotomy i index with h | h | h
    · rw [if_neg (by omega), if_pos h, List.getElem?_append_left (by omega),
        List.getElem?_take_of_lt h, List.getElem?_eq_getElem (by omega), Option.getD_some]
    · subst h
      rw [if_pos rfl, List.getElem?_append_right (by omega)]
      simp [htake]
    · rw [if_neg (by omega), if_neg (by omega), List.getElem?_append_right (by omega), htake,
        show i - index = (i - 1 - index) + 1 by omega, List.getElem?_cons_succ,
        List.getElem?_drop, show index + (i - 1 - index) = i - 1 by omega,
        List.getElem?_eq_getElem (by omega), Option.getD_some]
  rw [spread, mapM_eq_some_map hmem]
  refine congrArg some (List.ext_getElem (by simp; omega) fun i h1 h2 => ?_)
  simp only [List.getElem_map, List.getElem_range, List.getElem_take]
  rw [List.getElem?_eq_getElem (by simp at h2 ⊢; omega), Option.getD_some]

/-- A search loop stops at the first position whose test fails. -/
theorem scanFrom_eq_takeWhile {β : Type} {test : Nat → Option Bool} {p : β → Bool} :
    ∀ (ks : List β) (i : Nat),
      (∀ j (h : j < ks.length), test (i + j) = some (p ks[j])) →
        scanFrom test ks.length i = some (i + (ks.takeWhile p).length)
  | [], i, _ => by simp [scanFrom]
  | k :: ks, i, h => by
      have hhead : test i = some (p k) := h 0 (Nat.succ_pos _)
      have hrec : scanFrom test ks.length (i + 1) = some (i + 1 + (ks.takeWhile p).length) :=
        scanFrom_eq_takeWhile ks (i + 1) (fun j hj => by
          have := h (j + 1) (by simpa using hj)
          simpa [Nat.add_assoc, Nat.add_comm 1 j] using this)
      simp only [List.length_cons, scanFrom, hhead, Option.bind_eq_bind, Option.bind_some]
      cases hp : p k with
      | false => simp [hp]
      | true =>
          simp only [if_true, hrec, List.takeWhile_cons_of_pos hp, List.length_cons]
          congr 1
          omega

end Nbfs.Lib.Slots
