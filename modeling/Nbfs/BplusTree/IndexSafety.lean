import Nbfs.BplusTree.Climb

set_option autoImplicit false

/-!
# Indexes, searches and the way up (`include/spdk/Bplus_Tree.h`)

An index outside an array has no result in the model, so a call that returns kept to the
arrays, whose sizes never change.  Here this is said of every tree that calls can reach, and of
each call on the way up: what it searches for is there, the neighbour it takes is a sibling,
and two nodes that are joined fit into one.
-/

namespace Nbfs.BplusTree

open Nbfs.Lib Nbfs.Lib.Forest Nbfs.Lib.Slots

/-- Every node has arrays of the full size and no more keys than fit them. -/
def Bounded (h : Heap) : Prop := ∀ a n, h.nodes a = some n →
  n.keys.length = maxKeyNum ∧ n.pointers.length = maxKeyNum + 1 ∧ n.numKeys ≤ maxKeyNum

/-- The slot that `get_node_index` returns is that of the node, and the one beside it, which
`delete_entry` reads, holds a sibling. -/
def HasNeighbor (h : Heap) (nd : Addr) : Prop :=
  ∃ n p np slot neighbor b, h.nodes nd = some n ∧ n.parent = some p ∧ h.nodes p = some np ∧
    getNodeIndex nd h = some (slot, h) ∧ np.pointers[slot]? = some (some nd) ∧
    (if slot = 0 then np.pointers[1]? else np.pointers[slot - 1]?) = some (some neighbor) ∧
    neighbor ≠ nd ∧ h.nodes neighbor = some b ∧ b.parent = some p

/-- What a call on the way up relies on. -/
def Climb.Sound : Climb → Heap → Prop
  | .intoParent _ left _ _, h => ∃ l, h.nodes left = some l ∧ ∀ p, l.parent = some p →
      ∃ np index, h.nodes p = some np ∧
        scanFrom (fun i => (np.pointers[i]?).map fun q => decide (q ≠ some left)) np.numKeys 0 =
          some index ∧ np.pointers[index]? = some (some left)
  | .intoNode _ nd right index key, h => index ≤ maxKeyNum ∧
      ∃ r h₁, halveNode nd right index key h = some (r, h₁) ∧ Bounded h₁
  | .coalesce _ nd neighbor ndIndex, h => ∃ p h₁ b,
      moveTogether nd neighbor ndIndex h = some (p, h₁) ∧ Bounded h₁ ∧
        h₁.nodes (if ndIndex = 0 then nd else neighbor) = some b ∧ b.numKeys ≤ maxKeyNum
  | .delete root nd index, h => ∃ h₁, removeEntry nd index h = some ((), h₁) ∧ Bounded h₁ ∧
      (nd ≠ root → HasNeighbor h₁ nd)

/-- The key of an insertion fits a key buffer, as names do. -/
def Call.KeyFits : Call → Prop
  | .insert _ key _ => key.strlen < maxKeyLen
  | .remove _ => True

/-- What holds of a call on a tree.  It returns, within the arrays; and the calls on the way up,
of which there is a bounded number, have what they rely on. -/
structure IndexSafe (c : Call) (root : Ptr) (h : Heap) : Prop where
  bounded : Bounded h
  returns : c.KeyFits → ∃ root' h', c.run root h = some (root', h') ∧ Bounded h'
  climbs : ∀ n x h₁, c.Makes root h n x h₁ → Bounded h₁ ∧ x.Sound h₁ ∧ n ≤ climbFuel h + 1

/-! ## What holds on the way up -/

/-- The tree at each call on the way up. -/
def Climb.Ready : Climb → Heap → Prop
  | .intoParent root left right key, h => ∃ own F F' content k n n₁ n₂,
      Pending own h F F' root left right content k key n n₁ n₂
  | .intoNode root nd right index key, h => ∃ own F F' left content k n n₁ n₂ m ks₁ ks₂ cs₁ cs₂,
      Pending own h F F' root left right content k key n n₁ n₂ ∧ F nd = some m ∧
        m.body = .inner (ks₁ ++ ks₂) (cs₁ ++ left :: cs₂) ∧ cs₁.length = ks₁.length ∧
        (ks₁ ++ ks₂).length = maxKeyNum ∧ index = ks₁.length
  | .coalesce root nd neighbor slot, h => ∃ own F own₁ F₁ content m c₁ p l r ks₁ cs₁ h₁ h₂,
      Rep own h F ∧ Joined h h₁ h₂ F root p l r (ks₁.length + 1) content m ∧
        Rep own₁ h₁ F₁ ∧ F₁ l = some c₁ ∧ Beside nd neighbor l r slot ks₁ cs₁ ∧
        ∀ c, F root = some c → c.level < h.brk
  | .delete root nd index, h => ∃ own₀ F₀ own F content c h₁, Rep own₀ h F₀ ∧
      removeEntry nd index h = some ((), h₁) ∧ Rep own h₁ F ∧
        TreeWF F root content (some nd) none ∧ F nd = some c ∧
        ∀ c, F root = some c → c.level < h₁.brk

variable {own : Owner} {h h₁ : Heap} {F : Tree} {content : CString → Option FileRef} {x y : Climb}

theorem Rep.bounded (hR : Rep own h F) : Bounded h := by
  intro a n hn
  cases hF : F a with
  | none => cases (hR.free a hF).symm.trans hn
  | some c =>
      obtain ⟨n', hn', -, hbody⟩ := hR.cell a c hF
      obtain rfl := Option.some.inj (hn.symm.trans hn')
      cases hb : c.body with
      | leaf es next =>
          rw [hb] at hbody
          obtain ⟨kps, rps, hl⟩ := hbody
          obtain ⟨kj, hkeys⟩ := hl.keys
          have hlen := congrArg List.length hkeys
          rw [List.length_append, List.length_map, hl.keysLen, hl.keys_length] at hlen
          exact ⟨hl.keysLen, hl.pointersLen, by rw [hl.numKeys]; omega⟩
      | inner ks cs =>
          rw [hb] at hbody
          obtain ⟨kps, hi⟩ := hbody
          obtain ⟨kj, hkeys⟩ := hi.keys
          have hlen := congrArg List.length hkeys
          rw [List.length_append, List.length_map, hi.keysLen, hi.keys_length] at hlen
          exact ⟨hi.keysLen, hi.pointersLen, by rw [hi.numKeys]; omega⟩

theorem HoldsTree.bounded {root : Ptr} (hT : HoldsTree h root content) : Bounded h := by
  cases root with
  | none =>
      obtain ⟨⟨own, hR⟩, -⟩ := hT
      exact hR.bounded
  | some r =>
      obtain ⟨own, F, hR, -⟩ := hT
      exact hR.bounded

namespace Climb.Ready

theorem bounded (hx : x.Ready h) : Bounded h := by
  cases x with
  | intoParent root left right key =>
      obtain ⟨own, F, F', content, k, n, n₁, n₂, hP⟩ := hx
      exact hP.rep.bounded
  | intoNode root nd right index key =>
      obtain ⟨own, F, F', left, content, k, n, n₁, n₂, m, ks₁, ks₂, cs₁, cs₂, hP, -⟩ := hx
      exact hP.rep.bounded
  | coalesce root nd neighbor slot =>
      obtain ⟨own, F, own₁, F₁, content, m, c₁, p, l, r, ks₁, cs₁, h₁, h₂, hR, -⟩ := hx
      exact hR.bounded
  | delete root nd index =>
      obtain ⟨own₀, F₀, own, F, content, c, h₁, hR, -⟩ := hx
      exact hR.bounded

/-- What `moveTogether` leaves, whichever of the two is on the left. -/
theorem moveTogether_run {root p l r nd neighbor : Addr} {m : TreeCell} {ks₁ : List CString}
    {cs₁ : List Addr} {slot : Nat} {h₂ : Heap}
    (hJ : Joined h h₁ h₂ F root p l r (ks₁.length + 1) content m)
    (hside : Beside nd neighbor l r slot ks₁ cs₁) :
    moveTogether nd neighbor slot h = some (p, h₁) ∧
      (if slot = 0 then nd else neighbor) = l ∧
      (if slot = 0 then 1 else slot) = ks₁.length + 1 := by
  have hmoved := hJ.moved
  rcases hside with ⟨rfl, rfl, rfl, rfl, -⟩ | ⟨rfl, rfl, rfl⟩
  · exact ⟨hmoved, rfl, rfl⟩
  · exact ⟨hmoved, rfl, rfl⟩

theorem sound (hx : x.Ready h) : x.Sound h := by
  cases x with
  | intoParent root left right key =>
      obtain ⟨own, F, F', content, k, n, n₁, n₂, hP⟩ := hx
      obtain ⟨nl, hnl, hok⟩ := hP.rep.cell left n₁ hP.split.left
      refine ⟨nl, hnl, fun p hpar => ?_⟩
      have hpar' : n.par = some p := (hok.1.trans hP.split.par.1).symm.trans hpar
      obtain ⟨m, ks₁, ks₂, cs₁, cs₂, hm, hbody, hlen, hnot, -⟩ := hP.parent hpar'
      obtain ⟨-, np, -, -, hnp, -, hscan, hslot⟩ := hP.search hpar' hm hbody hlen hnot
      exact ⟨np, ks₁.length, hnp, hscan, hslot⟩
  | intoNode root nd right index key =>
      obtain ⟨own, F, F', left, content, k, n, n₁, n₂, m, ks₁, ks₂, cs₁, cs₂, hP, hm, hbody, hlen,
        hfull, rfl⟩ := hx
      obtain ⟨own', G, G', k', kp', m₀, m₁, m₂, q, h', hrun, hP', -⟩ :=
        halveNode_run hP hm hbody hlen hfull
      refine ⟨?_, _, h', hrun, hP'.rep.bounded⟩
      rw [← hfull, List.length_append]
      exact Nat.le_add_right _ _
  | coalesce root nd neighbor slot =>
      obtain ⟨own, F, own₁, F₁, content, m, c₁, p, l, r, ks₁, cs₁, h₁, h₂, hR, hJ, hR₁, hl, hside,
        -⟩ := hx
      obtain ⟨hrun, hleft, -⟩ := moveTogether_run hJ hside
      obtain ⟨b, hb, -⟩ := hR₁.cell l c₁ hl
      exact ⟨p, h₁, b, hrun, hR₁.bounded, hleft ▸ hb, (hR₁.bounded l b hb).2.2⟩
  | delete root nd index =>
      obtain ⟨own₀, F₀, own, F, content, c, h₁, -, hrem, hR, hwf, hc, -⟩ := hx
      refine ⟨h₁, hrem, hR.bounded, fun hne => ?_⟩
      obtain ⟨n, hn, hok⟩ := hR.cell nd c hc
      obtain ⟨p, m, ks₁, s, ks₂, cs₁, l, r, cs₂, n₁, n₂, hpar, hp, hbody, hlen, hs, neighbor, slot,
        hside, b, hb, hbpar⟩ := exists_beside hR hwf hc hne
      have hnpar : n.parent = some p := hok.1.trans hpar
      obtain ⟨hslot, np, hnp, hget⟩ := getNodeIndex_run hR hwf hp hbody hlen hside hn hnpar
      refine ⟨n, p, np, slot, neighbor, b, hn, hnpar, hnp, hslot, ?_, hget, ?_, hb, hbpar⟩
      · obtain ⟨np', kps, hnp', -, hi⟩ := hR.inner hp hbody
        obtain rfl := Option.some.inj (hnp.symm.trans hnp')
        obtain ⟨pj, hps⟩ := hi.pointers
        rw [hps]
        rcases hside with ⟨rfl, rfl, rfl, rfl, rfl⟩ | ⟨rfl, rfl, rfl⟩
        · rfl
        · rw [← hlen]
          simp
      · rcases hside with ⟨rfl, rfl, -⟩ | ⟨rfl, rfl, -⟩
        · exact hs.ne.symm
        · exact hs.ne

/-- The next call on the way up finds the tree one level higher. -/
theorem step (hx : x.Ready h) (hcalls : x.Calls h y h₁) : y.Ready h₁ := by
  cases hcalls with
  | full hl hpar hnp hscan hfull =>
      obtain ⟨own, F, F', content, k, n, n₁, n₂, hP⟩ := hx
      obtain ⟨nl, hnl, hok⟩ := hP.rep.cell _ n₁ hP.split.left
      obtain rfl := Option.some.inj (hl.symm.trans hnl)
      have hpar' := (hok.1.trans hP.split.par.1).symm.trans hpar
      obtain ⟨m, ks₁, ks₂, cs₁, cs₂, hm, hbody, hlen, hnot, -, hmax⟩ := hP.parent hpar'
      obtain ⟨-, np', -, -, hnp', hnum, hscan', -⟩ := hP.search hpar' hm hbody hlen hnot
      obtain rfl := Option.some.inj (hnp.symm.trans hnp')
      rw [hscan] at hscan'
      exact ⟨own, F, F', _, content, k, n, n₁, n₂, m, ks₁, ks₂, cs₁, cs₂, hP, hm, hbody, hlen,
        by omega, Option.some.inj hscan'⟩
  | halved hrun =>
      obtain ⟨own, F, F', left, content, k, n, n₁, n₂, m, ks₁, ks₂, cs₁, cs₂, hP, hm, hbody, hlen,
        hfull, rfl⟩ := hx
      obtain ⟨own', G, G', k', kp', m₀, m₁, m₂, q, h', hrun', hP', -⟩ :=
        halveNode_run hP hm hbody hlen hfull
      rw [hrun] at hrun'
      cases hrun'
      exact ⟨own', G, G', content, k', m₀, m₁, m₂, hP'⟩
  | joined hrun =>
      obtain ⟨own, F, own₁, F₁, content, m, c₁, p, l, r, ks₁, cs₁, h₂, h₃, hR, hJ, hR₁, -, hside,
        hlevel⟩ := hx
      obtain ⟨hrun', -, hindex⟩ := moveTogether_run hJ hside
      rw [hrun] at hrun'
      cases hrun'
      obtain ⟨own', F', m', hR', hwf', hp', -, -, hroot⟩ := hJ.tree
      obtain ⟨hbrk₁, hbrk₂⟩ := hJ.brk
      refine ⟨own₁, F₁, own', F', content, m', h₃, hR₁, hindex ▸ hJ.removed, hR', hwf', hp',
        fun c hc => ?_⟩
      obtain ⟨c', hc', hlv⟩ := hroot c hc
      have := hlevel c' hc'
      omega
  | short hrem hne hn hfew hslot hpar hnp hget hb hsum =>
      obtain ⟨own₀, F₀, own, F, content, c, h₂, -, hrem', hR, hwf, hc, hlevel⟩ := hx
      rw [hrem] at hrem'
      cases hrem'
      rw [minKeys_eq] at hfew
      obtain ⟨n', hn', hok⟩ := hR.cell _ c hc
      obtain rfl := Option.some.inj (hn.symm.trans hn')
      obtain ⟨p', m, ks₁, s, ks₂, cs₁, l, r, cs₂, n₁, n₂, hpar', hp, hbody, hlen, hs, neighbor',
        slot', hside, b', hb', -⟩ := exists_beside hR hwf hc hne
      have hnpar := hok.1.trans hpar'
      obtain rfl := Option.some.inj (hpar.symm.trans hnpar)
      obtain ⟨hslot', np', hnp', hget'⟩ := getNodeIndex_run hR hwf hp hbody hlen hside hn hnpar
      obtain rfl := Option.some.inj (hnp.symm.trans hnp')
      rw [hslot] at hslot'
      cases hslot'
      obtain rfl := Option.some.inj (Option.some.inj (hget.symm.trans hget'))
      obtain rfl := Option.some.inj (hb.symm.trans hb')
      rcases underfull_spec hR hwf hlevel hp hbody hlen hs hside hn hb (Nat.not_le.mp hfew) with
        ⟨-, h₂, h₃, hJ, own₁, F₁, c₁, hR₁, hl⟩ | ⟨hmore, -⟩
      · exact ⟨own, F, own₁, F₁, content, m, c₁, _, l, r, ks₁, cs₁, h₂, h₃, hR, hJ, hR₁, hl, hside,
          hlevel⟩
      · exact absurd hsum hmore

end Climb.Ready

/-- A full leaf, or a leaf one of whose entries goes, is ready for the way up. -/
theorem Call.Starts.ready {c : Call} {root : Ptr} (hstarts : c.Starts root h x h₁)
    (hT : HoldsTree h root content) : x.Ready h₁ := by
  cases hstarts with
  | @insert garbage cond key file h h₀ h₁ n r rec leaf newLeaf newKey index hrec hfind hn hplace
      hcond hfull hrun =>
      cases hrec
      obtain ⟨own, F, hR, hwf, hlevel⟩ := hT
      obtain ⟨a, c, es, next, n', kps, rps, cond', hfind', hc, hb, hrange, hn', hpar, hl, hplace',
        hcond'⟩ := insertPlace hR hwf hlevel garbage key file
      rw [hfind] at hfind'
      cases hfind'
      obtain rfl := Option.some.inj (hn.symm.trans hn')
      rw [hplace] at hplace'
      cases hplace'
      obtain ⟨-, hholds, -⟩ := hwf.holds hc hb
      obtain ⟨es₁, es₂, rfl, hlen, hlow, hhigh⟩ :=
        takeWhile_lt_split hholds.sorted (mt hcond'.mpr hcond)
      have hnum : n.numKeys = maxKeyNum :=
        Nat.le_antisymm (hR.bounded leaf n hn).2.2 (Nat.not_lt.mp hfull)
      have hkey : key.strlen < maxKeyLen := by
        by_contra hlong
        cases (halveLeaf_long hlong hn).symm.trans hrun
      obtain ⟨own', G, F', k, kp, n₀, n₁, n₂, h', hrun', hP, -⟩ :=
        halveLeaf_run hR hwf hlevel hc hb hn hpar hl hnum hkey file hrange hlow hhigh
      rw [← hlen, hrun'] at hrun
      cases hrun
      exact ⟨own', G, F', _, k, n₀, n₁, n₂, hP⟩
  | @remove key h n r leaf i hfind hn hindex hfound =>
      obtain ⟨own, F, hR, hwf, hlevel⟩ := hT
      obtain ⟨a, c, es, next, hfind', hc, hb, hrange⟩ := findLeaf_spec hR hwf hlevel key
      rw [hfind] at hfind'
      cases hfind'
      obtain ⟨n', kps, rps, hn', -, hl⟩ := hR.leaf hc hb
      obtain rfl := Option.some.inj (hn.symm.trans hn')
      have hindex' := findIndex_spec hl key
      rw [hindex] at hindex'
      rcases takeWhile_ne_cases es key with ⟨hlen, -⟩ | ⟨es₁, f, es₂, rfl, -, hlen⟩
      · rw [hlen, ← hl.numKeys] at hindex'
        exact absurd (Option.some.inj hindex') hfound
      · rw [hlen] at hindex'
        obtain rfl := Option.some.inj hindex'
        obtain ⟨own₁, F₁, c₁, h₁, hrem, hR₁, hwf₁, hc₁, hbrk₁, hlevel₁⟩ :=
          removeEntry_found hR hwf hlevel hc hb hrange
        exact ⟨own, F, own₁, F₁, _, c₁, h₁, hR, hrem, hR₁, hwf₁, hc₁, hbrk₁ ▸ hlevel₁⟩

/-- A call that returns leaves a tree. -/
theorem Call.holdsTree {c : Call} {root root' : Ptr} (hT : HoldsTree h root content)
    (hrun : c.run root h = some (root', h₁)) : ∃ content', HoldsTree h₁ root' content' := by
  cases c with
  | insert garbage key file =>
      by_cases hkey : key.strlen < maxKeyLen
      · obtain ⟨r, h', hrun', hT', -⟩ := bPlusTreeInsert_spec hT garbage hkey file
        cases hrun.symm.trans hrun'
        exact ⟨_, hT'⟩
      · cases (bPlusTreeInsert_long hT garbage hkey file).symm.trans hrun
  | remove key =>
      obtain ⟨r, h', hrun', hT', -⟩ := bPlusTreeRemove_spec hT key
      cases hrun.symm.trans hrun'
      exact ⟨_, hT'⟩

/-- A run leaves a tree. -/
theorem holdsTree_of_runCalls {calls : List Call} : ∀ {root root' : Ptr} {h h' : Heap}
    {content : CString → Option FileRef}, HoldsTree h root content →
    runCalls calls root h = some (root', h') → ∃ content', HoldsTree h' root' content' := by
  induction calls with
  | nil =>
      intro root root' h h' content hT hrun
      cases hrun
      exact ⟨content, hT⟩
  | cons c calls ih =>
      intro root root' h h' content hT hrun
      obtain ⟨⟨root₁, h₁⟩, hc, hrest⟩ := Option.bind_eq_some_iff.mp hrun
      obtain ⟨content₁, hT₁⟩ := c.holdsTree hT hc
      exact ih hT₁ hrest

/-- A call on a tree returns. -/
theorem Call.returns {c : Call} {root : Ptr} (hT : HoldsTree h root content) (hkey : c.KeyFits) :
    ∃ root' h', c.run root h = some (root', h') := by
  cases c with
  | insert garbage key file =>
      obtain ⟨root', h', hrun, -⟩ := bPlusTreeInsert_spec hT garbage hkey file
      exact ⟨root', h', hrun⟩
  | remove key =>
      obtain ⟨root', h', hrun, -⟩ := bPlusTreeRemove_spec hT key
      exact ⟨root', h', hrun⟩

/-- A call that goes up the tree has had its key copied. -/
theorem Call.Makes.keyFits {c : Call} {root : Ptr} {n : Nat} (hmakes : c.Makes root h n x h₁) :
    c.KeyFits := by
  induction hmakes with
  | first hstarts =>
      cases hstarts with
      | insert hrec hfind hn hplace hcond hfull hrun =>
          by_contra hlong
          cases (halveLeaf_long hlong hn).symm.trans hrun
      | remove => trivial
  | next _ _ ih => exact ih

theorem Call.Makes.ready {c : Call} {root : Ptr} {n : Nat} (hmakes : c.Makes root h n x h₁)
    (hT : HoldsTree h root content) : x.Ready h₁ := by
  induction hmakes with
  | first hstarts => exact hstarts.ready hT
  | next _ hcalls ih => exact ih.step hcalls

/-- **Index safety.**  On every tree that a run from NULL reaches, every call keeps to the arrays
and returns; on its way up each search finds its node, each neighbour is a sibling, and no node
gets more keys than it has slots. -/
theorem indexSafe_runCalls {calls : List Call} {root : Ptr}
    (hrun : runCalls calls none Heap.empty = some (root, h)) (c : Call) : IndexSafe c root h := by
  obtain ⟨content, hT⟩ := holdsTree_of_runCalls holdsTree_empty hrun
  refine ⟨hT.bounded, fun hkey => ?_, fun n x h₁ hmakes => ?_⟩
  · obtain ⟨root', h', hcall⟩ := c.returns hT hkey
    obtain ⟨content', hT'⟩ := c.holdsTree hT hcall
    exact ⟨root', h', hcall, hT'.bounded⟩
  · have hready := hmakes.ready hT
    obtain ⟨root', h', hcall⟩ := c.returns hT hmakes.keyFits
    obtain ⟨fuel, hle, -⟩ := hmakes.depth hcall
    exact ⟨hready.bounded, hready.sound, by omega⟩

/-- Five names split the root; then the first of them goes. -/
theorem indexSafe_runCalls_split : ∃ root h, runCalls [.insert 0 ⟨[97], by decide⟩ 1,
    .insert 0 ⟨[98], by decide⟩ 2, .insert 0 ⟨[99], by decide⟩ 3, .insert 0 ⟨[100], by decide⟩ 4,
    .insert 0 ⟨[101], by decide⟩ 5] none Heap.empty = some (root, h) ∧
      IndexSafe (.remove ⟨[97], by decide⟩) root h := by
  obtain ⟨root, h, hrun, -⟩ := runCalls_spec [.insert 0 ⟨[97], by decide⟩ 1,
    .insert 0 ⟨[98], by decide⟩ 2, .insert 0 ⟨[99], by decide⟩ 3, .insert 0 ⟨[100], by decide⟩ 4,
    .insert 0 ⟨[101], by decide⟩ 5] (by decide)
  exact ⟨root, h, hrun, indexSafe_runCalls hrun _⟩

end Nbfs.BplusTree
