import Nbfs.BplusTree.Memory

set_option autoImplicit false

/-!
# The B+ tree operations (`include/spdk/Bplus_Tree.h`)

Each function is translated under its own name; a `for` loop over the arrays of
one node is one of the loops of `Nbfs.Lib.Slots`, run on that node's array.  A
loop or a recursion that chases pointers is bounded by the number of addresses
ever handed out and has no result beyond it, so a computation that does have a
result also terminates.
-/

namespace Nbfs.BplusTree

open Nbfs.Lib Nbfs.Lib.Slots

/-! ## Search -/

/-- The string `keys[i]` points to. -/
def keyAt (h : Heap) (n : Node) (i : Nat) : Option CString := do
  let p ← n.keys[i]?
  let a ← p
  h.strs a

/-- The `while` loop of `find_leaf`. -/
def findLeafFrom (h : Heap) (key : CString) : Nat → Addr → Option Addr
  | 0, _ => none
  | fuel + 1, temp => do
      let n ← h.nodes temp
      if n.isLeaf then some temp
      else
        let i ← scanFrom (fun i => (keyAt h n i).map fun k => decide (CString.strcmp k key ≤ 0))
          n.numKeys 0
        let p ← n.pointers[i]?
        let child ← p
        findLeafFrom h key fuel child

/-- `find_leaf`. -/
def findLeaf (h : Heap) (root : Ptr) (key : CString) : Option Ptr :=
  match root with
  | none => some none
  | some r => (findLeafFrom h key (h.brk + 1) r).map some

/-- `for (i = 0; i < num_keys && strcmp(keys[i], key) != 0; i++);` -/
def findIndex (h : Heap) (n : Node) (key : CString) : Option Nat :=
  scanFrom (fun i => (keyAt h n i).map fun k => decide (CString.strcmp k key ≠ 0)) n.numKeys 0

/-- `B_plus_tree_find`: the record found, or NULL. -/
def bPlusTreeFind (h : Heap) (root : Ptr) (key : CString) : Option Ptr := do
  let leaf ← findLeaf h root key
  match leaf with
  | none => some none
  | some a =>
      let n ← h.nodes a
      let i ← findIndex h n key
      if i = n.numKeys then some none else n.pointers[i]?

/-- `get_node_index`. -/
def getNodeIndex (nd : Addr) : CM Nat := do
  let n ← readNode nd
  let parent ← deref n.parent
  let p ← readNode parent
  scanFrom (fun i => (p.pointers[i]?).map fun q => decide (q ≠ some nd)) p.numKeys 0

/-! ## Insertion -/

/-- `for (i = 0; i < count; i++) ((node *)pointers[i])->parent = owner;` -/
def adoptChildren (owner : Addr) (pointers : List Ptr) : Nat → Nat → CM Unit
  | _, 0 => pure ()
  | i, count + 1 => do
      let p ← pointers[i]?
      let child ← deref p
      setParent child (some owner)
      adoptChildren owner pointers (i + 1) count

/-- `split` in `insert_into_node_after_splitting`: the number of pointers that
stay in the node. -/
def splitNode : Nat :=
  if (maxKeyNum + 1) % 2 = 1 then (maxKeyNum + 1) / 2 + 1 else (maxKeyNum + 1) / 2

/-- `split` in `insert_into_leaf_after_splitting`: the number of entries that
stay in the leaf. -/
def splitLeaf : Nat := (maxKeyNum + 1) / 2

mutual

/-- `insert_into_node_after_splitting`. -/
def insertIntoNodeAfterSplitting :
    Nat → Addr → Addr → Addr → Nat → Addr → CM Addr
  | 0, _, _, _, _, _ => CM.lift none
  | fuel + 1, root, nd, right, index, key => do
      let n ← readNode nd
      let tempPs ← spread n.pointers (index + 1) (some right) (maxKeyNum + 2)
      let copy ← newKey (← readStr key)
      let tempKs ← spread n.keys index (some copy) (maxKeyNum + 1)
      let pointers ← copyRange tempPs 0 n.pointers 0 (splitNode - 1)
      let keys ← copyRange tempKs 0 n.keys 0 (splitNode - 1)
      let last ← tempPs[splitNode - 1]?
      let pointers ← store pointers (splitNode - 1) last
      writeNode nd { n with pointers, keys, numKeys := splitNode - 1 }
      let middle ← tempKs[splitNode - 1]?
      let newNd ← makeNewNode
      let m ← readNode newNd
      let count := maxKeyNum + 1 - splitNode
      let pointers ← copyRange tempPs splitNode m.pointers 0 count
      let keys ← copyRange tempKs splitNode m.keys 0 count
      let last ← tempPs[splitNode + count]?
      let pointers ← store pointers count last
      writeNode newNd { m with pointers, keys, numKeys := count, parent := n.parent }
      adoptChildren newNd pointers 0 (count + 1)
      let newKey ← deref middle
      insertIntoParent fuel root nd newNd newKey

/-- `insert_into_parent`. -/
def insertIntoParent : Nat → Addr → Addr → Addr → Addr → CM Addr
  | 0, _, _, _, _ => CM.lift none
  | fuel + 1, root, left, right, key => do
      let l ← readNode left
      match l.parent with
      | none =>
          let temp ← makeNewNode
          let t ← readNode temp
          let pointers ← store t.pointers 0 (some left)
          let pointers ← store pointers 1 (some right)
          let copy ← newKey (← readStr key)
          let keys ← store t.keys 0 (some copy)
          writeNode temp { t with pointers, keys, numKeys := t.numKeys + 1 }
          setParent left (some temp)
          setParent right (some temp)
          pure temp
      | some parent =>
          let p ← readNode parent
          let index ← scanFrom (fun i => (p.pointers[i]?).map fun q => decide (q ≠ some left))
            p.numKeys 0
          if p.numKeys < maxKeyNum then
            let keys ← shiftUp p.keys index (p.numKeys - index)
            let pointers ← shiftUp p.pointers (index + 1) (p.numKeys - index)
            let copy ← newKey (← readStr key)
            let keys ← store keys index (some copy)
            let pointers ← store pointers (index + 1) (some right)
            writeNode parent { p with pointers, keys, numKeys := p.numKeys + 1 }
            pure root
          else insertIntoNodeAfterSplitting fuel root parent right index key

end

/-- `insert_into_leaf_after_splitting`. -/
def insertIntoLeafAfterSplitting (fuel : Nat) (root leaf : Addr) (index : Nat) (key : CString)
    (rec : Addr) : CM Addr := do
  let n ← readNode leaf
  let tempPs ← spread n.pointers index (some rec) (maxKeyNum + 1)
  let copy ← newKey key
  let tempKs ← spread n.keys index (some copy) (maxKeyNum + 1)
  let pointers ← copyRange tempPs 0 n.pointers 0 splitLeaf
  let keys ← copyRange tempKs 0 n.keys 0 splitLeaf
  let newLeaf ← makeNewLeaf
  let m ← readNode newLeaf
  let count := maxKeyNum + 1 - splitLeaf
  let newPointers ← copyRange tempPs splitLeaf m.pointers 0 count
  let newKeys ← copyRange tempKs splitLeaf m.keys 0 count
  let next ← pointers[maxKeyNum]?
  let newPointers ← store newPointers maxKeyNum next
  let pointers ← store pointers maxKeyNum (some newLeaf)
  writeNode leaf { n with pointers, keys, numKeys := splitLeaf }
  writeNode newLeaf { m with
    pointers := newPointers, keys := newKeys, numKeys := count, parent := n.parent }
  let first ← newKeys[0]?
  let newKey ← deref first
  insertIntoParent fuel root leaf newLeaf newKey

/-- `insert_into_node_after_splitting` up to its call of `insert_into_parent`: the new
node and the key that goes up. -/
def halveNode (nd right : Addr) (index : Nat) (key : Addr) : CM (Addr × Addr) := do
  let n ← readNode nd
  let tempPs ← spread n.pointers (index + 1) (some right) (maxKeyNum + 2)
  let copy ← newKey (← readStr key)
  let tempKs ← spread n.keys index (some copy) (maxKeyNum + 1)
  let pointers ← copyRange tempPs 0 n.pointers 0 (splitNode - 1)
  let keys ← copyRange tempKs 0 n.keys 0 (splitNode - 1)
  let last ← tempPs[splitNode - 1]?
  let pointers ← store pointers (splitNode - 1) last
  writeNode nd { n with pointers, keys, numKeys := splitNode - 1 }
  let middle ← tempKs[splitNode - 1]?
  let newNd ← makeNewNode
  let m ← readNode newNd
  let count := maxKeyNum + 1 - splitNode
  let pointers ← copyRange tempPs splitNode m.pointers 0 count
  let keys ← copyRange tempKs splitNode m.keys 0 count
  let last ← tempPs[splitNode + count]?
  let pointers ← store pointers count last
  writeNode newNd { m with pointers, keys, numKeys := count, parent := n.parent }
  adoptChildren newNd pointers 0 (count + 1)
  let newKey ← deref middle
  pure (newNd, newKey)

theorem insertIntoNodeAfterSplitting_eq (fuel : Nat) (root nd right : Addr) (index : Nat)
    (key : Addr) : insertIntoNodeAfterSplitting (fuel + 1) root nd right index key =
      halveNode nd right index key >>= fun r => insertIntoParent fuel root nd r.1 r.2 := by
  simp only [insertIntoNodeAfterSplitting, halveNode, bind_assoc, pure_bind]

/-- `insert_into_leaf_after_splitting` up to its call of `insert_into_parent`: the new leaf
and its first key. -/
def halveLeaf (leaf : Addr) (index : Nat) (key : CString) (rec : Addr) : CM (Addr × Addr) := do
  let n ← readNode leaf
  let tempPs ← spread n.pointers index (some rec) (maxKeyNum + 1)
  let copy ← newKey key
  let tempKs ← spread n.keys index (some copy) (maxKeyNum + 1)
  let pointers ← copyRange tempPs 0 n.pointers 0 splitLeaf
  let keys ← copyRange tempKs 0 n.keys 0 splitLeaf
  let newLeaf ← makeNewLeaf
  let m ← readNode newLeaf
  let count := maxKeyNum + 1 - splitLeaf
  let newPointers ← copyRange tempPs splitLeaf m.pointers 0 count
  let newKeys ← copyRange tempKs splitLeaf m.keys 0 count
  let next ← pointers[maxKeyNum]?
  let newPointers ← store newPointers maxKeyNum next
  let pointers ← store pointers maxKeyNum (some newLeaf)
  writeNode leaf { n with pointers, keys, numKeys := splitLeaf }
  writeNode newLeaf { m with
    pointers := newPointers, keys := newKeys, numKeys := count, parent := n.parent }
  let first ← newKeys[0]?
  let newKey ← deref first
  pure (newLeaf, newKey)

theorem insertIntoLeafAfterSplitting_eq (fuel : Nat) (root leaf : Addr) (index : Nat)
    (key : CString) (rec : Addr) : insertIntoLeafAfterSplitting fuel root leaf index key rec =
      halveLeaf leaf index key rec >>= fun r => insertIntoParent fuel root leaf r.1 r.2 := by
  simp only [insertIntoLeafAfterSplitting, halveLeaf, bind_assoc, pure_bind]

/-- `for (index = 0; index < num_keys && (cond = strcmp(keys[index], key)) < 0; index++);`
with the values of `index` and `cond` after it. -/
def findPlace (h : Heap) (n : Node) (key : CString) : Nat → Nat → Int → Option (Nat × Int)
  | 0, index, cond => some (index, cond)
  | count + 1, index, _ => do
      let k ← keyAt h n index
      let cond := CString.strcmp k key
      if cond < 0 then findPlace h n key count (index + 1) cond else some (index, cond)

/-- A bound on the upward recursions: two calls for each address handed out. -/
def climbFuel (h : Heap) : Nat := 2 * h.brk + 2

/-- `B_plus_tree_insert`.  `garbage` is what the local variable `cond` holds
before it is assigned. -/
def bPlusTreeInsert (garbage : Int) (root : Ptr) (key : CString) (file : FileRef) : CM Ptr := do
  let rec ← newRecord file
  match ← CM.query fun h => findLeaf h root key with
  | none =>
      let temp ← makeNewLeaf
      let t ← readNode temp
      let pointers ← store t.pointers 0 (some rec)
      let copy ← newKey key
      let keys ← store t.keys 0 (some copy)
      writeNode temp { t with pointers, keys, numKeys := t.numKeys + 1 }
      pure (some temp)
  | some leaf =>
      let n ← readNode leaf
      let (index, cond) ← CM.query fun h => findPlace h n key n.numKeys 0 garbage
      if cond = 0 then pure root
      else if n.numKeys < maxKeyNum then
        let keys ← shiftUp n.keys index (n.numKeys - index)
        let pointers ← shiftUp n.pointers index (n.numKeys - index)
        let copy ← newKey key
        let keys ← store keys index (some copy)
        let pointers ← store pointers index (some rec)
        writeNode leaf { n with pointers, keys, numKeys := n.numKeys + 1 }
        pure root
      else
        let r ← deref root
        let fuel ← CM.query fun h => some (climbFuel h)
        let root ← insertIntoLeafAfterSplitting fuel r leaf index key rec
        pure (some root)

/-! ## Removal -/

/-- `adjust_root`. -/
def adjustRoot (root : Addr) : CM Ptr := do
  let n ← readNode root
  if n.numKeys > 0 then pure (some root)
  else if !n.isLeaf then
    let p ← n.pointers[0]?
    let newRoot ← deref p
    setParent newRoot none
    destroyNode root
    pure (some newRoot)
  else
    destroyNode root
    pure none

/-- `remove_entry`. -/
def removeEntry (nd : Addr) (index : Nat) : CM Unit := do
  let n ← readNode nd
  if n.isLeaf then
    freeStr (← n.keys[index]?)
    freeRec (← n.pointers[index]?)
    let count := n.numKeys - 1 - index
    let keys ← shiftDown n.keys index count
    let pointers ← shiftDown n.pointers index count
    let keys ← store keys (index + count) none
    let pointers ← store pointers (index + count) none
    writeNode nd { n with pointers, keys, numKeys := ← pred n.numKeys }
  else
    let indexK ← pred index
    freeStr (← n.keys[indexK]?)
    let count := n.numKeys - 1 - indexK
    let keys ← shiftDown n.keys indexK count
    let pointers ← shiftDown n.pointers (indexK + 1) count
    let keys ← store keys (indexK + count) none
    let pointers ← store pointers (indexK + count + 1) none
    writeNode nd { n with pointers, keys, numKeys := ← pred n.numKeys }

/-- `distribute_nodes`. -/
def distributeNodes (nd neighbor : Addr) (ndIndex : Nat) : CM Unit := do
  let n ← readNode nd
  let b ← readNode neighbor
  let parent ← deref n.parent
  let p ← readNode parent
  if ndIndex ≠ 0 then
    let sep ← pred ndIndex
    let last ← pred b.numKeys
    if !n.isLeaf then
      let pointers ← store n.pointers (n.numKeys + 1) (← n.pointers[n.numKeys]?)
      let keys ← shiftUp n.keys 0 n.numKeys
      let pointers ← shiftUp pointers 0 n.numKeys
      let keys ← store keys 0 (← p.keys[sep]?)
      let moved ← b.pointers[b.numKeys]?
      let pointers ← store pointers 0 moved
      let child ← deref moved
      setParent child (some nd)
      let bPointers ← store b.pointers b.numKeys none
      let pKeys ← store p.keys sep (← b.keys[last]?)
      let bKeys ← store b.keys last none
      writeNode parent { p with keys := pKeys }
      writeNode neighbor { b with pointers := bPointers, keys := bKeys, numKeys := last }
      writeNode nd { n with pointers, keys, numKeys := n.numKeys + 1 }
    else
      let keys ← shiftUp n.keys 0 n.numKeys
      let pointers ← shiftUp n.pointers 0 n.numKeys
      let moved ← b.keys[last]?
      let keys ← store keys 0 moved
      let bKeys ← store b.keys last none
      let pointers ← store pointers 0 (← b.pointers[last]?)
      let bPointers ← store b.pointers last none
      strcpy (← deref (← p.keys[sep]?)) (← readStr (← deref moved))
      writeNode neighbor { b with pointers := bPointers, keys := bKeys, numKeys := last }
      writeNode nd { n with pointers, keys, numKeys := n.numKeys + 1 }
  else
    let last ← pred b.numKeys
    if !n.isLeaf then
      let keys ← store n.keys n.numKeys (← p.keys[0]?)
      let moved ← b.pointers[0]?
      let pointers ← store n.pointers (n.numKeys + 1) moved
      let child ← deref moved
      setParent child (some nd)
      let pKeys ← store p.keys 0 (← b.keys[0]?)
      let bKeys ← shiftDown b.keys 0 last
      let bPointers ← shiftDown b.pointers 0 last
      let bKeys ← store bKeys last none
      let bPointers ← store bPointers last (← bPointers[last + 1]?)
      writeNode parent { p with keys := pKeys }
      writeNode neighbor { b with pointers := bPointers, keys := bKeys, numKeys := last }
      writeNode nd { n with pointers, keys, numKeys := n.numKeys + 1 }
    else
      let keys ← store n.keys n.numKeys (← b.keys[0]?)
      let pointers ← store n.pointers n.numKeys (← b.pointers[0]?)
      strcpy (← deref (← p.keys[0]?)) (← readStr (← deref (← b.keys[1]?)))
      let bKeys ← shiftDown b.keys 0 last
      let bPointers ← shiftDown b.pointers 0 last
      let bKeys ← store bKeys last none
      let bPointers ← store bPointers last none
      writeNode neighbor { b with pointers := bPointers, keys := bKeys, numKeys := last }
      writeNode nd { n with pointers, keys, numKeys := n.numKeys + 1 }

/-- `coalesce_nodes` up to its call of `delete_entry`, with `neighbor` on the
left of `nd`; the result is the parent. -/
def moveIntoNeighbor (nd neighbor : Addr) (ndIndex : Nat) : CM Addr := do
  let n ← readNode nd
  let b ← readNode neighbor
  let parent ← deref n.parent
  let start := b.numKeys
  if n.isLeaf then
    let keys ← copyRange n.keys 0 b.keys start n.numKeys
    let pointers ← copyRange n.pointers 0 b.pointers start n.numKeys
    let pointers ← store pointers maxKeyNum (← n.pointers[maxKeyNum]?)
    writeNode neighbor { b with pointers, keys, numKeys := b.numKeys + n.numKeys }
  else
    let p ← readNode parent
    let copy ← newKey (← readStr (← deref (← p.keys[← pred ndIndex]?)))
    let keys ← store b.keys start (some copy)
    let keys ← copyRange n.keys 0 keys (start + 1) n.numKeys
    let pointers ← copyRange n.pointers 0 b.pointers (start + 1) n.numKeys
    let pointers ← store pointers (start + 1 + n.numKeys) (← n.pointers[n.numKeys]?)
    writeNode neighbor { b with pointers, keys, numKeys := b.numKeys + n.numKeys + 1 }
    adoptChildren neighbor pointers 0 (b.numKeys + n.numKeys + 1 + 1)
  destroyNode nd
  pure parent

mutual

/-- `coalesce_nodes`. -/
def coalesceNodes : Nat → Addr → Addr → Addr → Nat → CM Ptr
  | 0, _, _, _, _ => CM.lift none
  | fuel + 1, root, nd, neighbor, ndIndex =>
      -- make sure neighbor is on the left
      if ndIndex = 0 then do
        let parent ← moveIntoNeighbor neighbor nd 1
        deleteEntry fuel root parent 1
      else do
        let parent ← moveIntoNeighbor nd neighbor ndIndex
        deleteEntry fuel root parent ndIndex

/-- `delete_entry`. -/
def deleteEntry : Nat → Addr → Addr → Nat → CM Ptr
  | 0, _, _, _ => CM.lift none
  | fuel + 1, root, nd, index => do
      removeEntry nd index
      if nd = root then adjustRoot nd
      else
        let n ← readNode nd
        let minKeys := if n.isLeaf then (maxKeyNum + 1) / 2 else maxKeyNum / 2
        if n.numKeys ≥ minKeys then pure (some root)
        else
          let ndIndex ← getNodeIndex nd
          let p ← readNode (← deref n.parent)
          let q ← if ndIndex = 0 then p.pointers[1]? else p.pointers[ndIndex - 1]?
          let neighbor ← deref q
          let b ← readNode neighbor
          let cap := if n.isLeaf then maxKeyNum else maxKeyNum - 1
          if b.numKeys + n.numKeys ≤ cap then coalesceNodes fuel root nd neighbor ndIndex
          else
            distributeNodes nd neighbor ndIndex
            pure (some root)

end

/-- `B_plus_tree_remove`. -/
def bPlusTreeRemove (root : Ptr) (key : CString) : CM Ptr := do
  match ← CM.query fun h => findLeaf h root key with
  | none => pure root
  | some leaf =>
      let n ← readNode leaf
      let i ← CM.query fun h => findIndex h n key
      if i = n.numKeys then pure root
      else
        let r ← deref root
        let fuel ← CM.query fun h => some (climbFuel h)
        deleteEntry fuel r leaf i

/-- `B_plus_tree_initial`. -/
def bPlusTreeInitial : CM Ptr := do
  let a ← makeNewLeaf
  pure (some a)

/-! ## Iteration -/

/-- `while (!p->is_leaf) p = (node *)p->pointers[0];` -/
def leftmostLeaf (h : Heap) : Nat → Addr → Option Addr
  | 0, _ => none
  | fuel + 1, a => do
      let n ← h.nodes a
      if n.isLeaf then some a
      else
        let p ← n.pointers[0]?
        let child ← p
        leftmostLeaf h fuel child

/-- `((record *)pointers[i])->file` -/
def fileAt (h : Heap) (n : Node) (i : Nat) : Option FileRef := do
  let p ← n.pointers[i]?
  let r ← p
  let rec ← h.recs r
  some rec.file

/-- The files of one leaf, in slot order. -/
def leafFiles (h : Heap) (n : Node) : Option (List FileRef) :=
  (List.range n.numKeys).mapM (fileAt h n)

/-- The outer `while (p)` loop of `traverse_leaves`. -/
def traverseFrom (h : Heap) : Nat → Ptr → Option (List FileRef)
  | _, none => some []
  | 0, some _ => none
  | fuel + 1, some a => do
      let n ← h.nodes a
      let files ← leafFiles h n
      let next ← n.pointers[maxKeyNum]?
      let rest ← traverseFrom h fuel next
      some (files ++ rest)

/-- `traverse_leaves`: the arguments of the calls of `fn`, in order. -/
def traverseLeaves (h : Heap) (root : Ptr) : Option (List FileRef) :=
  match root with
  | none => some []
  | some r => do
      let p ← leftmostLeaf h (h.brk + 1) r
      traverseFrom h (h.brk + 1) (some p)

/-- `B_plus_tree_get_first`. -/
def bPlusTreeGetFirst (h : Heap) (root : Ptr) : Option Ptr :=
  match root with
  | none => some none
  | some r => do
      let p ← leftmostLeaf h (h.brk + 1) r
      let n ← h.nodes p
      n.pointers[0]?

/-- The `for` loop of `B_plus_tree_get_next` on one leaf: the record returned,
or the value of `find` after the loop. -/
def nextInLeaf (h : Heap) (n : Node) (current : FileRef) :
    Nat → Nat → Bool → Option (Bool ⊕ Ptr)
  | 0, _, find => some (.inl find)
  | count + 1, i, find => do
      if find then
        let p ← n.pointers[i]?
        some (.inr p)
      else
        let file ← fileAt h n i
        nextInLeaf h n current count (i + 1) (decide (file = current))

/-- The outer `while (p)` loop of `B_plus_tree_get_next`. -/
def nextFrom (h : Heap) (current : FileRef) : Nat → Ptr → Bool → Option Ptr
  | _, none, _ => some none
  | 0, some _, _ => none
  | fuel + 1, some a, find => do
      let n ← h.nodes a
      match ← nextInLeaf h n current n.numKeys 0 find with
      | .inr p => some p
      | .inl find =>
          let next ← n.pointers[maxKeyNum]?
          nextFrom h current fuel next find

/-- `B_plus_tree_get_next`. -/
def bPlusTreeGetNext (h : Heap) (root : Ptr) (current : FileRef) : Option Ptr :=
  match root with
  | none => some none
  | some r => do
      let p ← leftmostLeaf h (h.brk + 1) r
      nextFrom h current (h.brk + 1) (some p) false

/-- `B_plus_tree_empty`. -/
def bPlusTreeEmpty (h : Heap) (root : Ptr) : Option Bool := do
  let r ← root
  let n ← h.nodes r
  some (decide (n.numKeys = 0))

end Nbfs.BplusTree
