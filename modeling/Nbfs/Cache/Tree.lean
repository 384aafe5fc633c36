import Mathlib.Algebra.Group.Nat.Defs
import Mathlib.Data.List.FinRange
import Mathlib.Logic.Function.Basic

set_option autoImplicit false

/-!
# The cache tree of a file (`lib/NBFS/tree.h`, `lib/NBFS/tree.c`)

A file's cached buffers hang below a tree of nodes with 64 slots.  A node of
level 0 has buffers in its slots, a node above that has nodes; which of the two
a slot is read as depends on the node's level only, so reading a slot as the
wrong kind, shifting by 64 or more and a failed assertion have no result.
-/

namespace Nbfs.Cache

/-- `CACHE_BUFFER_SHIFT`. -/
def cacheBufferShift : Nat := 18

/-- `CACHE_BUFFER_SIZE`. -/
def cacheBufferSize : Nat := 2 ^ cacheBufferShift

/-- `CACHE_TREE_SHIFT`. -/
def cacheTreeShift : Nat := 6

/-- `CACHE_TREE_WIDTH`. -/
abbrev cacheTreeWidth : Nat := 64

/-- `CACHE_TREE_LEVEL_SHIFT`. -/
def cacheTreeLevelShift (level : Nat) : Nat := cacheBufferShift + level * cacheTreeShift

/-- `CACHE_TREE_LEVEL_SIZE`, a shift of a 64-bit one. -/
def cacheTreeLevelSize (level : Nat) : Option Nat :=
  if cacheTreeLevelShift level < 64 then some (2 ^ cacheTreeLevelShift level) else none

/-- A `struct cache_buffer *`. -/
abbrev BufRef := Nat

/-- `struct cache_buffer`, as far as the tree reads it. -/
structure CacheBuffer where
  offset : Nat
  bytesFilled : Nat
  bytesFlushed : Nat
  inProgress : Bool
  deriving DecidableEq

/-- The buffers that are allocated. -/
abbrev Buffers := BufRef → Option CacheBuffer

/-- A slot of a node and what it points to: nothing, a buffer, or a `struct cache_tree`. -/
inductive CacheTree where
  | null
  | buffer (b : BufRef)
  | node (level : Nat) (presentMask : BitVec 64) (u : Fin cacheTreeWidth → CacheTree)

/-- The slots of a node. -/
abbrev Slots := Fin cacheTreeWidth → CacheTree

namespace CacheTree

/-- `tree->level`. -/
def level : CacheTree → Nat
  | node level _ _ => level
  | _ => 0

/-- `tree->present_mask`. -/
def presentMask : CacheTree → BitVec 64
  | node _ presentMask _ => presentMask
  | _ => 0

/-- `tree == NULL`. -/
def isNull : CacheTree → Bool
  | null => true
  | _ => false

theorem isNull_iff {t : CacheTree} : t.isNull = true ↔ t = null := by
  cases t <;> simp [isNull]

/-- `calloc(1, sizeof(*tree))` with its level set. -/
def zeroed (level : Nat) : CacheTree := node level 0 fun _ => null

end CacheTree

/-- `present_mask |= (1ULL << index)`. -/
def setPresent (presentMask : BitVec 64) (index : Fin cacheTreeWidth) : BitVec 64 :=
  presentMask ||| (1#64 <<< index.val)

/-- `present_mask &= ~(1ULL << index)`. -/
def clearPresent (presentMask : BitVec 64) (index : Fin cacheTreeWidth) : BitVec 64 :=
  presentMask &&& ~~~(1#64 <<< index.val)

/-- `tree_find_buffer`. -/
def treeFindBuffer : CacheTree → Nat → Option (Option BufRef)
  | .null, _ => some none
  | .buffer _, _ => none
  | .node level _ u, offset => do
      let size ← cacheTreeLevelSize level
      if h : offset / size < cacheTreeWidth then
        if level = 0 then
          match u ⟨offset / size, h⟩ with
          | .null => some none
          | .buffer b => some (some b)
          | .node .. => none
        else treeFindBuffer (u ⟨offset / size, h⟩) (offset &&& (size - 1))
      else some none

/-- The first loop of `tree_insert_buffer`: new roots until one covers the offset. -/
def growRoot : Nat → CacheTree → Nat → Option CacheTree
  | 0, _, _ => none
  | fuel + 1, root, offset => do
      let size ← cacheTreeLevelSize (root.level + 1)
      if size ≤ offset then
        match root with
        | .node level presentMask u =>
            if presentMask ≠ 0 then
              growRoot fuel (.node (level + 1) 1 (Function.update (fun _ => .null) 0 root)) offset
            else growRoot fuel (.node (level + 1) presentMask u) offset
        | _ => none
      else some root

/-- The end of `tree_insert_buffer`, at a node of level 0. -/
def insertLeaf (level : Nat) (presentMask : BitVec 64) (u : Slots) (offset : Nat) (b : BufRef) :
    Option CacheTree :=
  if h : offset / cacheBufferSize < cacheTreeWidth then
    let index : Fin cacheTreeWidth := ⟨offset / cacheBufferSize, h⟩
    if (u index).isNull then
      some (.node level (setPresent presentMask index) (Function.update u index (.buffer b)))
    else none
  else none

/-- The second loop of `tree_insert_buffer`: down to the node of level 0, with new
nodes where there are none. -/
def insertBelow (b : BufRef) : Nat → CacheTree → Nat → Option CacheTree
  | 0, .node level presentMask u, offset =>
      if level = 0 then insertLeaf level presentMask u offset b else none
  | fuel + 1, .node level presentMask u, offset =>
      if level = 0 then insertLeaf level presentMask u offset b
      else do
        let size ← cacheTreeLevelSize level
        if h : offset / size < cacheTreeWidth then do
          let index : Fin cacheTreeWidth := ⟨offset / size, h⟩
          let (presentMask, child) := if (u index).isNull then
            (setPresent presentMask index, .zeroed (level - 1)) else (presentMask, u index)
          let child ← insertBelow b fuel child (offset &&& (size - 1))
          some (.node level presentMask (Function.update u index child))
        else none
  | _, _, _ => none

/-- `tree_insert_buffer`. -/
def treeInsertBuffer (buffers : Buffers) (root : CacheTree) (b : BufRef) : Option CacheTree := do
  let buffer ← buffers b
  let root ← growRoot 256 root buffer.offset
  insertBelow b root.level root buffer.offset

/-- `CACHE_TREE_INDEX`. -/
def cacheTreeIndex (level offset : Nat) : Option (Fin cacheTreeWidth) :=
  if cacheTreeLevelShift level < 64 then
    some ⟨(offset >>> cacheTreeLevelShift level) &&& (cacheTreeWidth - 1),
      Nat.lt_of_le_of_lt Nat.and_le_right (by decide)⟩
  else none

/-- `tree_remove_buffer` below the root, for the buffer `b` with the offset; the buffer
itself is freed by `treeRemoveBuffer`. -/
def removeBelow (b : BufRef) (offset : Nat) : CacheTree → Option CacheTree
  | .node level presentMask u => do
      let index ← cacheTreeIndex level offset
      if level = 0 then
        match u index with
        | .buffer c =>
            if b = c then
              some (.node level (clearPresent presentMask index) (Function.update u index .null))
            else none
        | _ => none
      else do
        let child ← removeBelow b offset (u index)
        if child.presentMask = 0 then
          some (.node level (clearPresent presentMask index) (Function.update u index .null))
        else some (.node level presentMask (Function.update u index child))
  | _ => none

/-- `tree_remove_buffer`, with `cache_buffer_free`. -/
def treeRemoveBuffer (buffers : Buffers) (root : CacheTree) (b : BufRef) :
    Option (CacheTree × Buffers) := do
  let buffer ← buffers b
  let root ← removeBelow b buffer.offset root
  some (root, Function.update buffers b none)

/-- Nothing of the buffer is being written or waits to be written. -/
def CacheBuffer.idle (buffer : CacheBuffer) : Bool :=
  buffer.inProgress == false && buffer.bytesFilled == buffer.bytesFlushed

/-- What `tree_free_buffers` makes of one slot, given what it makes of the node in it,
and the buffers it frees. -/
def freeSlot (buffers : Buffers) (level : Nat) (below : Option (CacheTree × List BufRef)) :
    CacheTree → Option (CacheTree × List BufRef)
  | .null => some (.null, [])
  | .buffer b =>
      if level = 0 then do
        let buffer ← buffers b
        if buffer.idle then some (.null, [b]) else some (.buffer b, [])
      else none
  | .node .. =>
      if level = 0 then none
      else do
        let (child, freed) ← below
        if child.presentMask = 0 then some (.null, freed) else some (child, freed)

/-- A node in the course of the loop of `tree_free_buffers`, and the buffers freed so far. -/
structure Freeing where
  presentMask : BitVec 64
  u : Slots
  freed : List BufRef

/-- A turn of the loop, for the slot `i`. -/
def Freeing.turn (state : Freeing) (i : Fin cacheTreeWidth) (slot : CacheTree × List BufRef) :
    Freeing where
  presentMask := if (state.u i).isNull = false ∧ slot.1.isNull then
    clearPresent state.presentMask i else state.presentMask
  u := Function.update state.u i slot.1
  freed := state.freed ++ slot.2

/-- `tree_free_buffers`, and the buffers it frees. -/
def treeFreeBuffers (buffers : Buffers) : CacheTree → Option (CacheTree × List BufRef)
  | .node level presentMask u =>
      if presentMask = 0 then some (.node level presentMask u, [])
      else do
        let state ← (List.finRange cacheTreeWidth).foldlM (fun (state : Freeing) i => do
          let slot ← freeSlot buffers level (treeFreeBuffers buffers (u i)) (u i)
          some (state.turn i slot)) ⟨presentMask, u, []⟩
        some (.node level state.presentMask state.u, state.freed)
  | _ => none

end Nbfs.Cache
