import Nbfs.Lib.CString
import Nbfs.Lib.Slots
import Mathlib.Logic.Function.Basic

set_option autoImplicit false

/-!
# Memory of the B+ tree (`include/spdk/Bplus_Tree.h`)

The tree lives in three kinds of heap cells: `struct node`, the `malloc`ed key
buffers its `keys` point to, and `struct record`.  Addresses are never handed
out twice, so a freed cell stays invalid: a read, write or `free` of a cell that
is not allocated, a NULL dereference, an index outside an array and a `strcpy`
that does not fit its buffer all have no result.  `malloc` itself succeeds, as
the code assumes everywhere.
-/

namespace Nbfs.BplusTree

open Nbfs.Lib

/-- `MAX_KEY_LEN`: the size of every key buffer. -/
def maxKeyLen : Nat := 256

/-- `MAX_KEY_NUM`: the number of keys a node has room for. -/
def maxKeyNum : Nat := 4

/-- An address handed out by `malloc`. -/
abbrev Addr := Nat

/-- A pointer; `none` is NULL. -/
abbrev Ptr := Option Addr

/-- A `struct spdk_file *`, which the tree stores and compares only. -/
abbrev FileRef := Nat

/-- `struct node`. -/
structure Node where
  /-- `MAX_KEY_NUM + 1` slots: children, or records and the next leaf. -/
  pointers : List Ptr
  /-- `MAX_KEY_NUM` slots: key buffers. -/
  keys : List Ptr
  parent : Ptr
  numKeys : Nat
  isLeaf : Bool
  deriving DecidableEq

/-- `struct record`. -/
structure Record where
  file : FileRef
  deriving DecidableEq

/-- The allocated cells and the next address `malloc` returns. -/
structure Heap where
  nodes : Addr → Option Node
  strs : Addr → Option CString
  recs : Addr → Option Record
  brk : Nat

/-- The heap before any allocation. -/
def Heap.empty : Heap := ⟨fun _ => none, fun _ => none, fun _ => none, 0⟩

/-- A computation on the heap; `none` is undefined behaviour. -/
def CM (α : Type) : Type := Heap → Option (α × Heap)

namespace CM

def pure {α : Type} (a : α) : CM α := fun h => some (a, h)

def bind {α β : Type} (x : CM α) (f : α → CM β) : CM β := fun h =>
  (x h).bind fun r => f r.1 r.2

instance : Monad CM where
  pure := pure
  bind := bind

/-- A defined or undefined value that leaves the heap alone. -/
def lift {α : Type} (x : Option α) : CM α := fun h => x.map (·, h)

instance : MonadLift Option CM := ⟨lift⟩

/-- A read of the heap. -/
def query {α : Type} (f : Heap → Option α) : CM α := fun h => (f h).map (·, h)

@[simp] theorem pure_run {α : Type} (a : α) (h : Heap) :
    (Pure.pure a : CM α) h = some (a, h) := rfl

/-- Go on with `f` after a step with the result `r`. -/
def andThen {α β : Type} (r : Option (α × Heap)) (f : α → CM β) : Option (β × Heap) :=
  r.bind fun r => f r.1 r.2

@[simp] theorem bind_run {α β : Type} (x : CM α) (f : α → CM β) (h : Heap) :
    (x >>= f) h = andThen (x h) f := (rfl)

@[simp] theorem andThen_some {α β : Type} (a : α) (h : Heap) (f : α → CM β) :
    andThen (some (a, h)) f = f a h := (rfl)

@[simp] theorem andThen_none {α β : Type} (f : α → CM β) : andThen none f = none := (rfl)

theorem andThen_of {α β : Type} {r : Option (α × Heap)} {a : α} {h : Heap} {f : α → CM β}
    (hr : r = some (a, h)) : andThen r f = f a h := by
  rw [hr, andThen_some]

/-- A run is worked out from its first step on. -/
@[congr] theorem andThen_congr {α β : Type} {r r' : Option (α × Heap)} {f : α → CM β}
    (hr : r = r') : andThen r f = andThen r' f := by
  rw [hr]

@[simp] theorem liftM_run {α : Type} (x : Option α) (h : Heap) :
    (liftM x : CM α) h = x.map (·, h) := rfl

@[simp] theorem monadLift_run {α : Type} (x : Option α) (h : Heap) :
    (MonadLift.monadLift x : CM α) h = x.map (·, h) := rfl

@[simp] theorem query_run {α : Type} (f : Heap → Option α) (h : Heap) :
    query f h = (f h).map (·, h) := rfl

instance : LawfulMonad CM := LawfulMonad.mk' CM
  (fun x => funext fun h => by cases hx : x h <;> simp [Functor.map, bind, pure, hx])
  (fun a f => rfl)
  (fun x f g => funext fun h => by
    cases hx : x h <;> simp [Bind.bind, bind, hx])

theorem ite_run {α : Type} {p : Prop} [Decidable p] (x y : CM α) (h : Heap) :
    (if p then x else y) h = if p then x h else y h := by
  split <;> rfl

/-- Run the first part of a computation whose result is known. -/
theorem bind_run_of {α β : Type} {x : CM α} {f : α → CM β} {h h' : Heap} {a : α}
    (hx : x h = some (a, h')) : (x >>= f) h = f a h' := by
  rw [bind_run, hx, andThen_some]

end CM

/-! ## Cells -/

/-- Read `*a`. -/
def readNode (a : Addr) : CM Node := CM.query fun h => h.nodes a

/-- Store the whole of `*a`. -/
def writeNode (a : Addr) (n : Node) : CM Unit := fun h =>
  if (h.nodes a).isSome then
    some ((), { h with nodes := Function.update h.nodes a (some n) })
  else none

/-- `a->parent = p`. -/
def setParent (a : Addr) (p : Ptr) : CM Unit := do
  let n ← readNode a
  writeNode a { n with parent := p }

/-- The string in the key buffer at `p`. -/
def readStr (p : Addr) : CM CString := CM.query fun h => h.strs p

/-- `p = malloc(MAX_KEY_LEN); strcpy(p, key);` -/
def newKey (key : CString) : CM Addr := fun h =>
  if key.strlen < maxKeyLen then
    some (h.brk, { h with strs := Function.update h.strs h.brk (some key), brk := h.brk + 1 })
  else none

/-- `strcpy(p, key)` into the key buffer at `p`. -/
def strcpy (p : Addr) (key : CString) : CM Unit := fun h =>
  if (h.strs p).isSome ∧ key.strlen < maxKeyLen then
    some ((), { h with strs := Function.update h.strs p (some key) })
  else none

/-- `free(p)` of a key buffer. -/
def freeStr : Ptr → CM Unit
  | none => Pure.pure ()
  | some p => fun h =>
      if (h.strs p).isSome then
        some ((), { h with strs := Function.update h.strs p none })
      else none

/-- `free(p)` of a record. -/
def freeRec : Ptr → CM Unit
  | none => Pure.pure ()
  | some p => fun h =>
      if (h.recs p).isSome then
        some ((), { h with recs := Function.update h.recs p none })
      else none

/-- `new_record`. -/
def newRecord (file : FileRef) : CM Addr := fun h =>
  some (h.brk, { h with recs := Function.update h.recs h.brk (some ⟨file⟩), brk := h.brk + 1 })

/-- A node with cleared arrays, as `make_new_node` leaves it. -/
def Node.blank (isLeaf : Bool) : Node :=
  { pointers := List.replicate (maxKeyNum + 1) none
    keys := List.replicate maxKeyNum none
    parent := none
    numKeys := 0
    isLeaf := isLeaf }

/-- `make_new_node` and, with `isLeaf`, `make_new_leaf`. -/
def allocNode (isLeaf : Bool) : CM Addr := fun h =>
  some (h.brk, { h with
    nodes := Function.update h.nodes h.brk (some (Node.blank isLeaf)), brk := h.brk + 1 })

/-- `make_new_node`. -/
def makeNewNode : CM Addr := allocNode false

/-- `make_new_leaf`. -/
def makeNewLeaf : CM Addr := allocNode true

/-- `destroy_node`: the node and its two arrays, not what they point to. -/
def destroyNode (a : Addr) : CM Unit := fun h =>
  if (h.nodes a).isSome then
    some ((), { h with nodes := Function.update h.nodes a none })
  else none

/-- A pointer that is dereferenced. -/
def deref (p : Ptr) : CM Addr := CM.lift p

/-- `n - 1` used as an index or a count, undefined below zero. -/
def pred : Nat → Option Nat
  | 0 => none
  | n + 1 => some n

/-! ### What each cell operation does to the heap -/

theorem readNode_run {h : Heap} {a : Addr} {n : Node} (hn : h.nodes a = some n) :
    readNode a h = some (n, h) := by
  simp [readNode, hn]

theorem writeNode_run {h : Heap} {a : Addr} {m : Node} (n : Node) (hn : h.nodes a = some m) :
    writeNode a n h = some ((), { h with nodes := Function.update h.nodes a (some n) }) := by
  simp [writeNode, hn]

theorem setParent_run {h : Heap} {a : Addr} {n : Node} (p : Ptr) (hn : h.nodes a = some n) :
    setParent a p h = some ((), { h with
      nodes := Function.update h.nodes a (some { n with parent := p }) }) := by
  rw [setParent, CM.bind_run_of (readNode_run hn), writeNode_run _ hn]

theorem readStr_run {h : Heap} {p : Addr} {s : CString} (hs : h.strs p = some s) :
    readStr p h = some (s, h) := by
  simp [readStr, hs]

theorem newKey_run {h : Heap} {key : CString} (hk : key.strlen < maxKeyLen) :
    newKey key h = some (h.brk,
      { h with strs := Function.update h.strs h.brk (some key), brk := h.brk + 1 }) := by
  simp [newKey, hk]

theorem strcpy_run {h : Heap} {p : Addr} {s key : CString} (hs : h.strs p = some s)
    (hk : key.strlen < maxKeyLen) :
    strcpy p key h = some ((), { h with strs := Function.update h.strs p (some key) }) := by
  simp [strcpy, hs, hk]

theorem freeStr_run {h : Heap} {p : Addr} {s : CString} (hs : h.strs p = some s) :
    freeStr (some p) h = some ((), { h with strs := Function.update h.strs p none }) := by
  simp [freeStr, hs]

theorem freeRec_run {h : Heap} {p : Addr} {r : Record} (hr : h.recs p = some r) :
    freeRec (some p) h = some ((), { h with recs := Function.update h.recs p none }) := by
  simp [freeRec, hr]

theorem allocNode_run (isLeaf : Bool) (h : Heap) : allocNode isLeaf h = some (h.brk, { h with
    nodes := Function.update h.nodes h.brk (some (Node.blank isLeaf)), brk := h.brk + 1 }) := rfl

@[simp] theorem deref_some (a : Addr) (h : Heap) : deref (some a) h = some (a, h) := rfl

theorem destroyNode_run {h : Heap} {a : Addr} {n : Node} (hn : h.nodes a = some n) :
    destroyNode a h = some ((), { h with nodes := Function.update h.nodes a none }) := by
  simp [destroyNode, hn]

end Nbfs.BplusTree
