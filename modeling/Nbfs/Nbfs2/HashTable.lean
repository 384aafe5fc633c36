import Nbfs.Lib.CString
import Nbfs.Lib.Chain
import Mathlib.Data.UInt

set_option autoImplicit false

/-!
# The hash table of NBFS2 (`src/NBFS2/hash_table.h`)

A bucket is a slot of `items` and a list of overflow nodes.  An item belongs to
the one slot or node that points to it and is kept there; the nodes are cells of
a heap whose addresses are never handed out twice, so a freed node stays
invalid.  Reading a node that is not allocated, an index outside the arrays and
a `strcpy` that does not fit its buffer have no result.
-/

namespace Nbfs.Nbfs2

open Nbfs.Lib

/-- `CAPACITY`. -/
def capacity : Nat := 65536

/-- `struct Ht_item`, with the two strings its buffers hold. -/
structure HtItem where
  key : CString
  value : CString
  /-- The value buffer has `valueLen + 1` bytes. -/
  valueLen : Nat
  fits : value.strlen ≤ valueLen

abbrev Addr := Nat

/-- A pointer; `none` is NULL. -/
abbrev Ptr := Option Addr

/-- `struct LinkedList`. -/
abbrev LinkedList := Link Addr HtItem

/-- `struct HashTable` and the overflow nodes on the heap. -/
structure HashTable where
  items : Nat → Option HtItem
  overflowBuckets : Nat → Ptr
  size : Nat
  count : Int
  lists : Addr → Option LinkedList
  brk : Nat

/-- A `char`, which is signed, converted to `unsigned long`. -/
def charToULong (c : UInt8) : UInt64 := c.toInt8.toInt64.toUInt64

/-- `hash_function`. -/
def hashFunction (str : CString) : Nat :=
  ((str.bytes.foldl (fun i c => i + charToULong c) 0) % 65536).toNat

/-- `create_item`. -/
def createItem (key value : CString) : HtItem where
  key := key
  value := value
  valueLen := value.strlen
  fits := le_refl _

/-- `strcpy(item->value, value)`. -/
def HtItem.strcpyValue (item : HtItem) (value : CString) : Option HtItem :=
  if h : value.strlen ≤ item.valueLen then some { item with value := value, fits := h } else none

theorem HtItem.strcpyValue_some {item copy : HtItem} {value : CString}
    (h : item.strcpyValue value = some copy) : copy.key = item.key ∧ copy.value = value := by
  unfold strcpyValue at h
  split at h
  · obtain rfl := Option.some.inj h
    exact ⟨rfl, rfl⟩
  · cases h

/-- `create_table`. -/
def createTable (size : Nat) : HashTable where
  items := fun _ => none
  overflowBuckets := fun _ => none
  size := size
  count := 0
  lists := fun _ => none
  brk := 0

namespace HashTable

/-- `table->items[index]`. -/
def item (t : HashTable) (index : Nat) : Option (Option HtItem) :=
  if index < t.size then some (t.items index) else none

/-- `table->overflow_buckets[index]`. -/
def bucket (t : HashTable) (index : Nat) : Option Ptr :=
  if index < t.size then some (t.overflowBuckets index) else none

/-- `table->items[index] = item`. -/
def setItem (t : HashTable) (index : Nat) (item : Option HtItem) : HashTable :=
  { t with items := Function.update t.items index item }

/-- `table->overflow_buckets[index] = list`. -/
def setBucket (t : HashTable) (index : Nat) (list : Ptr) : HashTable :=
  { t with overflowBuckets := Function.update t.overflowBuckets index list }

/-- `allocate_list`, then the assignments to the node's fields. -/
def allocateList (t : HashTable) (item : HtItem) (next : Ptr) : Addr × HashTable :=
  (t.brk, { t with
    lists := Function.update t.lists t.brk (some ⟨item, next⟩)
    brk := t.brk + 1 })

/-- `list->next = next`. -/
def setNext (t : HashTable) (list : Addr) (next : Ptr) : Option HashTable :=
  (t.lists list).map fun node =>
    { t with lists := Function.update t.lists list (some { node with next := next }) }

/-- `free(list)`. -/
def freeNode (t : HashTable) (list : Addr) : HashTable :=
  { t with lists := Function.update t.lists list none }

end HashTable

/-- `while (temp->next->next) temp = temp->next;` -/
def nextToLast : Nat → HashTable → Addr → Option Addr
  | 0, _, _ => none
  | fuel + 1, t, temp => do
      let node ← t.lists temp
      let next ← node.next
      let following ← t.lists next
      match following.next with
      | none => some temp
      | some _ => nextToLast fuel t next

/-- `linkedlist_insert`. -/
def linkedlistInsert (t : HashTable) (list : Ptr) (item : HtItem) : Option (Ptr × HashTable) :=
  match list with
  | none =>
      let (head, t) := t.allocateList item none
      some (some head, t)
  | some first => do
      let node ← t.lists first
      match node.next with
      | none => do
          let (last, t) := t.allocateList item none
          let t ← t.setNext first (some last)
          some (list, t)
      | some _ => do
          let temp ← nextToLast t.brk t first
          let (last, t) := t.allocateList item none
          let t ← t.setNext temp (some last)
          some (list, t)

/-- `free_linkedlist`. -/
def freeLinkedlist : Nat → HashTable → Ptr → Option HashTable
  | _, t, none => some t
  | 0, _, some _ => none
  | fuel + 1, t, some list => do
      let node ← t.lists list
      freeLinkedlist fuel (t.freeNode list) node.next

/-- `handle_collision`.  A new head keeps in `next` what `malloc` left there. -/
def handleCollision (garbage : Ptr) (t : HashTable) (index : Nat) (item : HtItem) :
    Option HashTable := do
  let head ← t.bucket index
  match head with
  | none =>
      let (head, t) := t.allocateList item garbage
      some (t.setBucket index (some head))
  | some _ => do
      let (list, t) ← linkedlistInsert t head item
      some (t.setBucket index list)

/-- `ht_insert`. -/
def htInsert (garbage : Ptr) (t : HashTable) (key value : CString) : Option HashTable := do
  let item := createItem key value
  let index := hashFunction key
  let current ← t.item index
  match current with
  | none =>
      if t.count = (t.size : Int) then some t
      else some { t.setItem index (some item) with count := t.count + 1 }
  | some current =>
      if CString.strcmp current.key key = 0 then do
        let current ← current.strcpyValue value
        some (t.setItem index (some current))
      else handleCollision garbage t index item

/-- The loop of `ht_search`. -/
def searchLoop : Nat → HashTable → CString → HtItem → Ptr → Option (Option CString)
  | 0, _, _, _, _ => none
  | fuel + 1, t, key, item, head =>
      if CString.strcmp item.key key = 0 then some (some item.value)
      else
        match head with
        | none => some none
        | some list => do
            let node ← t.lists list
            searchLoop fuel t key node.item node.next

/-- `ht_search`. -/
def htSearch (t : HashTable) (key : CString) : Option (Option CString) := do
  let index := hashFunction key
  let item ← t.item index
  let head ← t.bucket index
  match item with
  | none => some none
  | some item => searchLoop (t.brk + 1) t key item head

/-- The item leaves its slot to the head of the overflow list, which is freed. -/
def promoteHead (t : HashTable) (index : Nat) (head : Addr) : Option HashTable := do
  let node ← t.lists head
  let t ← t.setNext head none
  let t := t.setItem index (some (createItem node.item.key node.item.value))
  let t ← freeLinkedlist t.brk t (some head)
  some (t.setBucket index node.next)

/-- The node `curr` is spliced out behind `prev` and freed. -/
def spliceOut (t : HashTable) (index : Nat) (head prev curr : Addr) : Option HashTable := do
  let node ← t.lists curr
  let t ← t.setNext prev node.next
  let t ← t.setNext curr none
  let t ← freeLinkedlist t.brk t (some curr)
  some (t.setBucket index (some head))

/-- The loop of `ht_delete` over the overflow list that starts at `head`. -/
def deleteLoop (index : Nat) (key : CString) (head : Addr) :
    Nat → HashTable → Ptr → Ptr → Option HashTable
  | _, t, none, _ => some t
  | 0, _, some _, _ => none
  | fuel + 1, t, some curr, prev => do
      let node ← t.lists curr
      if CString.strcmp node.item.key key = 0 then
        match prev with
        | none => do
            let t ← freeLinkedlist t.brk t (some head)
            some (t.setBucket index none)
        | some prev => spliceOut t index head prev curr
      else
        -- `curr = curr->next; prev = curr;`: both move to the next node
        deleteLoop index key head fuel t node.next node.next

/-- `ht_delete`. -/
def htDelete (t : HashTable) (key : CString) : Option HashTable := do
  let index := hashFunction key
  let item ← t.item index
  let head ← t.bucket index
  match item with
  | none => some t
  | some item =>
      match head with
      | none =>
          if CString.strcmp item.key key = 0 then
            some { t.setItem index none with count := t.count - 1 }
          else some t
      | some list =>
          if CString.strcmp item.key key = 0 then promoteHead t index list
          else deleteLoop index key list t.brk t (some list) none

/-- An update of the table. -/
inductive Call where
  | insert (key value : CString)
  | delete (key : CString)

/-- Make one call. -/
def Call.run (garbage : Ptr) (t : HashTable) : Call → Option HashTable
  | .insert key value => htInsert garbage t key value
  | .delete key => htDelete t key

/-- Make calls one after the other. -/
def runCalls (garbage : Ptr) (t : HashTable) (calls : List Call) : Option HashTable :=
  calls.foldlM (Call.run garbage) t

end Nbfs.Nbfs2
