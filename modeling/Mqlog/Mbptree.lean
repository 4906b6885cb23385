/-
  The monotonic B+tree of `mbptree.c`, function by function, over an explicit heap of nodes.

  * A node is a heap record; child, parent and next-leaf links are addresses (`0` is `NULL`).
    `union mbptree_value` is one 64-bit word that holds an address in an internal node (and in the
    slot after the last entry of a leaf) and the caller's value in a leaf slot.
  * `Mbptree.allocs` says which of the coming `calloc`s succeed; once it is exhausted (in particular
    when it is `[]`) every further `calloc` succeeds.
  * A failed `assert`, a read or write through `NULL` or a freed node, and an access outside the
    `branch_factor` slots of a node's `data` array are all `none`.
  * The recursions that follow `parent` or child links carry a fuel argument, and every caller
    starts them with the number of addresses handed out so far.  Running out of it is `none` too, so
    that a theorem that finds a result also shows that the recursion ends.

  An append goes to the last leaf, and refuses a key that is not above the last one.  When the leaf
  is full a new one is linked behind it and hung under the parent of the last one; a parent that is
  full is split, and the new half is hung one level up, until there is room or a new root is made.
  Leaves are never split.

      mbptree_tryappend      the last leaf, its root, the new leaf
      mbptree_append_leaf    the first step of the climb, from the new leaf
      mbptree_append_node    the other steps, from a new inner node
      mbptree_split_node     a full node with a parent: calls mbptree_append_node again
      mbptree_split_root     a full root: ends the climb

  What two functions of the source share is one definition here (`moveHalfAndAdd`, `addToParent`),
  and both are written as that definition applied to their own arguments.

  The lock is the word that the two compare-and-swaps see.  A call of one thread takes it and gives
  it back; what threads do to it is in `TreeLock`.
-/
import Mqlog.Errno
import Mqlog.Lib.Heap

namespace Mqlog

open Lib (Heap)

/-! ## Data model -/

/-- `struct mbptree_data`: one slot of a node. -/
structure Data where
  key : Nat
  value : Nat
deriving DecidableEq, Repr

/-- A slot as `calloc` leaves it. -/
def Data.zero : Data := ⟨0, 0⟩

/-- `struct mbptree_node`. -/
structure Node where
  leaf : Bool
  size : Nat
  parent : Nat
  data : List Data
deriving DecidableEq, Repr

/-- `struct mbptree_lock`. -/
structure Lock where
  exclusiveLock : Nat
  sharedLock : Nat
deriving DecidableEq, Repr

/-- `struct mbptree`, with the nodes it owns and the outcomes of the coming allocations. -/
structure Mbptree where
  branchFactor : Nat
  lock : Lock
  root : Nat
  lastLeaf : Nat
  heap : Heap Node
  allocs : List Bool

/-! ## Access to the fields of a node -/

namespace Node

/-- The node with the key of slot `i` replaced. -/
def withKey (i k : Nat) (n : Node) : Node :=
  { n with data := n.data.modify i fun d => { d with key := k } }

/-- The node with the value of slot `i` replaced. -/
def withValue (i v : Nat) (n : Node) : Node :=
  { n with data := n.data.modify i fun d => { d with value := v } }

/-- `node->data[i].key = k`. -/
def setKey (i k : Nat) (n : Node) : Option Node :=
  if i < n.data.length then some (n.withKey i k) else none

/-- `node->data[i].value = v`. -/
def setValue (i v : Nat) (n : Node) : Option Node :=
  if i < n.data.length then some (n.withValue i v) else none

/-- `node->data[node->size++].key = k`. -/
def pushKey (k : Nat) (n : Node) : Option Node :=
  (n.setKey n.size k).map fun n => { n with size := n.size + 1 }

/-- `node->data[node->size].value = v`. -/
def setLast (v : Nat) (n : Node) : Option Node := n.setValue n.size v

/-- `data = &node->data[node->size++]; data->key = k; data->value = v`. -/
def push (k v : Nat) (n : Node) : Option Node :=
  if n.size < n.data.length then
    some { n with data := n.data.set n.size ⟨k, v⟩, size := n.size + 1 }
  else none

/-- `node->parent = p`. -/
def setParent (p : Nat) (n : Node) : Option Node := some { n with parent := p }

/-- `node->size = s`. -/
def setSize (s : Nat) (n : Node) : Option Node := some { n with size := s }

end Node

namespace Mbptree

/-- Dereference a node pointer. -/
def node (t : Mbptree) (a : Nat) : Option Node := t.heap.get a

/-- Store the record `n` at `a`. -/
def put (t : Mbptree) (a : Nat) (n : Node) : Mbptree := { t with heap := t.heap.set a n }

/-- Read the node at `a`, change it by `f` and write it back. -/
def modify (t : Mbptree) (a : Nat) (f : Node → Option Node) : Option Mbptree := do
  let n ← t.node a
  let n' ← f n
  pure (t.put a n')

/-- `calloc` of one node: `0` (`NULL`) when the allocation fails. -/
def calloc (t : Mbptree) (n : Node) : Nat × Mbptree :=
  match t.allocs with
  | false :: rest => (0, { t with allocs := rest })
  | allocs => (t.heap.next, { t with heap := t.heap.alloc n, allocs := allocs.tail })

end Mbptree

/-! ## Nodes -/

/-- `mbptree_node_full`. -/
def mbptreeNodeFull (t : Mbptree) (a : Nat) : Option Bool := do
  let n ← t.node a
  assert (n.size < t.branchFactor)
  pure (decide (t.branchFactor - 1 ≤ n.size))

/-- `mbptree_create_node`. -/
def mbptreeCreateNode (t : Mbptree) (parent : Nat) : Nat × Mbptree :=
  t.calloc { leaf := false, size := 0, parent := parent,
             data := List.replicate t.branchFactor Data.zero }

/-- `mbptree_create_leaf`. -/
def mbptreeCreateLeaf (t : Mbptree) (parent : Nat) : Nat × Mbptree :=
  t.calloc { leaf := true, size := 0, parent := parent,
             data := List.replicate t.branchFactor Data.zero }

/-- The loop of `mbptree_free_node` over the children `i, i + 1, …` (`r` of them are left). -/
def freeChildren (freeNode : Mbptree → Nat → Option Mbptree) (n : Node) :
    Nat → Nat → Mbptree → Option Mbptree
  | 0, _, t => some t
  | r + 1, i, t => do
    let d ← n.data[i]?
    let t ← if d.value ≠ 0 then freeNode t d.value else some t
    freeChildren freeNode n r (i + 1) t

/-- `mbptree_free_node`: frees a node and its children. -/
def mbptreeFreeNode : Nat → Mbptree → Nat → Option Mbptree
  | 0, _, _ => none
  | fuel + 1, t, a => do
    let n ← t.node a
    let t ← if n.leaf then some t else freeChildren (mbptreeFreeNode fuel) n (n.size + 1) 0 t
    pure { t with heap := t.heap.free a }

/-- `mbptree_midpoint`. -/
def mbptreeMidpoint (t : Mbptree) : Nat := t.branchFactor >>> 1

/-- `mbptree_is_root`. -/
def mbptreeIsRoot (t : Mbptree) (a : Nat) : Option Bool := do
  let n ← t.node a
  pure (decide (n.parent = 0))

/-! ## Splitting -/

/-- The first loop of `mbptree_move_half_node`, from `keyIdx` on (`r` iterations are left). -/
def moveKeys (lhs rhs : Nat) : Nat → Nat → Mbptree → Option Mbptree
  | 0, _, t => some t
  | r + 1, keyIdx, t => do
    let l ← t.node lhs
    let d ← l.data[keyIdx]?
    let t ← t.modify rhs (Node.pushKey d.key)
    let t ← t.modify lhs (Node.setKey keyIdx 0)
    moveKeys lhs rhs r (keyIdx + 1) t

/-- The second loop of `mbptree_move_half_node`: a moved child gets `rhs` as its parent. -/
def moveValues (lhs rhs : Nat) : Nat → Nat → Nat → Mbptree → Option Mbptree
  | 0, _, _, t => some t
  | r + 1, valueIdx, j, t => do
    let l ← t.node lhs
    let d ← l.data[valueIdx]?
    let t ← t.modify rhs (Node.setValue j d.value)
    let t ← t.modify lhs (Node.setValue valueIdx 0)
    let rn ← t.node rhs
    let moved ← rn.data[j]?
    let t ← t.modify moved.value (Node.setParent rhs)
    moveValues lhs rhs r (valueIdx + 1) (j + 1) t

/-- `mbptree_move_half_node`: returns the key between the two halves. -/
def mbptreeMoveHalfNode (t : Mbptree) (lhs rhs : Nat) : Option (Nat × Mbptree) := do
  let l ← t.node lhs
  let r ← t.node rhs
  assert (l.parent = r.parent)
  assert (l.leaf = false)
  assert (r.leaf = false)
  let mid := mbptreeMidpoint t
  let m ← l.data[mid]?
  -- both loops run while their index is below (or at) `lhs->size`
  let t ← moveKeys lhs rhs (l.size - (mid + 1)) (mid + 1) t
  let t ← moveValues lhs rhs (l.size + 1 - (mid + 1)) (mid + 1) 0 t
  let t ← t.modify lhs (Node.setSize mid)
  pure (m.key, t)

/-- What `mbptree_split_root` and `mbptree_split_node` share: half of `lhs` goes to the new node
    `rhs`, and then `child`, with its separator `key`, becomes the last child of `rhs`. -/
def moveHalfAndAdd (t : Mbptree) (lhs rhs key child : Nat) : Option (Nat × Mbptree) := do
  let (midKey, t) ← mbptreeMoveHalfNode t lhs rhs
  let t ← t.modify rhs (Node.pushKey key)
  let t ← t.modify rhs (Node.setLast child)
  let t ← t.modify child (Node.setParent rhs)
  pure (midKey, t)

/-- `mbptree_split_root`: the new root, or `NULL` when an allocation fails. -/
def mbptreeSplitRoot (t : Mbptree) (root key child : Nat) : Option (Nat × Mbptree) := do
  assert (t.root = root)
  let (newRoot, t) := mbptreeCreateNode t 0
  if newRoot = 0 then pure (0, t) else do
  let (newNode, t) := mbptreeCreateNode t newRoot
  if newNode = 0 then pure (0, t) else do
  let t ← t.modify root (Node.setParent newRoot)
  let (midKey, t) ← moveHalfAndAdd t root newNode key child
  -- fix the nodes
  let t ← t.modify newRoot (Node.setLast root)
  let t ← t.modify newRoot (Node.pushKey midKey)
  let t ← t.modify newRoot (Node.setLast newNode)
  pure (newRoot, { t with root := newRoot })

/-- How both `mbptree_append_node` and `mbptree_append_leaf` hang the node `child`, with its
    separator `key`, under `parent`: the value is the root of the tree. -/
def addToParent (splitNode : Mbptree → Nat → Nat → Nat → Option (Nat × Mbptree))
    (t : Mbptree) (parent key child : Nat) : Option (Nat × Mbptree) := do
  if (← mbptreeNodeFull t parent) = false then
    let t ← t.modify parent (Node.pushKey key)
    let t ← t.modify parent (Node.setLast child)
    pure (t.root, t)
  else if (← mbptreeIsRoot t parent) then
    mbptreeSplitRoot t parent key child
  else
    splitNode t parent key child

mutual

/-- `mbptree_append_node`. -/
def mbptreeAppendNode : Nat → Mbptree → Nat → Nat → Option (Nat × Mbptree)
  | 0, _, _, _ => none
  | fuel + 1, t, key, a => do
    let n ← t.node a
    assert (n.parent ≠ 0)
    addToParent (mbptreeSplitNode fuel) t n.parent key a

/-- `mbptree_split_node`. -/
def mbptreeSplitNode : Nat → Mbptree → Nat → Nat → Nat → Option (Nat × Mbptree)
  | 0, _, _, _, _ => none
  | fuel + 1, t, parent, key, child => do
    assert ((← mbptreeNodeFull t parent) = true)
    assert ((← mbptreeIsRoot t parent) = false)
    let p ← t.node parent
    let (newParent, t) := mbptreeCreateNode t p.parent
    if newParent = 0 then pure (0, t) else do
    let (midKey, t) ← moveHalfAndAdd t parent newParent key child
    mbptreeAppendNode fuel t midKey newParent

end

/-! ## Appending -/

/-- `mbptree_append_leaf`: links the populated leaf `newLeaf` into the internal nodes. -/
def mbptreeAppendLeaf (t : Mbptree) (newLeaf : Nat) : Option (Nat × Mbptree) := do
  let last ← t.node t.lastLeaf
  let new ← t.node newLeaf
  assert (t.lastLeaf ≠ newLeaf)
  assert (last.size = t.branchFactor - 1)
  let link ← last.data[last.size]?
  assert (link.value = newLeaf)
  assert (last.parent = new.parent)
  let first ← new.data[0]?
  let (root, t) ← addToParent (mbptreeSplitNode t.heap.next) t last.parent first.key newLeaf
  pure (root, { t with lastLeaf := newLeaf })

/-- `mbptree_new_leaf`: allocates the next leaf and links it behind `leaf`. -/
def mbptreeNewLeaf (t : Mbptree) (leaf : Nat) : Option (Nat × Mbptree) := do
  let n ← t.node leaf
  assert (n.leaf = true)
  let (newLeaf, t) := mbptreeCreateLeaf t n.parent
  if newLeaf = 0 then pure (0, t) else do
  let t ← t.modify leaf (Node.setLast newLeaf)
  pure (newLeaf, t)

/-- `mbptree_tryappend`, from the point where the last leaf is known to be full. -/
def mbptreeTryappendFull (t : Mbptree) (key value : Nat) : Option (Int × Mbptree) := do
  let leaf := t.lastLeaf
  let isRoot ← mbptreeIsRoot t leaf
  -- create a new root if the leaf is the root
  let (newRoot, t) := if isRoot then mbptreeCreateNode t 0 else (0, t)
  if isRoot ∧ newRoot = 0 then pure (ELALLC, t) else do
  let t ← if isRoot then t.modify leaf (Node.setParent newRoot) else some t
  let (newLeaf, t) ← mbptreeNewLeaf t leaf
  if newLeaf = 0 then do
    let t ← t.modify leaf (Node.setParent 0)
    let t ← mbptreeFreeNode t.heap.next t newRoot
    pure (ELALLC, t)
  else do
  let t ← t.modify newLeaf (Node.push key value)
  if newRoot ≠ 0 then do
    let first ← (← t.node newLeaf).data[0]?
    let t ← t.modify newRoot (Node.push first.key leaf)
    let t ← t.modify newRoot (Node.setLast newLeaf)
    pure (0, { t with lastLeaf := newLeaf, root := newRoot })
  else do
    let (newRoot, t) ← mbptreeAppendLeaf t newLeaf
    if newRoot = 0 then pure (ELIDXPC, t)
    else pure (0, { t with root := newRoot })

/-- `mbptree_tryappend`. -/
def mbptreeTryappend (t : Mbptree) (key value : Nat) : Option (Int × Mbptree) := do
  let leaf ← t.node t.lastLeaf
  let tooLow ←
    if 0 < leaf.size then do
      let d ← leaf.data[leaf.size - 1]?
      pure (decide (key ≤ d.key))
    else pure false
  if tooLow then pure (ELIDXNM, t)
  else if (← mbptreeNodeFull t t.lastLeaf) = false then do
    let t ← t.modify t.lastLeaf (Node.push key value)
    pure (0, t)
  else mbptreeTryappendFull t key value

/-- `mbptree_init`: `none` is the `NULL` returned when one of its two allocations fails. -/
def mbptreeInit (branchFactor : Nat) (allocs : List Bool) : Option Mbptree :=
  match allocs with
  | false :: _ => none
  | allocs =>
    let t : Mbptree := { branchFactor := branchFactor, lock := ⟨0, 0⟩, root := 0, lastLeaf := 0,
                         heap := Heap.empty, allocs := allocs.tail }
    match mbptreeCreateLeaf t 0 with
    | (0, _) => none
    | (node, t) => some { t with root := node, lastLeaf := node }

/-! ## The lock words

  The lock is one 64-bit word of two 32-bit fields.  An appender takes it from `(0, 0)` to `(1, 0)`
  and stores `(0, 0)` back; a reader adds one to `shared_lock` by a compare-and-swap whose two words
  are built from an earlier read of the lock, and subtracts one again. -/

/-- The free lock: `old_val` of `mbptree_append`. -/
def lockFree : Lock := ⟨0, 0⟩

/-- `new_val` of `mbptree_append`. -/
def lockExclusive : Lock := ⟨1, 0⟩

/-- `expected_val` of `mbptree_leaf_floor`, for the snapshot `old`. -/
def floorExpected (old : Lock) : Lock := { old with exclusiveLock := 0 }

/-- `new_val` of `mbptree_leaf_floor`, for the snapshot `old`. -/
def floorNew (old : Lock) : Lock := { old with sharedLock := (old.sharedLock + 1) % 2 ^ 32 }

/-- `--tree->lock.value.shared_lock`. -/
def floorRelease (l : Lock) : Lock :=
  { l with sharedLock := (l.sharedLock + (2 ^ 32 - 1)) % 2 ^ 32 }

/-- `mbptree_free`. -/
def mbptreeFree (t : Mbptree) : Option (Int × Mbptree) := do
  let t ← mbptreeFreeNode t.heap.next t t.root
  pure (0, t)

/-- `mbptree_append`. -/
def mbptreeAppend (t : Mbptree) (key value : Nat) : Option (Int × Mbptree) :=
  if t.lock ≠ lockFree then some (ELIDXLK, t)
  else do
    let (rc, t) ← mbptreeTryappend { t with lock := lockExclusive } key value
    pure (rc, { t with lock := lockFree })

/-! ## Reading -/

/-- `mbptree_last_value`: `none` inside the result is the return code `-1`. -/
def mbptreeLastValue (t : Mbptree) : Option (Option Nat) := do
  let last ← t.node t.lastLeaf
  if last.size = 0 then pure none
  else do
    let d ← last.data[last.size - 1]?
    pure (some d.value)

/-- The loop of `mbptree_find_leaf`: the first `i` whose key is above `key`, else `node->size`. -/
def findChild (n : Node) (key : Nat) : Nat → Nat → Option Nat
  | 0, i => some i
  | r + 1, i => do
    let d ← n.data[i]?
    if key < d.key then pure i else findChild n key r (i + 1)

/-- `mbptree_find_leaf`. -/
def mbptreeFindLeaf (t : Mbptree) (key : Nat) : Nat → Nat → Option Nat
  | 0, _ => none
  | fuel + 1, a => do
    let n ← t.node a
    if n.leaf then pure a
    else do
      let i ← findChild n key n.size 0
      let d ← n.data[i]?
      mbptreeFindLeaf t key fuel d.value

/-- `struct mbptree_leaf_iterator`: `leaf` is `0` (`NULL`) when the iterator is exhausted. -/
structure LeafIterator where
  idx : Nat
  leaf : Nat
deriving DecidableEq, Repr

/-- The loop of `mbptree_leaf_floor` over a leaf's slots; `idx` is the best one so far. -/
def floorIdx (n : Node) (key : Nat) : Nat → Nat → Option Nat → Option (Option Nat)
  | 0, _, idx => some idx
  | r + 1, i, idx => do
    let d ← n.data[i]?
    if d.key ≤ key then floorIdx n key r (i + 1) (some i) else pure idx

/-- `mbptree_leaf_floor`: the return code, and the iterator when the code is `0`. -/
def mbptreeLeafFloor (t : Mbptree) (key : Nat) : Option (Int × Option LeafIterator × Mbptree) :=
  match t.allocs with
  | false :: rest => some (ELALLC, none, { t with allocs := rest })
  | allocs =>
    let t := { t with allocs := allocs.tail }
    let old := t.lock
    if t.lock ≠ floorExpected old then some (ELIDXLK, none, t)
    else do
      let t := { t with lock := floorNew old }
      let leaf ← mbptreeFindLeaf t key t.heap.next t.root
      let t := { t with lock := floorRelease t.lock }
      let n ← t.node leaf
      match ← floorIdx n key n.size 0 none with
      | none => pure (0, some ⟨0, 0⟩, t)
      | some idx => pure (0, some ⟨idx, leaf⟩, t)

/-- `mbptree_leaf_first`. -/
def mbptreeLeafFirst (t : Mbptree) : Option (Int × Option LeafIterator × Mbptree) :=
  mbptreeLeafFloor t 0

/-- `mbptree_leaf_iterator_valid`. -/
def mbptreeLeafIteratorValid (t : Mbptree) (it : LeafIterator) : Option Bool :=
  if it.leaf = 0 then some false
  else do
    let n ← t.node it.leaf
    pure (decide (it.idx < n.size))

/-- `mbptree_leaf_iterator_key`. -/
def mbptreeLeafIteratorKey (t : Mbptree) (it : LeafIterator) : Option Nat := do
  let n ← t.node it.leaf
  let d ← n.data[it.idx]?
  pure d.key

/-- `mbptree_leaf_iterator_value`. -/
def mbptreeLeafIteratorValue (t : Mbptree) (it : LeafIterator) : Option Nat := do
  let n ← t.node it.leaf
  let d ← n.data[it.idx]?
  pure d.value

/-- `mbptree_leaf_iterator_next`. -/
def mbptreeLeafIteratorNext (t : Mbptree) (it : LeafIterator) : Option LeafIterator := do
  let n ← t.node it.leaf
  let nextIdx := it.idx + 1
  assert (nextIdx ≤ n.size)
  if nextIdx = n.size then do
    let d ← n.data[n.size]?
    pure { idx := 0, leaf := d.value }
  else pure { it with idx := nextIdx }

end Mqlog
