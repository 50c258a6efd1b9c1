import ElasticTranslations.Structures.SlabPool
import Mathlib.Algebra.Ring.Nat

/-! `btree1.c`: insertion into a B+ tree and lookup. Nodes and records come from slabs. A step
that leaves an array, follows a pointer to something else or reads the wrong member of a union
has no result. There is memory for every allocation; `verbose` and `leaf_out`, which only report,
and the `flags` of a record, which nothing uses, are left out. -/
namespace ElasticTranslations.Benchmarks.BTree
open Structures

inductive Ptr where
  | null
  | node (n : Slot)
  | record (r : Slot)
  deriving DecidableEq, Repr

structure Node where
  pointers : List Ptr
  keys : List UInt64
  parent : Option Slot
  isLeaf : Bool
  numKeys : ℕ
  next : Option Slot
  deriving DecidableEq, Repr

/-- The union of a record holds its value, or on the free list a link. -/
inductive Record where
  | value (v : UInt64)
  | next (r : Option Slot)
  deriving DecidableEq, Repr

def Record.link : Record → Option (Option Slot)
  | value _ => none
  | next r => some r

def nodeSlabGrow : ℕ := 2^18

def sizeofNode : ℕ := 48

def nodeLayout : CellLayout Node where
  perSlab := nodeSlabGrow/sizeofNode
  zeroed := ⟨[],[],none,false,0,none⟩
  next nd := some nd.next
  setNext s nd := { nd with next := s }
  perSlab_pos := by decide
  next_setNext _ _ := rfl

def recordSlabGrow : ℕ := 2^18

def sizeofRecord : ℕ := 16

def recordLayout : CellLayout Record where
  perSlab := recordSlabGrow/sizeofRecord
  zeroed := .next none
  next := Record.link
  setNext s _ := .next s
  perSlab_pos := by decide
  next_setNext _ _ := rfl

/-- Nodes and records, with the lists `free_nodes` and `free_recs`. -/
structure Heap where
  nodes : Pool Node
  records : Pool Record

namespace Heap

def empty : Heap := ⟨Pool.empty,Pool.empty⟩

def node (h : Heap) (n : Slot) : Option Node := h.nodes.cells n

def setNode (h : Heap) (n : Slot) (nd : Node) : Heap := { h with nodes := h.nodes.store n nd }

/-- Assignments to members of one node. -/
def update (h : Heap) (n : Slot) (f : Node → Option Node) : Option Heap := do
  let nd ← h.node n
  let nd ← f nd
  return h.setNode n nd

def allocNode (h : Heap) : Option (Slot × Heap) := do
  let (n,nodes) ← nodeLayout.alloc h.nodes
  return (n,{ h with nodes })

def allocRecord (h : Heap) : Option (Slot × Heap) := do
  let (r,records) ← recordLayout.alloc h.records
  return (r,{ h with records })

/-- `r->value = value`. -/
def setValue (h : Heap) (r : Slot) (value : UInt64) : Option Heap := do
  let _ ← h.records.cells r
  return { h with records := h.records.store r (.value value) }

end Heap

def makeRecord (h : Heap) (value : UInt64) : Option (Slot × Heap) := do
  let (r,h) ← h.allocRecord
  let h ← h.setValue r value
  return (r,h)

def makeNode (order : ℕ) (h : Heap) : Option (Slot × Heap) := do
  let (n,h) ← h.allocNode
  let h ← h.update n fun _ => some
    { keys := List.replicate (order-1) 0
      pointers := List.replicate order .null
      isLeaf := false
      numKeys := 0
      parent := none
      next := none }
  return (n,h)

def makeLeaf (order : ℕ) (h : Heap) : Option (Slot × Heap) := do
  let (leaf,h) ← makeNode order h
  let h ← h.update leaf fun nd => some { nd with isLeaf := true }
  return (leaf,h)

def cut (length : ℕ) : ℕ := if length % 2 = 0 then length/2 else length/2+1

lemma cut_le {n : ℕ} : cut n ≤ n := by
  rw [cut]
  split_ifs <;> omega

lemma cut_pos {n : ℕ} (hn : 0 < n) : 0 < cut n := by
  rw [cut]
  split_ifs <;> omega

lemma two_mul_cut_le (n : ℕ) : 2*cut n ≤ n+1 := by
  rw [cut]
  split_ifs <;> omega

/-- The loop goes down at most `fuel` levels. -/
def findLeaf (h : Heap) (key : UInt64) : ℕ → Slot → Option Slot
  | 0,_ => none
  | fuel+1,c => do
    let nd ← h.node c
    if nd.isLeaf then return c
    let i ← scan (fun k => key ≥ k) nd.keys nd.numKeys 0
    match nd.pointers[i]? with
    | some (.node c) => findLeaf h key fuel c
    | _ => none

def find (fuel : ℕ) (h : Heap) (root : Option Slot) (key : UInt64) : Option (Option Slot) :=
  match root with
  | none => some none
  | some root => do
    let leaf ← findLeaf h key fuel root
    let nd ← h.node leaf
    let i ← scan (fun k => k ≠ key) nd.keys nd.numKeys 0
    if i = nd.numKeys then return none
    match nd.pointers[i]? with
    | some (.record r) => return some r
    | some .null => return none
    | _ => none

namespace Node

def setPointer (i : ℕ) (p : Ptr) (nd : Node) : Option Node := do
  let pointers ← write nd.pointers i p
  return { nd with pointers }

/-- One round of the loop that makes room in a leaf. -/
def shiftEntry (i : ℕ) (leaf : Node) : Option Node := do
  let k ← leaf.keys[i-1]?
  let keys ← write leaf.keys i k
  let p ← leaf.pointers[i-1]?
  let pointers ← write leaf.pointers i p
  return { leaf with keys,pointers }

def insertIntoLeaf (key : UInt64) (pointer : Slot) (leaf : Node) : Option Node := do
  let insertionPoint ← scan (fun k => k < key) leaf.keys leaf.numKeys 0
  let leaf ← forDown shiftEntry insertionPoint leaf.numKeys leaf
  let keys ← write leaf.keys insertionPoint key
  let pointers ← write leaf.pointers insertionPoint (.record pointer)
  return { leaf with keys,pointers,numKeys := leaf.numKeys+1 }

/-- One round of the loop that makes room in an internal node. -/
def shiftChild (i : ℕ) (n : Node) : Option Node := do
  let p ← n.pointers[i]?
  let pointers ← write n.pointers (i+1) p
  let k ← n.keys[i-1]?
  let keys ← write n.keys i k
  return { n with keys,pointers }

def insertIntoNode (leftIndex : ℕ) (key : UInt64) (right : Slot) (n : Node) : Option Node := do
  let n ← forDown shiftChild leftIndex n.numKeys n
  let pointers ← write n.pointers (leftIndex+1) (.node right)
  let keys ← write n.keys leftIndex key
  return { n with keys,pointers,numKeys := n.numKeys+1 }

/-- The assignments of `insert_into_new_root` to the members of the root. -/
def setChildren (left : Slot) (key : UInt64) (right : Slot) (root : Node) : Option Node := do
  let keys ← write root.keys 0 key
  let pointers ← write root.pointers 0 (.node left)
  let pointers ← write pointers 1 (.node right)
  return { root with keys,pointers,numKeys := root.numKeys+1,parent := none }

/-- The assignments of `start_new_tree` to the members of the root. -/
def setEntry (order : ℕ) (key : UInt64) (pointer : Slot) (root : Node) : Option Node := do
  let keys ← write root.keys 0 key
  let pointers ← write root.pointers 0 (.record pointer)
  let pointers ← write pointers (order-1) .null
  return { root with keys,pointers,parent := none,numKeys := root.numKeys+1 }

/-- `temp_keys` and `temp_pointers`. -/
structure Temp where
  keys : List UInt64
  pointers : List Ptr

/-- One round of the loop that copies a full leaf. -/
def copyOut (leaf : Node) (i j : ℕ) (temp : Temp) : Option Temp := do
  let k ← leaf.keys[i]?
  let keys ← write temp.keys j k
  let p ← leaf.pointers[i]?
  let pointers ← write temp.pointers j p
  return ⟨keys,pointers⟩

/-- The entries of a full leaf and the new one, in the temporary arrays. -/
def leafTemp (order : ℕ) (key : UInt64) (pointer : Slot) (leaf : Node) : Option Temp := do
  let insertionIndex ← scan (fun k => k < key) leaf.keys (order-1) 0
  let temp ← forGap leaf.copyOut insertionIndex leaf.numKeys 0 0
    ⟨List.replicate (order+1) 0,List.replicate (order+1) .null⟩
  let keys ← write temp.keys insertionIndex key
  let pointers ← write temp.pointers insertionIndex (.record pointer)
  return ⟨keys,pointers⟩

/-- One round of the loops that copy an array of a full internal node. -/
def copyAt {α : Type} (xs : List α) (i j : ℕ) (temp : List α) : Option (List α) := do
  let x ← xs[i]?
  write temp j x

/-- The keys and pointers of a full internal node and the new ones, in the temporary arrays. -/
def nodeTemp (order leftIndex : ℕ) (key : UInt64) (right : Slot) (old : Node) : Option Temp := do
  let pointers ← forGap (copyAt old.pointers) (leftIndex+1) (old.numKeys+1) 0 0
    (List.replicate (order+1) .null)
  let keys ← forGap (copyAt old.keys) leftIndex old.numKeys 0 0 (List.replicate order 0)
  let pointers ← write pointers (leftIndex+1) (.node right)
  let keys ← write keys leftIndex key
  return ⟨keys,pointers⟩

/-- One round of the loops that fill a half from the temporary arrays. -/
def copyIn (temp : Temp) (offset j : ℕ) (nd : Node) : Option Node := do
  let p ← temp.pointers[offset+j]?
  let pointers ← write nd.pointers j p
  let k ← temp.keys[offset+j]?
  let keys ← write nd.keys j k
  return { nd with keys,pointers,numKeys := nd.numKeys+1 }

/-- `n` entries from `offset` on. -/
def fill (temp : Temp) (offset n : ℕ) (nd : Node) : Option Node :=
  forUp (copyIn temp offset) n 0 nd

/-- `n` keys from `offset` on, and the pointers on both sides of them. -/
def fillNode (temp : Temp) (offset n : ℕ) (nd : Node) : Option Node := do
  let nd ← nd.fill temp offset n
  let p ← temp.pointers[offset+n]?
  nd.setPointer n p

/-- The pointers of a leaf behind its entries, but for the last one, are cleared. -/
def clearPointers (order : ℕ) (nd : Node) : Option Node :=
  forUp (fun i nd => nd.setPointer i .null) (order-1-nd.numKeys) nd.numKeys nd

end Node

def getLeftIndex (h : Heap) (parent left : Slot) : Option ℕ := do
  let nd ← h.node parent
  scan (fun p => p ≠ .node left) nd.pointers (nd.numKeys+1) 0

def insertIntoNewRoot (order : ℕ) (h : Heap) (left : Slot) (key : UInt64) (right : Slot) :
    Option (Slot × Heap) := do
  let (root,h) ← makeNode order h
  let h ← h.update root (Node.setChildren left key right)
  let h ← h.update left fun nd => some { nd with parent := some root }
  let h ← h.update right fun nd => some { nd with parent := some root }
  return (root,h)

/-- One round of the loop over the children of a new node. -/
def reparent (newNode : Slot) (i : ℕ) (h : Heap) : Option Heap := do
  let nd ← h.node newNode
  match nd.pointers[i]? with
  | some (.node child) => h.update child fun nd => some { nd with parent := some newNode }
  | _ => none

/-- The new node, the key that goes up and the heap after `old_node` is split. -/
def splitNode (order : ℕ) (h : Heap) (oldNode : Slot) (leftIndex : ℕ) (key : UInt64)
    (right : Slot) : Option (Slot × UInt64 × Heap) := do
  let old ← h.node oldNode
  let temp ← old.nodeTemp order leftIndex key right
  let split := cut order
  let (newNode,h) ← makeNode order h
  let h ← h.update oldNode fun nd => Node.fillNode temp 0 (split-1) { nd with numKeys := 0 }
  let kPrime ← temp.keys[split-1]?
  let h ← h.update newNode (Node.fillNode temp split (order-split))
  let old ← h.node oldNode
  let h ← h.update newNode fun nd => some { nd with parent := old.parent }
  let new ← h.node newNode
  let h ← forUp (reparent newNode) (new.numKeys+1) 0 h
  return (newNode,kPrime,h)

/-- `insert_into_node_after_splitting`, which ends with a call of `insert_into_parent`. -/
def insertIntoNodeAfterSplitting
    (insertIntoParent : Heap → Slot → UInt64 → Slot → Option (Slot × Heap)) (order : ℕ) (h : Heap)
    (oldNode : Slot) (leftIndex : ℕ) (key : UInt64) (right : Slot) : Option (Slot × Heap) := do
  let (newNode,kPrime,h) ← splitNode order h oldNode leftIndex key right
  insertIntoParent h oldNode kPrime newNode

/-- The splits go up at most `fuel` levels. -/
def insertIntoParent (order : ℕ) (root : Slot) :
    ℕ → Heap → Slot → UInt64 → Slot → Option (Slot × Heap)
  | 0,_,_,_,_ => none
  | fuel+1,h,left,key,right => do
    let nd ← h.node left
    match nd.parent with
    | none => insertIntoNewRoot order h left key right
    | some parent =>
      let leftIndex ← getLeftIndex h parent left
      let nd ← h.node parent
      if nd.numKeys < order-1 then
        let h ← h.update parent (Node.insertIntoNode leftIndex key right)
        return (root,h)
      else
        insertIntoNodeAfterSplitting (insertIntoParent order root fuel) order h parent leftIndex
          key right

/-- The new leaf, its first key and the heap after a leaf is split. -/
def splitLeaf (order : ℕ) (h : Heap) (leaf : Slot) (key : UInt64) (pointer : Slot) :
    Option (Slot × UInt64 × Heap) := do
  let (newLeaf,h) ← makeLeaf order h
  let nd ← h.node leaf
  let temp ← nd.leafTemp order key pointer
  let split := cut (order-1)
  let h ← h.update leaf fun nd => Node.fill temp 0 split { nd with numKeys := 0 }
  let h ← h.update newLeaf (Node.fill temp split (order-split))
  let nd ← h.node leaf
  let next ← nd.pointers[order-1]?
  let h ← h.update newLeaf (Node.setPointer (order-1) next)
  let h ← h.update leaf (Node.setPointer (order-1) (.node newLeaf))
  let h ← h.update leaf (Node.clearPointers order)
  let h ← h.update newLeaf (Node.clearPointers order)
  let nd ← h.node leaf
  let h ← h.update newLeaf fun new => some { new with parent := nd.parent }
  let new ← h.node newLeaf
  let newKey ← new.keys[0]?
  return (newLeaf,newKey,h)

def insertIntoLeafAfterSplitting (order fuel : ℕ) (h : Heap) (root leaf : Slot) (key : UInt64)
    (pointer : Slot) : Option (Slot × Heap) := do
  let (newLeaf,newKey,h) ← splitLeaf order h leaf key pointer
  insertIntoParent order root fuel h leaf newKey newLeaf

def startNewTree (order : ℕ) (h : Heap) (key : UInt64) (pointer : Slot) : Option (Slot × Heap) := do
  let (root,h) ← makeLeaf order h
  let h ← h.update root (Node.setEntry order key pointer)
  return (root,h)

structure Tree where
  heap : Heap
  root : Option Slot

def Tree.empty : Tree := ⟨Heap.empty,none⟩

def insertNew (order fuel : ℕ) (t : Tree) (key value : UInt64) : Option (Slot × Heap) := do
  let (pointer,h) ← makeRecord t.heap value
  match t.root with
  | none => startNewTree order h key pointer
  | some root =>
    let leaf ← findLeaf h key fuel root
    let nd ← h.node leaf
    if nd.numKeys < order-1 then
      let h ← h.update leaf (Node.insertIntoLeaf key pointer)
      return (root,h)
    else insertIntoLeafAfterSplitting order fuel h root leaf key pointer

/-- A key that the tree has gets the new value, another one a record of its own. -/
def insert (order fuel : ℕ) (t : Tree) (key value : UInt64) : Option Tree := do
  match ← find fuel t.heap t.root key with
  | some r =>
    let heap ← t.heap.setValue r value
    return { t with heap }
  | none =>
    let (root,heap) ← insertNew order fuel t key value
    return ⟨heap,some root⟩

/-- Insertions one after the other. -/
def insertAll (order fuel : ℕ) (t : Tree) (kvs : List (UInt64 × UInt64)) : Option Tree :=
  kvs.foldlM (fun t kv => insert order fuel t kv.1 kv.2) t

end ElasticTranslations.Benchmarks.BTree
