import ElasticTranslations.Benchmarks.BTree
import Mathlib.Data.Nat.PSub

/-! `btree1.c`: deletion from a B+ tree. The arrays of a node are freed with it: a node on the
free list has none. Taking 1 from 0 has no result. -/
namespace ElasticTranslations.Benchmarks.BTree
open Structures

namespace Heap

/-- `free(n->keys)` and `free(n->pointers)`. -/
def freeArrays (h : Heap) (n : Slot) : Option Heap :=
  h.update n fun nd => some { nd with keys := [],pointers := [] }

def freeNode (h : Heap) (n : Slot) : Option Heap := do
  let nodes ← nodeLayout.push h.nodes n
  return { h with nodes }

def freeRecord (h : Heap) (r : Slot) : Option Heap := do
  let records ← recordLayout.push h.records r
  return { h with records }

end Heap

namespace Node

def setKey (i : ℕ) (k : UInt64) (nd : Node) : Option Node := do
  let keys ← write nd.keys i k
  return { nd with keys }

/-- The searches for the key and the pointer are not bounded by `num_keys`. -/
def removeEntry (order : ℕ) (key : UInt64) (pointer : Ptr) (n : Node) : Option Node := do
  let i ← n.keys.idxOf? key
  let keys ← forUp moveDown (n.numKeys-(i+1)) (i+1) n.keys
  let numPointers := if n.isLeaf then n.numKeys else n.numKeys+1
  let i ← n.pointers.idxOf? pointer
  let pointers ← forUp moveDown (numPointers-(i+1)) (i+1) n.pointers
  let numKeys ← n.numKeys.ppred
  let n := { n with keys,pointers,numKeys }
  if n.isLeaf then n.clearPointers order
  else forUp (fun i nd => nd.setPointer i .null) (order-(n.numKeys+1)) (n.numKeys+1) n

/-- One round of the loops that append the entries of a node to its neighbor. -/
def appendEntry (n : Node) (at' j : ℕ) (neighbor : Node) : Option Node := do
  let k ← n.keys[j]?
  let keys ← write neighbor.keys (at'+j) k
  let p ← n.pointers[j]?
  let pointers ← write neighbor.pointers (at'+j) p
  return { neighbor with keys,pointers,numKeys := neighbor.numKeys+1 }

/-- A leaf gets the entries of the next one and its link. -/
def absorbLeaf (order : ℕ) (n neighbor : Node) : Option Node := do
  let neighbor ← forUp (appendEntry n neighbor.numKeys) n.numKeys 0 neighbor
  let p ← n.pointers[order-1]?
  neighbor.setPointer (order-1) p

/-- An internal node gets `k_prime` and all of the next one. -/
def absorbNode (kPrime : UInt64) (n neighbor : Node) : Option Node := do
  let at' := neighbor.numKeys+1
  let neighbor ← neighbor.setKey neighbor.numKeys kPrime
  let neighbor ← forUp (appendEntry n at') n.numKeys 0 { neighbor with numKeys := at' }
  let p ← n.pointers[n.numKeys]?
  neighbor.setPointer (at'+n.numKeys) p

/-- Room for an entry in front of the others. -/
def makeRoom (n : Node) : Option Node := do
  let n ← if n.isLeaf then some n
    else do
      let p ← n.pointers[n.numKeys]?
      n.setPointer (n.numKeys+1) p
  forDown shiftEntry 0 n.numKeys n

/-- One round of the loop that moves the entries behind the first one down. -/
def moveEntryDown (i : ℕ) (neighbor : Node) : Option Node := do
  let k ← neighbor.keys[i+1]?
  let keys ← write neighbor.keys i k
  let p ← neighbor.pointers[i+1]?
  let pointers ← write neighbor.pointers i p
  return { neighbor with keys,pointers }

/-- The entries behind the first one move down. -/
def closeFront (isLeaf : Bool) (neighbor : Node) : Option Node := do
  let last ← neighbor.numKeys.ppred
  let neighbor ← forUp moveEntryDown last 0 neighbor
  if isLeaf then return neighbor
  let p ← neighbor.pointers[last+1]?
  neighbor.setPointer last p

end Node

/-- The place of a node in its parent, less 1; `none` stands for -1. -/
def getNeighborIndex (h : Heap) (n : Slot) : Option (Option ℕ) := do
  let nd ← h.node n
  let parent ← nd.parent
  let p ← h.node parent
  let i ← scan (fun q => q ≠ .node n) p.pointers (p.numKeys+1) 0
  if i ≤ p.numKeys then return i.ppred
  none

/-- The root afterwards: none, if the tree is empty now. -/
def adjustRoot (h : Heap) (root : Slot) : Option (Option Slot × Heap) := do
  let nd ← h.node root
  if nd.numKeys > 0 then return (some root,h)
  if nd.isLeaf then
    let h ← h.freeArrays root
    let h ← h.freeNode root
    return (none,h)
  else match (nd.pointers[0]? : Option Ptr) with
    | some (.node newRoot) =>
      let h ← h.update newRoot fun nd => some { nd with parent := none }
      let h ← h.freeArrays root
      let h ← h.freeNode root
      return (some newRoot,h)
    | _ => none

/-- The entries of a node go to its neighbor to the left. -/
def absorb (order : ℕ) (h : Heap) (n neighbor : Slot) (kPrime : UInt64) : Option Heap := do
  let nd ← h.node n
  if nd.isLeaf then h.update neighbor (Node.absorbLeaf order nd)
  else
    let h ← h.update neighbor (Node.absorbNode kPrime nd)
    let h ← h.update n fun nd => some { nd with numKeys := 0 }
    let nb ← h.node neighbor
    forUp (reparent neighbor) (nb.numKeys+1) 0 h

/-- `coalesce_nodes`, which goes on with a call of `delete_entry` for the parent. -/
def coalesceNodes (deleteEntry : Heap → Slot → UInt64 → Ptr → Option (Option Slot × Heap))
    (order : ℕ) (h : Heap) (n neighbor : Slot) (neighborIndex : Option ℕ) (kPrime : UInt64) :
    Option (Option Slot × Heap) := do
  let (n,neighbor) := if neighborIndex.isNone then (neighbor,n) else (n,neighbor)
  let h ← absorb order h n neighbor kPrime
  let nd ← h.node n
  let parent ← nd.parent
  let (root,h) ← deleteEntry h parent kPrime (.node n)
  let h ← h.freeArrays n
  let h ← h.freeNode n
  return (root,h)

/-- `tmp->parent = n` for a child that comes to `n`. -/
def adopt (n : Slot) (child : Ptr) (h : Heap) : Option Heap :=
  match child with
  | .node tmp => h.update tmp fun nd => some { nd with parent := some n }
  | _ => none

/-- The last entry of the neighbor to the left comes to the front of `n`. -/
def borrowFromLeft (h : Heap) (n neighbor : Slot) (kPrimeIndex : ℕ) (kPrime : UInt64) :
    Option Heap := do
  let h ← h.update n Node.makeRoom
  let nd ← h.node n
  let parent ← nd.parent
  let nb ← h.node neighbor
  let last ← nb.numKeys.ppred
  let k ← nb.keys[last]?
  if nd.isLeaf then
    let p ← nb.pointers[last]?
    let h ← h.update n (Node.setPointer 0 p)
    let h ← h.update neighbor (Node.setPointer last .null)
    let h ← h.update n (Node.setKey 0 k)
    h.update parent (Node.setKey kPrimeIndex k)
  else
    let p ← nb.pointers[nb.numKeys]?
    let h ← h.update n (Node.setPointer 0 p)
    let h ← adopt n p h
    let h ← h.update neighbor (Node.setPointer nb.numKeys .null)
    let h ← h.update n (Node.setKey 0 kPrime)
    h.update parent (Node.setKey kPrimeIndex k)

/-- The first entry of the neighbor to the right comes to the end of `n`. -/
def borrowFromRight (h : Heap) (n neighbor : Slot) (kPrimeIndex : ℕ) (kPrime : UInt64) :
    Option Heap := do
  let nd ← h.node n
  let parent ← nd.parent
  let nb ← h.node neighbor
  let k ← nb.keys[0]?
  let p ← nb.pointers[0]?
  let h ← if nd.isLeaf then do
      let h ← h.update n (Node.setKey nd.numKeys k)
      let h ← h.update n (Node.setPointer nd.numKeys p)
      let k ← nb.keys[1]?
      h.update parent (Node.setKey kPrimeIndex k)
    else do
      let h ← h.update n (Node.setKey nd.numKeys kPrime)
      let h ← h.update n (Node.setPointer (nd.numKeys+1) p)
      let h ← adopt n p h
      h.update parent (Node.setKey kPrimeIndex k)
  h.update neighbor (Node.closeFront nd.isLeaf)

def redistributeNodes (h : Heap) (n neighbor : Slot) (neighborIndex : Option ℕ) (kPrimeIndex : ℕ)
    (kPrime : UInt64) : Option Heap := do
  let h ← match neighborIndex with
    | some _ => borrowFromLeft h n neighbor kPrimeIndex kPrime
    | none => borrowFromRight h n neighbor kPrimeIndex kPrime
  let h ← h.update n fun nd => some { nd with numKeys := nd.numKeys+1 }
  h.update neighbor fun nb => do
    let numKeys ← nb.numKeys.ppred
    return { nb with numKeys }

/-- The neighbor of a node, its index and that of the key between the two. -/
def getNeighbor (h : Heap) (n parent : Slot) : Option (Slot × Option ℕ × ℕ × UInt64) := do
  let neighborIndex ← getNeighborIndex h n
  let kPrimeIndex := neighborIndex.getD 0
  let p ← h.node parent
  let kPrime ← p.keys[kPrimeIndex]?
  match p.pointers[neighborIndex.getD 1]? with
  | some (.node neighbor) => return (neighbor,neighborIndex,kPrimeIndex,kPrime)
  | _ => none

/-- The deletions go up at most `fuel` levels. -/
def deleteEntry (order : ℕ) (root : Slot) :
    ℕ → Heap → Slot → UInt64 → Ptr → Option (Option Slot × Heap)
  | 0,_,_,_,_ => none
  | fuel+1,h,n,key,pointer => do
    let h ← h.update n (Node.removeEntry order key pointer)
    if n = root then adjustRoot h root
    else
      let nd ← h.node n
      let minKeys := if nd.isLeaf then cut (order-1) else cut order-1
      if nd.numKeys ≥ minKeys then return (some root,h)
      let parent ← nd.parent
      let (neighbor,neighborIndex,kPrimeIndex,kPrime) ← getNeighbor h n parent
      let nb ← h.node neighbor
      let capacity := if nd.isLeaf then order else order-1
      if nb.numKeys+nd.numKeys < capacity then
        coalesceNodes (deleteEntry order root fuel) order h n neighbor neighborIndex kPrime
      else
        let h ← redistributeNodes h n neighbor neighborIndex kPrimeIndex kPrime
        return (some root,h)

/-- A key that the tree has not leaves it alone. -/
def delete (order fuel : ℕ) (t : Tree) (key : UInt64) : Option Tree := do
  match t.root with
  | none => return t
  | some root =>
    match ← find fuel t.heap t.root key with
    | none => return t
    | some r =>
      let leaf ← findLeaf t.heap key fuel root
      let (root,h) ← deleteEntry order root fuel t.heap leaf key (.record r)
      let heap ← h.freeRecord r
      return ⟨heap,root⟩

end ElasticTranslations.Benchmarks.BTree
