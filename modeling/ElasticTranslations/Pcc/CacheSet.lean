import Mathlib.Algebra.Group.Nat.Defs
import Mathlib.Logic.Function.Basic
import ElasticTranslations.Structures.DoublyLinked

/-! One set of the simulated TLBs: an intrusive doubly linked list of cache lines between
two sentinels, a vector of free lines and a map from tags to lines. Every pointer
operation of the source is a separate step on the line objects, and every assertion and
dereference can fail. -/
namespace ElasticTranslations.Pcc
open Structures

/-- How a run of the simulator can go wrong. A loop that is still running after it has
passed more nodes than the set owns is reported as unterminated. -/
inductive Fault
  | assertion
  | nullDereference
  | outOfRange
  | unterminated
  deriving DecidableEq, Repr

/-- The addresses a `CacheLine*` can hold besides null: the two sentinels and the objects
of the `entries` array. -/
inductive LinePtr
  | head
  | tail
  | entry (i : ℕ)
  deriving DecidableEq, Repr

/-- `CacheLine`. A null pointer is `none`; `freq` is an `unsigned short`. -/
structure CacheLine where
  addr : UInt64 := 0
  offset : UInt64 := 0
  prev : Option LinePtr := none
  next : Option LinePtr := none
  dirty : Bool := false
  freq : ℕ := 0
  deriving DecidableEq

def maxFreq : ℕ := 255

/-- The out-parameters of `insert`: they keep their old value unless a line is evicted. -/
structure EvictOut where
  dirtyEvict : Bool := false
  evictedAddr : Int64 := -1
  evictedOffset : UInt64 := 0
  deriving DecidableEq

/-- `CacheSet`. The two fields that only the constructor sets are parameters. The back of
the vector `freeEntries` is the head of the list, and `addrMap t = some none` is a null
entry planted by a lookup with `operator[]`. -/
structure CacheSet (associativity policy : ℕ) where
  lines : LinePtr → CacheLine
  freeEntries : List LinePtr
  addrMap : UInt64 → Option (Option LinePtr)

/-- A pointer that the source dereferences. -/
def deref : Option LinePtr → Except Fault LinePtr
  | none => .error .nullDereference
  | some p => .ok p

/-- A pointer that the source asserts not to be null. -/
def assertNonNull : Option LinePtr → Except Fault LinePtr
  | none => .error .assertion
  | some p => .ok p

namespace CacheSet
variable {associativity policy : ℕ}

/-- The constructor: every line object is free and the sentinels are joined. -/
def new (associativity policy : ℕ) : CacheSet associativity policy where
  lines
    | .head => { next := some .tail }
    | .tail => { prev := some .head }
    | .entry _ => {}
  freeEntries := (List.range associativity).reverse.map .entry
  addrMap _ := none

def modifyLine (cs : CacheSet associativity policy) (p : LinePtr) (f : CacheLine → CacheLine) :
    CacheSet associativity policy :=
  { cs with lines := Function.update cs.lines p (f (cs.lines p)) }

def setNext (cs : CacheSet associativity policy) (p : LinePtr) (v : Option LinePtr) :
    CacheSet associativity policy :=
  cs.modifyLine p fun l => { l with next := v }

def setPrev (cs : CacheSet associativity policy) (p : LinePtr) (v : Option LinePtr) :
    CacheSet associativity policy :=
  cs.modifyLine p fun l => { l with prev := v }

/-- The value of `addr_map[address]`. -/
def find (cs : CacheSet associativity policy) (address : UInt64) : Option LinePtr :=
  (cs.addrMap address).join

/-- The side effect of `addr_map[address]`: a missing key gets a null entry. -/
def touch (cs : CacheSet associativity policy) (address : UInt64) : CacheSet associativity policy :=
  match cs.addrMap address with
  | some _ => cs
  | none => { cs with addrMap := Function.update cs.addrMap address (some none) }

def mapErase (cs : CacheSet associativity policy) (address : UInt64) :
    CacheSet associativity policy :=
  { cs with addrMap := Function.update cs.addrMap address none }

def mapAssign (cs : CacheSet associativity policy) (address : UInt64) (c : LinePtr) :
    CacheSet associativity policy :=
  { cs with addrMap := Function.update cs.addrMap address (some (some c)) }

def deleteNode (cs : CacheSet associativity policy) (c : LinePtr) :
    Except Fault (CacheSet associativity policy) := do
  let _ ← assertNonNull (cs.lines c).next
  let p ← assertNonNull (cs.lines c).prev
  let cs := cs.setNext p (cs.lines c).next
  let n ← deref (cs.lines c).next
  return cs.setPrev n (cs.lines c).prev

def insertFront (cs : CacheSet associativity policy) (c currHead : LinePtr) :
    Except Fault (CacheSet associativity policy) := do
  let cs := cs.setNext c (cs.lines currHead).next
  let cs := cs.setPrev c (some currHead)
  let cs := cs.setNext currHead (some c)
  let n ← deref (cs.lines c).next
  return cs.setPrev n (some c)

/-- The four assignments that `insertHalf` and `insertLFU` end with. -/
def linkBefore (cs : CacheSet associativity policy) (c curr : LinePtr) :
    Except Fault (CacheSet associativity policy) := do
  let cs := cs.setNext c (some curr)
  let cs := cs.setPrev c (cs.lines curr).prev
  let cs := cs.setPrev curr (some c)
  let p ← deref (cs.lines c).prev
  return cs.setNext p (some c)

/-- The scan of `insertHalf`: at most `steps` nodes are passed. -/
def scanHalf (cs : CacheSet associativity policy) : ℕ → Option LinePtr → Except Fault LinePtr
  | 0,curr => deref curr
  | n+1,curr => if curr = some .tail then return .tail else do
      let p ← deref curr
      cs.scanHalf n (cs.lines p).next

def insertHalf (cs : CacheSet associativity policy) (c : LinePtr) :
    Except Fault (CacheSet associativity policy) := do
  let numEntries := associativity - cs.freeEntries.length
  let stop := if numEntries = associativity then associativity/2 else numEntries/2
  let curr ← cs.scanHalf stop (cs.lines .head).next
  cs.linkBefore c curr

/-- The scan of `insertLFU` for the first node whose frequency is not above that of `c`. -/
def scanLFU (cs : CacheSet associativity policy) (c : LinePtr) :
    ℕ → Option LinePtr → Except Fault LinePtr
  | 0,_ => .error .unterminated
  | n+1,curr => do
    let p ← deref curr
    if (cs.lines c).freq < (cs.lines p).freq then cs.scanLFU c n (cs.lines p).next
    else return p

def insertLFU (cs : CacheSet associativity policy) (c : LinePtr) :
    Except Fault (CacheSet associativity policy) := do
  let curr ← cs.scanLFU c (associativity+1) (cs.lines .head).next
  cs.linkBefore c curr

def decayLoop :
    ℕ → Option LinePtr → CacheSet associativity policy →
      Except Fault (CacheSet associativity policy)
  | 0,_,_ => .error .unterminated
  | n+1,c,cs => if c = some .tail then return cs else do
      let p ← deref c
      let cs := cs.modifyLine p fun l => { l with freq := l.freq/2 }
      decayLoop n (cs.lines p).next cs

def decayFreqs (cs : CacheSet associativity policy) :
    Except Fault (CacheSet associativity policy) :=
  decayLoop (associativity+1) (cs.lines .head).next cs

/-- Where `access` puts the line it has unlinked, by policy. -/
def relink (cs : CacheSet associativity policy) (c : LinePtr) :
    Except Fault (CacheSet associativity policy) :=
  if policy = 0 then cs.insertFront c .head
  else if policy = 1 then
    if associativity/2 ≤ (cs.lines c).freq then cs.insertFront c .head else return cs
  else if policy = 2 then cs.insertLFU c
  else return cs

/-- The fields of the line that `access` updates on a hit. -/
def recordHit (cs : CacheSet associativity policy) (c : LinePtr) (offset : UInt64)
    (isLoad : Bool) : CacheSet associativity policy :=
  cs.modifyLine c fun l =>
    { l with
      dirty := if isLoad then l.dirty else true
      offset := offset
      freq := (l.freq+1) % 2^16 }

def decayAtMax (cs : CacheSet associativity policy) (c : LinePtr) :
    Except Fault (CacheSet associativity policy) :=
  if (cs.lines c).freq = maxFreq then cs.decayFreqs else return cs

def access (cs : CacheSet associativity policy) (address offset : UInt64) (isLoad : Bool) :
    Except Fault (Bool × CacheSet associativity policy) :=
  let cs := cs.touch address
  match cs.find address with
  | none => return (false,cs)
  | some c => do
    let cs ← cs.deleteNode c
    let cs ← cs.relink c
    let cs := cs.recordHit c offset isLoad
    let cs ← cs.decayAtMax c
    return (true,cs)

/-- The line an insertion fills: the last linked one, taken off the list, when no line is
free, and the back of `freeEntries` otherwise. -/
def takeLine (cs : CacheSet associativity policy) (out : EvictOut) :
    Except Fault (LinePtr × EvictOut × CacheSet associativity policy) :=
  match cs.freeEntries with
  | [] => do
    let c ← deref (cs.lines .tail).prev
    if c = .head then throw .assertion
    let cs := cs.mapErase (cs.lines c).addr
    let out : EvictOut :=
      ⟨(cs.lines c).dirty,(cs.lines c).addr.toInt64,(cs.lines c).offset⟩
    let cs ← cs.deleteNode c
    return (c,out,cs)
  | c :: rest => return (c,out,{ cs with freeEntries := rest })

/-- Where `insert` links the line it has filled, by policy. -/
def placeNew (cs : CacheSet associativity policy) (c : LinePtr) :
    Except Fault (CacheSet associativity policy) :=
  if policy = 0 then cs.insertFront c .head
  else if policy = 1 then cs.insertHalf c
  else if policy = 2 then cs.insertLFU c
  else return cs

def insert (cs : CacheSet associativity policy) (address offset : UInt64) (isLoad : Bool)
    (out : EvictOut) : Except Fault (EvictOut × CacheSet associativity policy) := do
  let cs := cs.touch address
  let (c,out,cs) ← cs.takeLine out
  let cs := cs.mapAssign address c
  let cs := cs.modifyLine c fun l =>
    { l with addr := address, offset := offset, dirty := !isLoad, freq := 0 }
  let cs ← cs.placeNew c
  return (out,cs)

/-- Returns the dirty bit written to `*dirtyEvict`. -/
def evict (cs : CacheSet associativity policy) (address : UInt64) :
    Except Fault (Bool × CacheSet associativity policy) := do
  let cs := cs.touch address
  let c := cs.find address
  if c = some .head then throw .assertion
  let c ← deref c
  let cs := cs.mapErase (cs.lines c).addr
  let dirty := (cs.lines c).dirty
  let cs ← cs.deleteNode c
  return (dirty,{ cs with freeEntries := c :: cs.freeEntries })

def getFreq (cs : CacheSet associativity policy) (address : UInt64) : Except Fault ℕ := do
  if (cs.addrMap address).isNone then throw .assertion
  let c := cs.find address
  if c = some .head then throw .assertion
  let c ← deref c
  return (cs.lines c).freq

/-- The loop of `flush` deletes the node before the one it has moved on to. -/
def flushLoop :
    ℕ → Option LinePtr → CacheSet associativity policy →
      Except Fault (CacheSet associativity policy)
  | 0,_,_ => .error .unterminated
  | n+1,c,cs => if c = some .tail then return cs else do
      let p ← deref c
      let cs := cs.mapErase (cs.lines p).addr
      let cs := { cs with freeEntries := p :: cs.freeEntries }
      let c ← deref (cs.lines p).next
      let q ← deref (cs.lines c).prev
      let cs ← cs.deleteNode q
      flushLoop n (some c) cs

def flush (cs : CacheSet associativity policy) : Except Fault (CacheSet associativity policy) :=
  flushLoop (associativity+1) (cs.lines .head).next cs

def getSetLoop (cs : CacheSet associativity policy) :
    ℕ → Option LinePtr → Except Fault (List UInt64)
  | 0,_ => .error .unterminated
  | n+1,c => if c = some .tail then return [] else do
      let p ← deref c
      let addresses ← cs.getSetLoop n (cs.lines p).next
      return (cs.lines p).addr :: addresses

/-- The tags that `get_set` appends, from the head of the list to its tail. -/
def getSet (cs : CacheSet associativity policy) : Except Fault (List UInt64) :=
  cs.getSetLoop (associativity+1) (cs.lines .head).next

end CacheSet
end ElasticTranslations.Pcc
