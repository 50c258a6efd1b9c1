import ElasticTranslations.Gapbs.Frontier

/-! `bfs.cc`: the direction-optimizing search. Its loops run on one thread here. A loop runs out of
fuel when it has no result after that many rounds. -/
namespace ElasticTranslations.Gapbs
open Structures

/-- Division as in C, towards zero, and undefined by zero. -/
def quotient (a b : ℤ) : Option ℤ := if b = 0 then none else some (a.tdiv b)

/-- `compare_and_swap(xs[i], old_val, new_val)`. -/
def compareAndSwap {α : Type} [DecidableEq α] (xs : List α) (i : ℕ) (oldVal newVal : α) :
    Option (Bool × List α) := do
  let x ← xs[i]?
  if x = oldVal then do
    let xs ← write xs i newVal
    some (true,xs)
  else some (false,xs)

/-- The body of the loop of `InitParent`. -/
def initNode (g : CSRGraph) (n : ℕ) (parent : List ℤ) : Option (List ℤ) := do
  let degree ← g.outDegree n
  write parent n (if degree ≠ 0 then -degree else -1)

/-- `InitParent`, over entries that are not initialized. -/
def initParent (g : CSRGraph) : Option (List ℤ) :=
  forUp (initNode g) g.numNodes 0 (List.replicate g.numNodes 0)

/-- The first of the neighbors whose bit is set. -/
def findSet (front : Bitmap) : List ℕ → Option (Option ℕ)
  | [] => some none
  | v :: vs => do
    if ← front.getBit v then some (some v) else findSet front vs

structure BUState where
  parent : List ℤ
  next : Bitmap
  awakeCount : ℤ

/-- The body of the loop of `BUStep`. -/
def buNode (g : CSRGraph) (front : Bitmap) (u : ℕ) (s : BUState) : Option BUState := do
  let p ← s.parent[u]?
  if p < 0 then do
    let vs ← g.inNeigh u
    let found ← findSet front vs
    match found with
    | none => some s
    | some v => do
      let parent ← write s.parent u v
      let next ← s.next.setBit u
      some ⟨parent,next,s.awakeCount+1⟩
  else some s

def buStep (g : CSRGraph) (parent : List ℤ) (front next : Bitmap) : Option BUState :=
  forUp (buNode g front) g.numNodes 0 ⟨parent,next.reset,0⟩

structure TDState where
  parent : List ℤ
  lqueue : QueueBuffer
  queue : SlidingQueue
  scoutCount : ℤ

/-- The body of the inner loop of `TDStep`. -/
def tdEdge (u : ℕ) (s : TDState) (v : ℕ) : Option TDState := do
  let currVal ← s.parent[v]?
  if currVal < 0 then do
    let (swapped,parent) ← compareAndSwap s.parent v currVal u
    if swapped then do
      let (lqueue,queue) ← s.lqueue.pushBack s.queue v
      some ⟨parent,lqueue,queue,s.scoutCount-currVal⟩
    else some { s with parent }
  else some s

def tdNode (g : CSRGraph) (s : TDState) (u : ℕ) : Option TDState := do
  let vs ← g.outNeigh u
  vs.foldlM (tdEdge u) s

def tdStep (g : CSRGraph) (parent : List ℤ) (queue : SlidingQueue) :
    Option (List ℤ × SlidingQueue × ℤ) := do
  let s ← queue.window.foldlM (tdNode g) ⟨parent,⟨[]⟩,queue,0⟩
  let (_,queue) ← s.lqueue.flush s.queue
  some (s.parent,queue,s.scoutCount)

/-- `set_bit_atomic` is `set_bit` on one thread. -/
def queueToBitmap (queue : SlidingQueue) (bm : Bitmap) : Option Bitmap :=
  queue.window.foldlM Bitmap.setBit bm

/-- The body of the loop of `BitmapToQueue`. -/
def pushSet (bm : Bitmap) (n : ℕ) (s : QueueBuffer × SlidingQueue) :
    Option (QueueBuffer × SlidingQueue) := do
  if ← bm.getBit n then s.1.pushBack s.2 n else some s

def bitmapToQueue (g : CSRGraph) (bm : Bitmap) (queue : SlidingQueue) : Option SlidingQueue := do
  let (lqueue,queue) ← forUp (pushSet bm) g.numNodes 0 (⟨[]⟩,queue)
  let (_,queue) ← lqueue.flush queue
  some queue.slideWindow

/-- The last loop of `DOBFS`: nodes that were not reached get `-1`. -/
def clearNode (n : ℕ) (parent : List ℤ) : Option (List ℤ) := do
  let p ← parent[n]?
  if p < -1 then write parent n (-1) else some parent

def clearUnvisited (g : CSRGraph) (parent : List ℤ) : Option (List ℤ) :=
  forUp clearNode g.numNodes 0 parent

/-- The loops of the search, as they run on the threads of the kernel. -/
structure Kernel where
  initParent : CSRGraph → Option (List ℤ)
  buStep : CSRGraph → List ℤ → Bitmap → Bitmap → Option BUState
  tdStep : CSRGraph → List ℤ → SlidingQueue → Option (List ℤ × SlidingQueue × ℤ)
  queueToBitmap : SlidingQueue → Bitmap → Option Bitmap
  bitmapToQueue : CSRGraph → Bitmap → SlidingQueue → Option SlidingQueue
  clearUnvisited : CSRGraph → List ℤ → Option (List ℤ)

/-- On one thread. -/
def Kernel.sequential : Kernel where
  initParent := Gapbs.initParent
  buStep := Gapbs.buStep
  tdStep := Gapbs.tdStep
  queueToBitmap := Gapbs.queueToBitmap
  bitmapToQueue := Gapbs.bitmapToQueue
  clearUnvisited := Gapbs.clearUnvisited

/-- The variables of `DOBFS`. -/
structure Search where
  parent : List ℤ
  queue : SlidingQueue
  front : Bitmap
  curr : Bitmap
  edgesToCheck : ℤ
  scoutCount : ℤ

/-- The `do` loop, with the value of `awake_count` in front of a round. Threads may interleave in
another way in each round, which is why there is a kernel for each of them. -/
def bottomUp (kernel : ℕ → Kernel) (g : CSRGraph) (beta : ℤ) : ℕ → ℤ → Search → Option Search
  | 0,_,_ => none
  | fuel+1,oldAwakeCount,s => do
    let r ← (kernel fuel).buStep g s.parent s.front s.curr
    let s := { s with parent := r.parent,front := r.next,curr := s.front }
    let again ←
      if r.awakeCount ≥ oldAwakeCount then some true
      else do
        let bound ← quotient g.numNodes beta
        some (decide (r.awakeCount > bound))
    if again then bottomUp kernel g beta fuel r.awakeCount s else some s

/-- The `while` loop. -/
def search (kernel : ℕ → ℕ → Kernel) (g : CSRGraph) (alpha beta : ℤ) :
    ℕ → Search → Option Search
  | 0,_ => none
  | fuel+1,s =>
    if s.queue.empty then some s
    else do
      let bound ← quotient s.edgesToCheck alpha
      if s.scoutCount > bound then do
        let front ← (kernel fuel 0).queueToBitmap s.queue s.front
        let awakeCount : ℤ := s.queue.size
        let s ← bottomUp (kernel fuel) g beta (fuel+1) awakeCount
          { s with front,queue := s.queue.slideWindow }
        let queue ← (kernel fuel 0).bitmapToQueue g s.front s.queue
        search kernel g alpha beta fuel { s with queue,scoutCount := 1 }
      else do
        let edgesToCheck := s.edgesToCheck-s.scoutCount
        let (parent,queue,scoutCount) ← (kernel fuel 0).tdStep g s.parent s.queue
        search kernel g alpha beta fuel
          { s with parent,queue := queue.slideWindow,edgesToCheck,scoutCount }

def dobfs (kernel : ℕ → ℕ → Kernel) (g : CSRGraph) (source : ℕ) (alpha beta : ℤ) (fuel : ℕ) :
    Option (List ℤ) := do
  let parent ← (kernel 0 0).initParent g
  let parent ← write parent source source
  let queue ← (SlidingQueue.new g.numNodes).pushBack source
  let scoutCount ← g.outDegree source
  let s ← search kernel g alpha beta fuel {
    parent
    queue := queue.slideWindow
    front := Bitmap.cleared g.numNodes
    curr := Bitmap.cleared g.numNodes
    edgesToCheck := g.numEdgesDirected
    scoutCount }
  (kernel 0 0).clearUnvisited g s.parent

end ElasticTranslations.Gapbs
