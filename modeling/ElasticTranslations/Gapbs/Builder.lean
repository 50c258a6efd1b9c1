import ElasticTranslations.Gapbs.PrefixSum
import ElasticTranslations.Gapbs.Graph
import Mathlib.Data.List.Destutter

/-! `builder.h`: an edge list becomes a graph in compressed rows. The loops over edges, nodes and
blocks run on several threads, in any order. Node ids index arrays, and edge lists with negative
ones are left out. -/
namespace ElasticTranslations.Gapbs
open Structures

/-- The order in which the iterations of a parallel loop take effect. -/
structure Schedule where
  edges : List (ℕ × ℕ) → List (ℕ × ℕ)
  indices : List ℕ → List ℕ
  edges_perm : ∀ el,(edges el).Perm el
  indices_perm : ∀ is,(indices is).Perm is

/-- The order of the source. -/
def Schedule.sequential : Schedule := ⟨id,id,fun _ => .rfl,fun _ => .rfl⟩

def findMaxNodeID (sched : Schedule) (el : List (ℕ × ℕ)) : ℕ :=
  (sched.edges el).foldl (fun maxSeen e => max (max maxSeen e.1) e.2) 0

/-- The entries of all edges: into which row which node goes. -/
def entries (symmetrize transpose : Bool) (el : List (ℕ × ℕ)) : List (ℕ × ℕ) :=
  el.flatMap fun e =>
    (if symmetrize || (!symmetrize && !transpose) then [(e.1,e.2)] else [])++
      (if symmetrize || (!symmetrize && transpose) then [(e.2,e.1)] else [])

/-- `fetch_and_add(xs[i], 1)`. -/
def fetchAndAdd (xs : List ℕ) (i : ℕ) : Option (ℕ × List ℕ) := do
  let x ← xs[i]?
  let xs ← write xs i (x+1)
  some (x,xs)

def countEntry (degrees : List ℕ) (e : ℕ × ℕ) : Option (List ℕ) := do
  let (_,degrees) ← fetchAndAdd degrees e.1
  some degrees

def countDegrees (sched : Schedule) (numNodes : ℕ) (es : List (ℕ × ℕ)) : Option (List ℕ) :=
  (sched.edges es).foldlM countEntry (List.replicate numNodes 0)

def blockSize : ℕ := 1 <<< 20

/-- `ParallelPrefixSum` with the blocks in the orders of two schedules. -/
def scheduledPrefixSum (first second : Schedule) (degrees : List ℕ) : Option (List ℕ) :=
  let blocks := List.range (numBlocks blockSize degrees)
  parallelPrefixSum blockSize (first.indices blocks) (second.indices blocks) degrees

/-- `neighs[fetch_and_add(offsets[u], 1)] = v`. -/
def placeEdge (s : List ℕ × List ℕ) (e : ℕ × ℕ) : Option (List ℕ × List ℕ) := do
  let (position,offsets) ← fetchAndAdd s.1 e.1
  let neighs ← write s.2 position e.2
  some (offsets,neighs)

/-- The index and the neighbors. `GenIndex` points it at the offsets from before the loop. -/
def makeCSR (sched : ℕ → Schedule) (numNodes : ℕ) (symmetrize transpose : Bool)
    (el : List (ℕ × ℕ)) : Option (List ℕ × List ℕ) := do
  let es := entries symmetrize transpose el
  let degrees ← countDegrees (sched 0) numNodes es
  let offsets ← scheduledPrefixSum (sched 1) (sched 2) degrees
  let total ← offsets[numNodes]?
  let (_,neighs) ← ((sched 3).edges es).foldlM placeEdge (offsets,List.replicate total 0)
  some (offsets,neighs)

def makeGraphFromEL (sched : ℕ → Schedule) (symmetrize : Bool) (el : List (ℕ × ℕ)) :
    Option CSRGraph := do
  let numNodes := findMaxNodeID (sched 0) el+1
  let (index,neighs) ← makeCSR (fun k => sched (k+1)) numNodes symmetrize false el
  if symmetrize then CSRGraph.undirected numNodes index neighs
  else do
    let (invIndex,invNeighs) ← makeCSR (fun k => sched (k+5)) numNodes symmetrize true el
    CSRGraph.withInverse numNodes index neighs invIndex invNeighs

/-- A row without repetitions and self-loops: `std::sort`, `std::unique`, `std::remove`. -/
def squishRow (n : ℕ) (row : List ℕ) : List ℕ :=
  ((row.mergeSort fun a b => decide (a ≤ b)).destutter (· ≠ ·)).filter fun v => v ≠ n

/-- `std::copy` of `count` entries to `start`. -/
def copyRow (row : List ℕ) (count start : ℕ) (ys : List ℕ) : Option (List ℕ) :=
  forUp (fun i ys => do
    let x ← row[i]?
    write ys (start+i) x) count 0 ys

def squishCSR (sched : ℕ → Schedule) (numNodes : ℕ) (neigh : ℕ → Option (List ℕ)) :
    Option (List ℕ × List ℕ) := do
  let nodes := List.range numNodes
  let diffs ← ((sched 0).indices nodes).foldlM (fun diffs n => do
    let diff ← (neigh n).map fun row => (squishRow n row).length
    write diffs n diff) (List.replicate numNodes 0)
  let sqOffsets ← scheduledPrefixSum (sched 1) (sched 2) diffs
  let total ← sqOffsets[numNodes]?
  let sqNeighs ← ((sched 3).indices nodes).foldlM (fun sqNeighs n => do
    let row ← neigh n
    let diff ← diffs[n]?
    let start ← sqOffsets[n]?
    copyRow (squishRow n row) diff start sqNeighs) (List.replicate total 0)
  some (sqOffsets,sqNeighs)

def squishGraph (sched : ℕ → Schedule) (g : CSRGraph) : Option CSRGraph := do
  let (outIndex,outNeighs) ← squishCSR sched g.numNodes g.outNeigh
  if g.directed then do
    let (inIndex,inNeighs) ← squishCSR (fun k => sched (k+4)) g.numNodes g.inNeigh
    CSRGraph.withInverse g.numNodes outIndex outNeighs inIndex inNeighs
  else CSRGraph.undirected g.numNodes outIndex outNeighs

/-- `MakeGraph` from an edge list that was read or generated. -/
def makeGraph (sched : ℕ → Schedule) (symmetrize : Bool) (el : List (ℕ × ℕ)) :
    Option CSRGraph := do
  let g ← makeGraphFromEL sched symmetrize el
  squishGraph (fun k => sched (k+9)) g

end ElasticTranslations.Gapbs
