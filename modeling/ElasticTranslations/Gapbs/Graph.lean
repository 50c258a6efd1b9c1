import ElasticTranslations.Structures.ArrayLoops
import Mathlib.Data.Int.Notation

/-! `graph.h`: graphs in compressed rows. Nodes are natural numbers, and the pointers of an index
are the offsets of the rows in the array of neighbors; a read outside of an array has no
result. -/
namespace ElasticTranslations.Gapbs
open Structures

structure CSRGraph where
  directed : Bool
  numNodes : ℕ
  numEdges : ℕ
  outIndex : List ℕ
  outNeighbors : List ℕ
  inIndex : List ℕ
  inNeighbors : List ℕ
  deriving DecidableEq,Repr

/-- `Neighborhood`, from its first entry: `begin() .. end()`. -/
def neighborhood (index : List ℕ) (neighbors : List ℕ) (n : ℕ) :
    Option (List ℕ) := do
  let first ← index[n]?
  let last ← index[n+1]?
  if first ≤ last ∧ last ≤ neighbors.length then
    some ((neighbors.drop first).take (last-first))
  else none

namespace CSRGraph

/-- The constructor for undirected graphs, whose edges stand in the rows of both ends. -/
def undirected (numNodes : ℕ) (index : List ℕ) (neighs : List ℕ) : Option CSRGraph := do
  let first ← index[0]?
  let last ← index[numNodes]?
  some ⟨false,numNodes,(last-first)/2,index,neighs,index,neighs⟩

/-- The constructor for directed graphs. -/
def withInverse (numNodes : ℕ) (outIndex : List ℕ) (outNeighs : List ℕ)
    (inIndex : List ℕ) (inNeighs : List ℕ) : Option CSRGraph := do
  let first ← outIndex[0]?
  let last ← outIndex[numNodes]?
  some ⟨true,numNodes,last-first,outIndex,outNeighs,inIndex,inNeighs⟩

variable (g : CSRGraph)

def numEdgesDirected : ℕ := if g.directed then g.numEdges else 2*g.numEdges

def outDegree (v : ℕ) : Option ℤ := do
  let first ← g.outIndex[v]?
  let last ← g.outIndex[v+1]?
  some ((last : ℤ)-first)

def outNeigh (n : ℕ) : Option (List ℕ) := neighborhood g.outIndex g.outNeighbors n

def inNeigh (n : ℕ) : Option (List ℕ) := neighborhood g.inIndex g.inNeighbors n

def Edge (u v : ℕ) : Prop := ∃ vs,g.outNeigh u = some vs ∧ v ∈ vs

/-- The rows lie in their arrays, and the rows of `in_neigh` are the transposed ones. -/
structure Ok : Prop where
  length_outIndex : g.outIndex.length = g.numNodes+1
  out : ∀ u < g.numNodes,∃ vs,g.outNeigh u = some vs ∧ ∀ v ∈ vs,v < g.numNodes
  into : ∀ v < g.numNodes,∃ us,g.inNeigh v = some us ∧ ∀ u,u ∈ us ↔ g.Edge u v

variable {g} {u v : ℕ} {vs : List ℕ}

lemma outDegree_of_outNeigh (h : g.outNeigh u = some vs) :
    g.outDegree u = some (vs.length : ℤ) := by
  rw [outNeigh,neighborhood] at h
  cases hfirst : g.outIndex[u]? with
  | none => simp [hfirst] at h
  | some first =>
    cases hlast : g.outIndex[u+1]? with
    | none => simp [hfirst,hlast] at h
    | some last =>
      simp only [hfirst,hlast,Option.bind_eq_bind,Option.bind_some] at h
      split_ifs at h with hle
      cases h
      rw [outDegree,hfirst,hlast]
      simp only [Option.bind_eq_bind,Option.bind_some,List.length_take,List.length_drop]
      congr 1
      omega

lemma lt_of_outNeigh (hlen : g.outIndex.length = g.numNodes+1) (h : g.outNeigh u = some vs) :
    u < g.numNodes := by
  by_contra hge
  have hnone : g.outIndex[u+1]? = none := by
    rw [List.getElem?_eq_none_iff,hlen]
    omega
  cases hfirst : g.outIndex[u]? <;> simp [outNeigh,neighborhood,hnone,hfirst] at h

namespace Ok

lemma left_lt (hg : g.Ok) (h : g.Edge u v) : u < g.numNodes := by
  obtain ⟨vs,hvs,-⟩ := h
  exact lt_of_outNeigh hg.length_outIndex hvs

lemma right_lt (hg : g.Ok) (h : g.Edge u v) : v < g.numNodes := by
  obtain ⟨vs,hvs,hv⟩ := h
  obtain ⟨vs',hvs',hlt⟩ := hg.out u (hg.left_lt ⟨vs,hvs,hv⟩)
  rw [hvs] at hvs'
  cases hvs'
  exact hlt v hv

lemma exists_outDegree (hg : g.Ok) (hu : u < g.numNodes) :
    ∃ d : ℕ,g.outDegree u = some (d : ℤ) := by
  obtain ⟨vs,hvs,-⟩ := hg.out u hu
  exact ⟨vs.length,outDegree_of_outNeigh hvs⟩

end Ok

instance (u v : ℕ) : Decidable (g.Edge u v) :=
  decidable_of_iff (∃ vs ∈ g.outNeigh u,v ∈ vs) Iff.rfl

lemma ok_iff : g.Ok ↔ g.outIndex.length = g.numNodes+1 ∧
    (∀ u < g.numNodes,∃ vs ∈ g.outNeigh u,∀ v ∈ vs,v < g.numNodes) ∧
    ∀ v < g.numNodes,∃ us ∈ g.inNeigh v,(∀ u ∈ us,g.Edge u v) ∧
      ∀ u < g.numNodes,g.Edge u v → u ∈ us := by
  constructor
  · intro hg
    refine ⟨hg.length_outIndex,hg.out,fun v hv => ?_⟩
    obtain ⟨us,hus,hmem⟩ := hg.into v hv
    exact ⟨us,hus,fun u => (hmem u).mp,fun u _ => (hmem u).mpr⟩
  · rintro ⟨hlen,hout,hinto⟩
    refine ⟨hlen,hout,fun v hv => ?_⟩
    obtain ⟨us,hus,hedge,hmem⟩ := hinto v hv
    refine ⟨us,hus,fun u => ⟨hedge u,fun h => ?_⟩⟩
    obtain ⟨vs,hvs,hv⟩ := h
    exact hmem u (lt_of_outNeigh hlen hvs) ⟨vs,hvs,hv⟩

instance : Decidable g.Ok := decidable_of_iff _ ok_iff.symm

end CSRGraph

end ElasticTranslations.Gapbs
