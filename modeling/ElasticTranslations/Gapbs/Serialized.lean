import ElasticTranslations.Gapbs.BuiltGraph
import ElasticTranslations.Structures.Numbers

/-! The serialized graphs of `writer.h` and `reader.h`: what `converter` writes to a `.sg` file is
what the benchmark reads from it. Words are those of `int64_t`. -/
namespace ElasticTranslations.Gapbs
open Structures

/-- `VertexOffsets`. -/
def vertexOffsets (numNodes : ℕ) (index : List ℕ) : Option (List ℕ) := do
  let first ← index[0]?
  forUp (fun n offsets => do
    let x ← index[n]?
    if first ≤ x then write offsets n (x-first) else none) (numNodes+1) 0
    (List.replicate (numNodes+1) 0)

/-- `count` neighbors from the first row on. -/
def writtenNeighs (index neighbors : List ℕ) (count : ℕ) : Option (List ℕ) := do
  let first ← index[0]?
  if first+count ≤ neighbors.length then some ((neighbors.drop first).take count) else none

/-- The offsets and the neighbors of one direction. -/
def writeRows (numNodes count : ℕ) (index neighbors : List ℕ) : Option (List Byte) := do
  let offsets ← vertexOffsets numNodes index
  let neighs ← writtenNeighs index neighbors count
  some (offsets.flatMap (toBytes 8)++neighs.flatMap (toBytes 8))

def writeSerializedGraph (g : CSRGraph) : Option (List Byte) := do
  let edgesToWrite := g.numEdgesDirected
  let header := [if g.directed then 1 else 0]++toBytes 8 edgesToWrite++toBytes 8 g.numNodes
  let out ← writeRows g.numNodes edgesToWrite g.outIndex g.outNeighbors
  if g.directed then do
    let into ← writeRows g.numNodes edgesToWrite g.inIndex g.inNeighbors
    some (header++out++into)
  else some (header++out)

/-- The index that `GenIndex` makes, and the neighbors. -/
def readRows (numNodes numEdges : ℕ) (bs : List Byte) :
    Option (List ℕ × List ℕ × List Byte) := do
  let (offsets,bs) ← readWords 8 (numNodes+1) bs
  let (neighs,bs) ← readWords 8 numEdges bs
  some (offsets,neighs,bs)

def readSerializedGraph (bs : List Byte) : Option CSRGraph := do
  let (directed,bs) ← readWord 1 bs
  let (numEdges,bs) ← readWord 8 bs
  let (numNodes,bs) ← readWord 8 bs
  let (index,neighs,bs) ← readRows numNodes numEdges bs
  if directed ≠ 0 then do
    let (invIndex,invNeighs,_) ← readRows numNodes numEdges bs
    CSRGraph.withInverse numNodes index neighs invIndex invNeighs
  else CSRGraph.undirected numNodes index neighs

section Rows
variable {n count : ℕ} {index neighbors : List ℕ}

lemma vertexOffsets_eq (hfirst : index[0]? = some 0) (hlen : index.length = n+1) :
    vertexOffsets n index = some index := by
  obtain ⟨offsets,hloop,hofflen,hat⟩ := forUp_rule (fun k offsets => do
      let x ← index[k]?
      if 0 ≤ x then write offsets k (x-0) else none) (n := n+1) (i := 0)
    (s := List.replicate (n+1) 0)
    (I := fun j offsets => offsets.length = n+1 ∧ ∀ k < j,offsets[k]? = index[k]?)
    ⟨List.length_replicate,by simp⟩ (by
      rintro j offsets - hj ⟨hofflen,hat⟩
      have hx : index[j]? = some index[j] := List.getElem?_eq_getElem (by omega)
      refine ⟨offsets.set j index[j],
        by simp [hx,write_of_lt (show j < offsets.length by omega)],by simpa using hofflen,
        fun k hk => ?_⟩
      by_cases hkj : k = j
      · subst hkj
        rw [List.getElem?_set_self (by omega),hx]
      · rw [List.getElem?_set_ne (Ne.symm hkj)]
        exact hat k (by omega))
  have heq : offsets = index := by
    apply List.ext_getElem?
    intro k
    by_cases hk : k < n+1
    · exact hat k (by omega)
    · rw [List.getElem?_eq_none (by omega),List.getElem?_eq_none (by omega)]
  rw [vertexOffsets,hfirst]
  simp only [Option.bind_eq_bind,Option.bind_some] at hloop ⊢
  rw [hloop,heq]

lemma writeRows_eq (hfirst : index[0]? = some 0) (hlen : index.length = n+1)
    (hcount : neighbors.length = count) :
    writeRows n count index neighbors =
      some (index.flatMap (toBytes 8)++neighbors.flatMap (toBytes 8)) := by
  have hneighs : writtenNeighs index neighbors count = some neighbors := by
    rw [writtenNeighs,hfirst]
    simp [hcount,List.take_of_length_le hcount.le]
  simp [writeRows,vertexOffsets_eq hfirst hlen,hneighs]

lemma readRows_append (hindex : ∀ x ∈ index,x < 256^8) (hneighs : ∀ x ∈ neighbors,x < 256^8)
    (hlen : index.length = n+1) (hcount : neighbors.length = count) (rest : List Byte) :
    readRows n count (index.flatMap (toBytes 8)++neighbors.flatMap (toBytes 8)++rest) =
      some (index,neighbors,rest) := by
  have hread := readWords_append hindex (neighbors.flatMap (toBytes 8)++rest)
  have hread' := readWords_append hneighs rest
  rw [hlen] at hread
  rw [hcount] at hread'
  simp only [readRows,List.append_assoc,hread,hread',Option.bind_eq_bind,Option.bind_some]

end Rows

section Graph
variable {symmetrize transpose : Bool} {el : List (ℕ × ℕ)}

lemma nodup_sortedRow (u : ℕ) : (sortedRow symmetrize transpose el u).Nodup :=
  Finset.sort_nodup _ _

/-- As many edges come in as go out. -/
lemma base_sortedRow (symmetrize transpose : Bool) (el : List (ℕ × ℕ)) :
    base (sortedRow symmetrize transpose el) (maxNode el+1) =
      base (sortedRow symmetrize false el) (maxNode el+1) := by
  cases transpose with
  | false => rfl
  | true =>
    apply base_eq_of_transposed nodup_sortedRow nodup_sortedRow
    · intro u v hv
      have hmem := (mem_sortedRow.mp hv).2
      exact ⟨entries_lt el _ hmem,snd_lt_of_mem_entries hmem⟩
    · intro u v
      rw [mem_sortedRow,mem_sortedRow,mem_entries_swap,ne_comm]

lemma length_entries_le (symmetrize transpose : Bool) (el : List (ℕ × ℕ)) :
    (entries symmetrize transpose el).length ≤ 2*el.length := by
  induction el with
  | nil => simp [entries]
  | cons e el ih =>
    rw [entries,List.flatMap_cons,List.length_append,← entries,List.length_cons]
    cases symmetrize <;> cases transpose <;> simp <;> omega

lemma base_sortedRow_le (symmetrize transpose : Bool) (el : List (ℕ × ℕ)) :
    base (sortedRow symmetrize transpose el) (maxNode el+1) ≤ 2*el.length := by
  rw [← card_pairs nodup_sortedRow]
  calc (pairs (sortedRow symmetrize transpose el) (maxNode el+1)).card
      ≤ (entries symmetrize transpose el).toFinset.card := by
        apply Finset.card_le_card_of_injOn fun p => (p.1,p.2)
        · rintro ⟨u,v⟩ hp
          rw [Finset.mem_coe,List.mem_toFinset]
          exact (mem_sortedRow.mp (mem_pairs.mp hp).2).2
        · rintro ⟨a,b⟩ - ⟨c,d⟩ - heq
          cases heq
          rfl
    _ ≤ (entries symmetrize transpose el).length := List.toFinset_card_le _
    _ ≤ 2*el.length := length_entries_le symmetrize transpose el

/-- What one direction of the graph takes in a file comes back from it. -/
lemma readRows_writeRows (symmetrize transpose : Bool) (hnodes : maxNode el < 2^63)
    (hedges : 2*el.length < 2^63) :
    ∃ bs,writeRows (maxNode el+1) (base (sortedRow symmetrize false el) (maxNode el+1))
        ((List.range (maxNode el+1+1)).map (base (sortedRow symmetrize transpose el)))
        (flatRows (sortedRow symmetrize transpose el) (maxNode el+1)) = some bs ∧
      ∀ rest,readRows (maxNode el+1) (base (sortedRow symmetrize false el) (maxNode el+1))
        (bs++rest) =
          some ((List.range (maxNode el+1+1)).map (base (sortedRow symmetrize transpose el)),
            flatRows (sortedRow symmetrize transpose el) (maxNode el+1),rest) := by
  have hlen : ((List.range (maxNode el+1+1)).map
      (base (sortedRow symmetrize transpose el))).length = maxNode el+1+1 := by simp
  have hcount := base_sortedRow symmetrize transpose el
  have hsmall : (2 : ℕ)^63 ≤ 256^8 := by decide
  refine ⟨_,writeRows_eq (getElem?_map_base (Nat.zero_le _)) hlen hcount,fun rest => ?_⟩
  apply readRows_append _ _ hlen hcount
  · intro x hx
    obtain ⟨u,hu,rfl⟩ := List.mem_map.mp hx
    have hle := base_mono (sortedRow symmetrize transpose el)
      (show u ≤ maxNode el+1 by simpa [Nat.lt_succ_iff] using hu)
    have := base_sortedRow_le symmetrize transpose el
    omega
  · intro v hv
    obtain ⟨u,-,hv⟩ := List.mem_flatMap.mp hv
    have := snd_lt_of_mem_entries (mem_sortedRow.mp hv).2
    omega

lemma sortedRow_symmetrize (el : List (ℕ × ℕ)) :
    sortedRow true true el = sortedRow true false el := by
  funext u
  simp [sortedRow,neighborSet,entries]

/-- The graph that `converter` builds and writes is the one that is read from its file. -/
theorem readSerializedGraph_makeGraph (sched : ℕ → Schedule) (symmetrize : Bool)
    (hnodes : maxNode el < 2^63) (hedges : 2*el.length < 2^63) :
    ∃ bs,(makeGraph sched symmetrize el).bind writeSerializedGraph = some bs ∧
      readSerializedGraph bs = makeGraph sched symmetrize el := by
  rw [makeGraph_eq,Option.bind_some]
  have hsmall : (2 : ℕ)^63 ≤ 256^8 := by decide
  have hbase := base_sortedRow_le symmetrize false el
  have hcount : (graphOf symmetrize el).numEdgesDirected =
      base (sortedRow symmetrize false el) (maxNode el+1) := numEdgesDirected_graphOf symmetrize el
  have hnodesRead := readWord_append (k := 8) (x := maxNode el+1) (by omega)
  have hedgesRead := readWord_append (k := 8)
    (x := base (sortedRow symmetrize false el) (maxNode el+1)) (by omega)
  obtain ⟨out,hout,hreadOut⟩ := readRows_writeRows symmetrize false hnodes hedges
  have hwrite : writeRows (graphOf symmetrize el).numNodes
      (base (sortedRow symmetrize false el) (maxNode el+1)) (graphOf symmetrize el).outIndex
      (graphOf symmetrize el).outNeighbors = some out := hout
  cases symmetrize with
  | true =>
    refine ⟨[0]++toBytes 8 (base (sortedRow true false el) (maxNode el+1))++
      toBytes 8 (maxNode el+1)++out,?_,?_⟩
    · rw [writeSerializedGraph,hcount,hwrite]
      rfl
    · have hread := hreadOut []
      rw [List.append_nil] at hread
      have hflag := readWord_append (k := 1) (x := 0) (by decide)
        (toBytes 8 (base (sortedRow true false el) (maxNode el+1))++
          (toBytes 8 (maxNode el+1)++out))
      rw [show toBytes 1 0 = [0] from rfl] at hflag
      simp only [List.append_assoc,readSerializedGraph,hflag,hedgesRead,hnodesRead,hread,
        Option.bind_eq_bind,Option.bind_some,ne_eq,not_true_eq_false,if_false]
      rw [undirected_eq,graphOf,sortedRow_symmetrize]
      rfl
  | false =>
    obtain ⟨into,hinto,hreadInto⟩ := readRows_writeRows false true hnodes hedges
    refine ⟨[1]++toBytes 8 (base (sortedRow false false el) (maxNode el+1))++
      toBytes 8 (maxNode el+1)++out++into,?_,?_⟩
    · have hwriteInto : writeRows (graphOf false el).numNodes
          (base (sortedRow false false el) (maxNode el+1)) (graphOf false el).inIndex
          (graphOf false el).inNeighbors = some into := hinto
      rw [writeSerializedGraph,hcount,hwrite,hwriteInto]
      rfl
    · have hread := hreadInto []
      rw [List.append_nil] at hread
      have hflag := readWord_append (k := 1) (x := 1) (by decide)
        (toBytes 8 (base (sortedRow false false el) (maxNode el+1))++
          (toBytes 8 (maxNode el+1)++(out++into)))
      rw [show toBytes 1 1 = [1] from rfl] at hflag
      simp only [List.append_assoc,readSerializedGraph,hflag,hedgesRead,hnodesRead,hreadOut,hread,
        Option.bind_eq_bind,Option.bind_some,ne_eq,one_ne_zero,not_false_eq_true,if_true]
      rw [withInverse_eq,graphOf]
      rfl

theorem readSerializedGraph_makeGraph_path :
    ∃ bs,(makeGraph (fun _ => .sequential) true [(0,1),(2,1)]).bind writeSerializedGraph =
        some bs ∧
      readSerializedGraph bs = makeGraph (fun _ => .sequential) true [(0,1),(2,1)] :=
  readSerializedGraph_makeGraph _ true (by decide) (by decide)

end Graph

end ElasticTranslations.Gapbs
