import ElasticTranslations.Gapbs.Builder
import Mathlib.Data.Finset.Sort

/-! The graph that is built has the neighbors of each node in ascending order, without repetitions
and self-loops, in whatever order the threads come to the edges. -/
namespace ElasticTranslations.Gapbs
open Structures

/-- The nodes that entries put into row `u`, in their order. -/
def rowOf (es : List (ℕ × ℕ)) (u : ℕ) : List ℕ := (es.filter fun e => e.1 = u).map Prod.snd

section Rows
variable {es : List (ℕ × ℕ)} {e : ℕ × ℕ} {u n : ℕ}

lemma rowOf_append (es es' : List (ℕ × ℕ)) (u : ℕ) :
    rowOf (es++es') u = rowOf es u++rowOf es' u := by
  simp [rowOf]

lemma rowOf_cons_self (e : ℕ × ℕ) (es : List (ℕ × ℕ)) :
    rowOf (e :: es) e.1 = e.2 :: rowOf es e.1 := by
  simp [rowOf]

lemma rowOf_cons_of_ne (h : e.1 ≠ u) (es : List (ℕ × ℕ)) : rowOf (e :: es) u = rowOf es u := by
  simp [rowOf,h]

lemma rowOf_concat_self (es : List (ℕ × ℕ)) (e : ℕ × ℕ) :
    rowOf (es++[e]) e.1 = rowOf es e.1++[e.2] := by
  rw [rowOf_append,rowOf_cons_self]
  rfl

lemma rowOf_concat_of_ne (h : e.1 ≠ u) (es : List (ℕ × ℕ)) : rowOf (es++[e]) u = rowOf es u := by
  rw [rowOf_append,rowOf_cons_of_ne h]
  exact List.append_nil _

lemma rowOf_perm {es' : List (ℕ × ℕ)} (h : es.Perm es') (u : ℕ) :
    (rowOf es u).Perm (rowOf es' u) := (h.filter _).map _

lemma mem_rowOf {v : ℕ} : v ∈ rowOf es u ↔ (u,v) ∈ es := by
  simp [rowOf]

lemma fetchAndAdd_eq {xs : List ℕ} {i x : ℕ} (hx : xs[i]? = some x) :
    fetchAndAdd xs i = some (x,xs.set i (x+1)) := by
  have hi : i < xs.length := (List.getElem?_eq_some_iff.mp hx).1
  simp [fetchAndAdd,hx,write_of_lt hi]

lemma countDegrees_eq (sched : Schedule) (hes : ∀ e ∈ es,e.1 < n) :
    countDegrees sched n es = some ((List.range n).map fun u => (rowOf es u).length) := by
  have hperm := sched.edges_perm es
  obtain ⟨degrees,hdegrees,hlen,hat⟩ := foldlM_rule countEntry (l := sched.edges es)
    (s := List.replicate n 0)
    (I := fun pre degrees => degrees.length = n ∧
      ∀ u < n,degrees[u]? = some (rowOf pre u).length)
    ⟨List.length_replicate,fun u hu => by
      rw [List.getElem?_replicate,if_pos hu]
      rfl⟩ (by
      rintro pre e post degrees heq ⟨hlen,hat⟩
      have he : e.1 < n := hes e (hperm.subset (by rw [heq]; simp))
      refine ⟨degrees.set e.1 ((rowOf pre e.1).length+1),?_,by simpa using hlen,fun u hu => ?_⟩
      · simp [countEntry,fetchAndAdd_eq (hat e.1 he)]
      rw [rowOf_append]
      by_cases hue : e.1 = u
      · subst hue
        rw [List.getElem?_set_self (by omega),rowOf_cons_self,List.length_append]
        rfl
      · rw [List.getElem?_set_ne hue,hat u hu,rowOf_cons_of_ne hue,List.length_append]
        rfl)
  rw [countDegrees,hdegrees]
  congr 1
  apply List.ext_getElem?
  intro u
  rw [List.getElem?_map]
  by_cases hu : u < n
  · rw [hat u hu,List.getElem?_range hu,(rowOf_perm hperm u).length_eq]
    rfl
  · rw [List.getElem?_eq_none (by omega),List.getElem?_eq_none (by simpa using hu)]
    rfl

lemma scheduledPrefixSum_eq (first second : Schedule) (rows : ℕ → List ℕ) (n : ℕ) :
    scheduledPrefixSum first second ((List.range n).map fun u => (rows u).length) =
      some ((List.range (n+1)).map (base rows)) := by
  rw [scheduledPrefixSum,parallelPrefixSum_eq (by decide) (first.indices_perm _)
    (second.indices_perm _),offsets_lengths]

lemma getElem?_map_base {rows : ℕ → List ℕ} (hu : u ≤ n) :
    ((List.range (n+1)).map (base rows))[u]? = some (base rows u) := by
  rw [List.getElem?_map,List.getElem?_range (by omega)]
  rfl

lemma base_congr {rows rows' : ℕ → List ℕ} (h : ∀ u,(rows u).length = (rows' u).length) :
    base rows = base rows' := by
  funext n
  induction n with
  | zero => rfl
  | succ n ih => rw [base_succ,base_succ,ih,h]

/-- An entry moves the offset of its row. -/
lemma offset_set {offsets : List ℕ} {pre : List (ℕ × ℕ)} {first : ℕ → ℕ} (he : e.1 < n)
    (h : ∀ u < n,offsets[u]? = some (first u+(rowOf pre u).length)) (hu : u < n) :
    (offsets.set e.1 (first e.1+(rowOf pre e.1).length+1))[u]? =
      some (first u+(rowOf (pre++[e]) u).length) := by
  have hlt : e.1 < offsets.length := (List.getElem?_eq_some_iff.mp (h e.1 he)).1
  by_cases hue : e.1 = u
  · subst hue
    rw [List.getElem?_set_self hlt,rowOf_concat_self,List.length_append]
    rfl
  · rw [List.getElem?_set_ne hue,h u hu,rowOf_concat_of_ne hue]

/-- The offsets and neighbors, when the entries `pre` have been placed. -/
structure RowsFilled (n : ℕ) (es pre : List (ℕ × ℕ)) (s : List ℕ × List ℕ) : Prop where
  offsets_length : s.1.length = n+1
  offset : ∀ u < n,s.1[u]? = some (base (rowOf es) u+(rowOf pre u).length)
  neighs_length : s.2.length = base (rowOf es) n
  neigh : ∀ u < n,∀ k < (rowOf pre u).length,s.2[base (rowOf es) u+k]? = (rowOf pre u)[k]?

namespace RowsFilled
variable {es pre post : List (ℕ × ℕ)} {e : ℕ × ℕ} {s : List ℕ × List ℕ}

lemma start (es : List (ℕ × ℕ)) :
    RowsFilled n es [] ((List.range (n+1)).map (base (rowOf es)),
      List.replicate (base (rowOf es) n) 0) :=
  ⟨by simp,fun u hu => getElem?_map_base hu.le,by simp,
    fun u _ k hk => absurd hk (Nat.not_lt_zero k)⟩

lemma length_lt (heq : es = pre++e :: post) : (rowOf pre e.1).length < (rowOf es e.1).length := by
  rw [heq,rowOf_append,rowOf_cons_self,List.length_append,List.length_cons]
  omega

/-- An entry goes to the end of its row, where its neighbor was not yet. -/
lemma neigh_set (h : RowsFilled n es pre s) (heq : es = pre++e :: post) (he : e.1 < n) (hu : u < n)
    {k : ℕ} (hk : k < (rowOf (pre++[e]) u).length) :
    (s.2.set (base (rowOf es) e.1+(rowOf pre e.1).length) e.2)[base (rowOf es) u+k]? =
      (rowOf (pre++[e]) u)[k]? := by
  have hlong := length_lt heq
  have hfit := base_add_le (rowOf es) he
  have hlen := h.neighs_length
  by_cases hue : e.1 = u
  · subst hue
    rw [rowOf_concat_self] at hk ⊢
    rw [List.length_append,List.length_singleton] at hk
    by_cases hlast : k = (rowOf pre e.1).length
    · subst hlast
      rw [List.getElem?_set_self (by omega),List.getElem?_concat_length]
    · rw [List.getElem?_set_ne (by omega),List.getElem?_append_left (by omega)]
      exact h.neigh e.1 hu k (by omega)
  · rw [rowOf_concat_of_ne hue] at hk ⊢
    have hkes : k < (rowOf es u).length := by
      rw [heq,rowOf_append,rowOf_cons_of_ne hue,List.length_append]
      omega
    rw [List.getElem?_set_ne]
    · exact h.neigh u hu k hk
    · intro hsame
      exact hue (base_add_inj hlong hkes hsame).1

lemma step (h : RowsFilled n es pre s) (heq : es = pre++e :: post) (he : e.1 < n) :
    ∃ s',placeEdge s e = some s' ∧ RowsFilled n es (pre++[e]) s' := by
  have hlong := length_lt heq
  have hfit := base_add_le (rowOf es) he
  have hlen := h.neighs_length
  have hw : write s.2 (base (rowOf es) e.1+(rowOf pre e.1).length) e.2 =
      some (s.2.set (base (rowOf es) e.1+(rowOf pre e.1).length) e.2) :=
    write_of_lt (by omega) _
  refine ⟨(s.1.set e.1 (base (rowOf es) e.1+(rowOf pre e.1).length+1),
    s.2.set (base (rowOf es) e.1+(rowOf pre e.1).length) e.2),?_,by simpa using h.offsets_length,
    fun u hu => offset_set he h.offset hu,by simpa using hlen,
    fun u hu k hk => h.neigh_set heq he hu hk⟩
  simp [placeEdge,fetchAndAdd_eq (h.offset e.1 he),hw]

end RowsFilled

/-- The loop that places the entries fills each row in the order in which its entries came. -/
lemma placeEdges_eq (es : List (ℕ × ℕ)) (hes : ∀ e ∈ es,e.1 < n) {total : ℕ}
    (htotal : total = base (rowOf es) n) :
    ∃ offsets,es.foldlM placeEdge
      ((List.range (n+1)).map (base (rowOf es)),List.replicate total 0) =
        some (offsets,flatRows (rowOf es) n) := by
  subst htotal
  obtain ⟨⟨offs,neighs⟩,hfold,hfilled⟩ := foldlM_rule placeEdge (l := es) (I := RowsFilled n es)
    (.start es) fun pre e post s heq h => h.step heq (hes e (by rw [heq]; simp))
  exact ⟨offs,by rw [hfold,← eq_flatRows hfilled.neighs_length hfilled.neigh]⟩

/-- The rows hold the entries in the order in which the threads placed them. -/
lemma makeCSR_eq (sched : ℕ → Schedule) (symmetrize transpose : Bool) {el : List (ℕ × ℕ)}
    (hes : ∀ e ∈ entries symmetrize transpose el,e.1 < n) :
    ∃ rows : ℕ → List ℕ,(∀ u,(rows u).Perm (rowOf (entries symmetrize transpose el) u)) ∧
      makeCSR sched n symmetrize transpose el =
        some ((List.range (n+1)).map (base rows),flatRows rows n) := by
  have hperm := (sched 3).edges_perm (entries symmetrize transpose el)
  have hbase : base (rowOf (entries symmetrize transpose el)) =
      base (rowOf ((sched 3).edges (entries symmetrize transpose el))) :=
    base_congr fun u => ((rowOf_perm hperm u).length_eq).symm
  refine ⟨rowOf ((sched 3).edges (entries symmetrize transpose el)),rowOf_perm hperm,?_⟩
  obtain ⟨offs,hplace⟩ := placeEdges_eq ((sched 3).edges (entries symmetrize transpose el))
    (n := n) (fun e he => hes e (hperm.subset he)) rfl
  simp only [makeCSR,countDegrees_eq (sched 0) hes,Option.bind_eq_bind,Option.bind_some,
    scheduledPrefixSum_eq,hbase,getElem?_map_base le_rfl,hplace]

lemma neighborhood_flatRows (rows : ℕ → List ℕ) (hu : u < n) :
    neighborhood ((List.range (n+1)).map (base rows)) (flatRows rows n) u = some (rows u) := by
  have hfit := base_add_le rows hu
  rw [neighborhood,getElem?_map_base hu.le,getElem?_map_base (show u+1 ≤ n by omega)]
  simp only [Option.bind_eq_bind,Option.bind_some]
  rw [base_succ,if_pos ⟨by omega,by rw [← base]; exact hfit⟩,Nat.add_sub_cancel_left,
    take_drop_flatRows rows hu]

end Rows

section Squish
variable {n : ℕ}

/-- Sorting and removing leaves the members of the row, in ascending order. -/
lemma squishRow_eq (n : ℕ) (row : List ℕ) :
    squishRow n row = (row.toFinset.erase n).sort (· ≤ ·) := by
  have hsorted : (row.mergeSort fun a b => decide (a ≤ b)).Pairwise (· ≤ ·) := by
    have := @List.pairwise_mergeSort ℕ (fun a b => decide (a ≤ b))
      (fun a b c => by simpa using Nat.le_trans) (fun a b => by simpa using Nat.le_total a b) row
    simpa using this
  have hdedup := hsorted.destutter_eq_dedup
  have hle : (squishRow n row).Pairwise (· ≤ ·) := by
    rw [squishRow,hdedup]
    exact (hsorted.sublist (List.dedup_sublist _)).filter _
  have hnodup : (squishRow n row).Nodup := by
    rw [squishRow,hdedup]
    exact (List.nodup_dedup _).filter _
  have hset : (squishRow n row).toFinset = row.toFinset.erase n := by
    ext v
    rw [squishRow,hdedup]
    simp [and_comm]
  rw [← hset]
  exact ((List.toFinset_sort (r := fun a b : ℕ => a ≤ b) hnodup).mpr hle).symm

lemma copyRow_eq (row : List ℕ) (start : ℕ) {ys : List ℕ} (hfit : start+row.length ≤ ys.length) :
    ∃ zs,copyRow row row.length start ys = some zs ∧ Placed row start ys row.length zs := by
  obtain ⟨zs,hzs,hplaced⟩ := forUp_rule (fun i ys => do
      let x ← row[i]?
      write ys (start+i) x) (n := row.length) (i := 0) (s := ys)
    (I := fun i zs => Placed row start ys i zs) (.start row start ys) (by
      intro i zs _ hi hzs
      obtain ⟨x,zs',hx,hw,hzs'⟩ := hzs.step (by omega) (by omega)
      exact ⟨zs',by simp [hx,hw],hzs'⟩)
  exact ⟨zs,hzs,by rwa [Nat.zero_add] at hplaced⟩

lemma squishCSR_eq (sched : ℕ → Schedule) (neigh : ℕ → Option (List ℕ)) (squished : ℕ → List ℕ)
    {rows : ℕ → List ℕ} (hneigh : ∀ u < n,neigh u = some (rows u))
    (hsquish : ∀ u,squishRow u (rows u) = squished u) :
    squishCSR sched n neigh =
      some ((List.range (n+1)).map (base squished),flatRows squished n) := by
  have hdiffs := fillCells_rule (f := fun u => (neigh u).map fun row => (squishRow u row).length)
    (g := fun u => (squished u).length) ((sched 0).indices_perm (List.range n))
    (fun u hu => by simp [hneigh u hu,hsquish]) (List.replicate n 0) List.length_replicate
  have hcopy := fillRows_rule (n := n) squished
    (fun sqNeighs u => do
      let row ← neigh u
      let diff ← ((List.range n).map fun u => (squished u).length)[u]?
      let start ← ((List.range (n+1)).map (base squished))[u]?
      copyRow (squishRow u row) diff start sqNeighs)
    ((sched 3).indices_perm (List.range n)) (List.replicate (base squished n) 0)
    List.length_replicate (by
      intro ys u hu hlen
      have hdiff : ((List.range n).map fun u => (squished u).length)[u]? =
          some (squished u).length := by
        rw [List.getElem?_map,List.getElem?_range hu]
        rfl
      have hfit := base_add_le squished hu
      obtain ⟨zs,hzs,hplaced⟩ := copyRow_eq (squished u) (base squished u)
        (show _ ≤ ys.length by omega)
      refine ⟨zs,?_,hplaced⟩
      simp only [hneigh u hu,hdiff,getElem?_map_base hu.le,hsquish,Option.bind_eq_bind,
        Option.bind_some,hzs])
  rw [squishCSR]
  simp only [Option.bind_eq_bind] at hdiffs hcopy ⊢
  rw [hdiffs]
  simp only [Option.bind_some,scheduledPrefixSum_eq,getElem?_map_base le_rfl,hcopy]

end Squish

section Graph
variable {directed symmetrize transpose : Bool} {el : List (ℕ × ℕ)} {u v n : ℕ}
  {out into : ℕ → List ℕ}

/-- The graph with the given rows. -/
def CSRGraph.ofRows (directed : Bool) (n : ℕ) (out into : ℕ → List ℕ) : CSRGraph where
  directed := directed
  numNodes := n
  numEdges := if directed then base out n else base out n/2
  outIndex := (List.range (n+1)).map (base out)
  outNeighbors := flatRows out n
  inIndex := (List.range (n+1)).map (base into)
  inNeighbors := flatRows into n

lemma undirected_eq (n : ℕ) (out : ℕ → List ℕ) :
    CSRGraph.undirected n ((List.range (n+1)).map (base out)) (flatRows out n) =
      some (.ofRows false n out out) := by
  rw [CSRGraph.undirected,getElem?_map_base (Nat.zero_le n),getElem?_map_base le_rfl]
  rfl

lemma withInverse_eq (n : ℕ) (out into : ℕ → List ℕ) :
    CSRGraph.withInverse n ((List.range (n+1)).map (base out)) (flatRows out n)
      ((List.range (n+1)).map (base into)) (flatRows into n) = some (.ofRows true n out into) := by
  rw [CSRGraph.withInverse,getElem?_map_base (Nat.zero_le n),getElem?_map_base le_rfl]
  rfl

lemma outNeigh_ofRows (hu : u < n) :
    (CSRGraph.ofRows directed n out into).outNeigh u = some (out u) := neighborhood_flatRows out hu

lemma inNeigh_ofRows (hu : u < n) :
    (CSRGraph.ofRows directed n out into).inNeigh u = some (into u) := neighborhood_flatRows into hu

lemma squishGraph_eq (sched : ℕ → Schedule) (hundirected : directed = false → into = out) :
    squishGraph sched (.ofRows directed n out into) = some (.ofRows directed n
      (fun u => squishRow u (out u)) fun u => squishRow u (into u)) := by
  have hout := squishCSR_eq sched (CSRGraph.ofRows directed n out into).outNeigh
    (fun u => squishRow u (out u)) (fun u hu => outNeigh_ofRows hu) fun _ => rfl
  have hinto := squishCSR_eq (fun k => sched (k+4))
    (CSRGraph.ofRows directed n out into).inNeigh
    (fun u => squishRow u (into u)) (fun u hu => inNeigh_ofRows hu) fun _ => rfl
  rw [squishGraph,show (CSRGraph.ofRows directed n out into).numNodes = n from rfl,hout]
  cases directed with
  | true =>
    rw [hinto]
    exact withInverse_eq n _ _
  | false =>
    rw [hundirected rfl]
    exact undirected_eq n _

/-- The greatest node of the edges, `0` if there are none. -/
def maxNode (el : List (ℕ × ℕ)) : ℕ := el.foldl (fun m e => max (max m e.1) e.2) 0

/-- The other ends of the edges at a node. -/
def neighborSet (symmetrize transpose : Bool) (el : List (ℕ × ℕ)) (u : ℕ) : Finset ℕ :=
  (rowOf (entries symmetrize transpose el) u).toFinset.erase u

def sortedRow (symmetrize transpose : Bool) (el : List (ℕ × ℕ)) (u : ℕ) : List ℕ :=
  (neighborSet symmetrize transpose el u).sort (· ≤ ·)

/-- The graph of an edge list: an undirected one if it is symmetrized. -/
def graphOf (symmetrize : Bool) (el : List (ℕ × ℕ)) : CSRGraph :=
  .ofRows (!symmetrize) (maxNode el+1) (sortedRow symmetrize false el)
    (sortedRow symmetrize true el)

lemma findMaxNodeID_eq (sched : Schedule) (el : List (ℕ × ℕ)) :
    findMaxNodeID sched el = maxNode el := by
  rw [findMaxNodeID,maxNode]
  apply (sched.edges_perm el).foldl_eq'
  intro a _ b _ m
  omega

lemma le_maxNode {e : ℕ × ℕ} (he : e ∈ el) : e.1 ≤ maxNode el ∧ e.2 ≤ maxNode el := by
  have hmono : ∀ (es : List (ℕ × ℕ)) (m : ℕ),
      m ≤ es.foldl (fun m e => max (max m e.1) e.2) m := by
    intro es
    induction es with
    | nil => exact fun m => le_rfl
    | cons e es ih =>
      intro m
      have := ih (max (max m e.1) e.2)
      rw [List.foldl_cons]
      omega
  obtain ⟨pre,post,rfl⟩ := List.append_of_mem he
  have := hmono post (max (max (pre.foldl (fun m e => max (max m e.1) e.2) 0) e.1) e.2)
  rw [maxNode,List.foldl_append,List.foldl_cons]
  omega

lemma mem_entries {a b : ℕ} : (a,b) ∈ entries symmetrize transpose el ↔
    ((symmetrize = true ∨ transpose = false) ∧ (a,b) ∈ el) ∨
      ((symmetrize = true ∨ transpose = true) ∧ (b,a) ∈ el) := by
  simp only [entries,List.mem_flatMap,List.mem_append]
  constructor
  · rintro ⟨⟨c,d⟩,hmem,h | h⟩
    · left
      cases symmetrize <;> cases transpose <;> simp_all
    · right
      cases symmetrize <;> cases transpose <;> simp_all
  · rintro (⟨hkind,hmem⟩ | ⟨hkind,hmem⟩)
    · refine ⟨(a,b),hmem,.inl ?_⟩
      cases symmetrize <;> cases transpose <;> simp_all
    · refine ⟨(b,a),hmem,.inr ?_⟩
      cases symmetrize <;> cases transpose <;> simp_all

lemma entries_lt (el : List (ℕ × ℕ)) :
    ∀ e ∈ entries symmetrize transpose el,e.1 < maxNode el+1 := by
  rintro ⟨a,b⟩ he
  rcases mem_entries.mp he with ⟨-,hmem⟩ | ⟨-,hmem⟩
  · exact Nat.lt_succ_of_le (le_maxNode hmem).1
  · exact Nat.lt_succ_of_le (le_maxNode hmem).2

lemma mem_sortedRow : v ∈ sortedRow symmetrize transpose el u ↔
    u ≠ v ∧ (u,v) ∈ entries symmetrize transpose el := by
  rw [sortedRow,Finset.mem_sort,neighborSet,Finset.mem_erase,List.mem_toFinset,mem_rowOf,
    ne_comm]

lemma squishRow_of_perm {row : List ℕ}
    (h : row.Perm (rowOf (entries symmetrize transpose el) u)) :
    squishRow u row = sortedRow symmetrize transpose el u := by
  rw [squishRow_eq,sortedRow,neighborSet,List.toFinset_eq_of_perm _ _ h]

lemma makeGraphFromEL_eq (sched : ℕ → Schedule) (symmetrize : Bool) (el : List (ℕ × ℕ)) :
    ∃ out into : ℕ → List ℕ,
      (∀ u,(out u).Perm (rowOf (entries symmetrize false el) u)) ∧
      (∀ u,(into u).Perm (rowOf (entries symmetrize true el) u)) ∧
      (symmetrize = true → into = out) ∧
      makeGraphFromEL sched symmetrize el =
        some (.ofRows (!symmetrize) (maxNode el+1) out into) := by
  obtain ⟨out,hout,hmakeOut⟩ := makeCSR_eq (fun k => sched (k+1)) symmetrize false
    (entries_lt el)
  cases symmetrize with
  | true =>
    refine ⟨out,out,hout,hout,fun _ => rfl,?_⟩
    rw [makeGraphFromEL,findMaxNodeID_eq,hmakeOut]
    exact undirected_eq _ out
  | false =>
    obtain ⟨into,hinto,hmakeIn⟩ := makeCSR_eq (fun k => sched (k+5)) false true
      (entries_lt el)
    refine ⟨out,into,hout,hinto,fun h => absurd h (by simp),?_⟩
    rw [makeGraphFromEL,findMaxNodeID_eq,hmakeOut,hmakeIn]
    exact withInverse_eq _ out into

/-- However the rows were ordered, the graph that is squished is the same. -/
lemma squishGraph_of_perm (sched : ℕ → Schedule) {symmetrize : Bool} {el : List (ℕ × ℕ)}
    {out into : ℕ → List ℕ} (hout : ∀ u,(out u).Perm (rowOf (entries symmetrize false el) u))
    (hinto : ∀ u,(into u).Perm (rowOf (entries symmetrize true el) u))
    (hsame : symmetrize = true → into = out) :
    squishGraph sched (.ofRows (!symmetrize) (maxNode el+1) out into) =
      some (graphOf symmetrize el) := by
  rw [squishGraph_eq _ fun h => hsame (by simpa using h),graphOf]
  congr 2
  · funext u
    exact squishRow_of_perm (hout u)
  · funext u
    exact squishRow_of_perm (hinto u)

/-- In whatever order the threads work, they build the same graph. -/
lemma makeGraph_eq (sched : ℕ → Schedule) (symmetrize : Bool) (el : List (ℕ × ℕ)) :
    makeGraph sched symmetrize el = some (graphOf symmetrize el) := by
  obtain ⟨out,into,hout,hinto,hsame,hmake⟩ := makeGraphFromEL_eq sched symmetrize el
  rw [makeGraph,hmake]
  exact squishGraph_of_perm _ hout hinto hsame

end Graph

end ElasticTranslations.Gapbs
