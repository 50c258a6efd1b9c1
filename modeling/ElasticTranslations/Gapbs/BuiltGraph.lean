import ElasticTranslations.Gapbs.BuilderRows
import Mathlib.Algebra.BigOperators.Group.Finset.Sigma

/-! What the builder makes of an edge list. -/
namespace ElasticTranslations.Gapbs
open Structures

variable {symmetrize : Bool} {el : List (ℕ × ℕ)} {u v : ℕ}

lemma length_outIndex_graphOf (symmetrize : Bool) (el : List (ℕ × ℕ)) :
    (graphOf symmetrize el).outIndex.length = (graphOf symmetrize el).numNodes+1 := by
  simp [graphOf,CSRGraph.ofRows]

lemma outNeigh_graphOf (hu : u < maxNode el+1) :
    (graphOf symmetrize el).outNeigh u = some (sortedRow symmetrize false el u) :=
  outNeigh_ofRows hu

lemma inNeigh_graphOf (hv : v < maxNode el+1) :
    (graphOf symmetrize el).inNeigh v = some (sortedRow symmetrize true el v) :=
  inNeigh_ofRows hv

lemma lt_of_inNeigh_graphOf {us : List ℕ} (h : (graphOf symmetrize el).inNeigh v = some us) :
    v < maxNode el+1 := by
  by_contra hge
  have hlen : (graphOf symmetrize el).inIndex.length = maxNode el+1+1 := by
    simp [graphOf,CSRGraph.ofRows]
  have hnone : (graphOf symmetrize el).inIndex[v+1]? = none := by
    rw [List.getElem?_eq_none_iff,hlen]
    omega
  cases hfirst : (graphOf symmetrize el).inIndex[v]? <;>
    simp [CSRGraph.inNeigh,neighborhood,hnone,hfirst] at h

lemma sortedRow_pairwise (symmetrize transpose : Bool) (el : List (ℕ × ℕ)) (u : ℕ) :
    (sortedRow symmetrize transpose el u).Pairwise (· < ·) :=
  (Finset.sortedLT_sort _).pairwise

lemma mem_entries_swap {a b : ℕ} : (a,b) ∈ entries symmetrize true el ↔
    (b,a) ∈ entries symmetrize false el := by
  rw [mem_entries,mem_entries]
  cases symmetrize <;> simp [or_comm]

lemma snd_lt_of_mem_entries {transpose : Bool} (h : (u,v) ∈ entries symmetrize transpose el) :
    v < maxNode el+1 := by
  cases transpose with
  | true => exact entries_lt el _ (mem_entries_swap.mp h)
  | false => exact entries_lt el _ (mem_entries_swap.mpr h)

lemma edge_graphOf : (graphOf symmetrize el).Edge u v ↔
    u ≠ v ∧ (u,v) ∈ entries symmetrize false el := by
  rw [← mem_sortedRow]
  constructor
  · rintro ⟨vs,hvs,hv⟩
    have hu := CSRGraph.lt_of_outNeigh (length_outIndex_graphOf symmetrize el) hvs
    rw [outNeigh_graphOf hu] at hvs
    cases hvs
    exact hv
  · intro hv
    exact ⟨_,outNeigh_graphOf (entries_lt el _ (mem_sortedRow.mp hv).2),hv⟩

lemma ok_graphOf (symmetrize : Bool) (el : List (ℕ × ℕ)) : (graphOf symmetrize el).Ok where
  length_outIndex := length_outIndex_graphOf symmetrize el
  out u hu := by
    refine ⟨_,outNeigh_graphOf hu,fun v hv => ?_⟩
    exact snd_lt_of_mem_entries (mem_sortedRow.mp hv).2
  into v hv := by
    refine ⟨_,inNeigh_graphOf hv,fun u => ?_⟩
    rw [edge_graphOf,mem_sortedRow,mem_entries_swap,ne_comm]

lemma base_eq_sum {α : Type*} (rows : ℕ → List α) (n : ℕ) :
    base rows n = ∑ u ∈ Finset.range n,(rows u).length := by
  induction n with
  | zero => rfl
  | succ n ih => rw [base_succ,Finset.sum_range_succ,ih]

/-- The pairs of a node and an entry of its row. -/
def pairs (rows : ℕ → List ℕ) (n : ℕ) : Finset ((_ : ℕ) × ℕ) :=
  (Finset.range n).sigma fun u => (rows u).toFinset

section Pairs
variable {rows out into : ℕ → List ℕ} {n : ℕ}

lemma mem_pairs {u v : ℕ} : (⟨u,v⟩ : (_ : ℕ) × ℕ) ∈ pairs rows n ↔ u < n ∧ v ∈ rows u := by
  rw [pairs,Finset.mem_sigma,Finset.mem_range,List.mem_toFinset]

lemma card_pairs (hnodup : ∀ u,(rows u).Nodup) : (pairs rows n).card = base rows n := by
  rw [base_eq_sum,pairs,Finset.card_sigma]
  exact Finset.sum_congr rfl fun u _ => List.toFinset_card_of_nodup (hnodup u)

/-- As many entries as transposed ones. -/
lemma base_eq_of_transposed (hout : ∀ u,(out u).Nodup) (hinto : ∀ u,(into u).Nodup)
    (hlt : ∀ u v,v ∈ out u → u < n ∧ v < n) (hswap : ∀ u v,u ∈ into v ↔ v ∈ out u) :
    base into n = base out n := by
  rw [← card_pairs hout,← card_pairs hinto]
  apply Finset.card_nbij' (fun p => ⟨p.2,p.1⟩) fun p => ⟨p.2,p.1⟩
  · rintro ⟨v,u⟩ hp
    have hv := (hswap u v).mp (mem_pairs.mp hp).2
    exact mem_pairs.mpr ⟨(hlt u v hv).1,hv⟩
  · rintro ⟨u,v⟩ hp
    have hv := (mem_pairs.mp hp).2
    exact mem_pairs.mpr ⟨(hlt u v hv).2,(hswap u v).mpr hv⟩
  · exact fun _ _ => rfl
  · exact fun _ _ => rfl

/-- In the rows of a symmetric relation without loops each pair stands twice. -/
lemma even_base (hnodup : ∀ u,(rows u).Nodup) (hlt : ∀ u v,v ∈ rows u → v < n)
    (hsymm : ∀ u v,v ∈ rows u ↔ u ∈ rows v) (hloop : ∀ u,u ∉ rows u) :
    2*(base rows n/2) = base rows n := by
  have hmem : ∀ u v,(⟨u,v⟩ : (_ : ℕ) × ℕ) ∈ pairs rows n ↔ v ∈ rows u := fun u v =>
    mem_pairs.trans ⟨And.right,fun hv => ⟨hlt v u ((hsymm u v).mp hv),hv⟩⟩
  have hswap : ((pairs rows n).filter fun p => p.1 < p.2).card =
      ((pairs rows n).filter fun p => ¬p.1 < p.2).card := by
    apply Finset.card_nbij' (fun p => ⟨p.2,p.1⟩) fun p => ⟨p.2,p.1⟩
    · rintro ⟨a,b⟩ hp
      rw [Finset.mem_coe,Finset.mem_filter,hmem] at hp ⊢
      simp only at hp ⊢
      exact ⟨(hsymm a b).mp hp.1,by omega⟩
    · rintro ⟨a,b⟩ hp
      rw [Finset.mem_coe,Finset.mem_filter,hmem] at hp ⊢
      simp only at hp ⊢
      have hne : a ≠ b := by
        rintro rfl
        exact hloop a hp.1
      exact ⟨(hsymm a b).mp hp.1,by omega⟩
    · exact fun _ _ => rfl
    · exact fun _ _ => rfl
  have hsplit := Finset.card_filter_add_card_filter_not (s := pairs rows n) fun p => p.1 < p.2
  rw [card_pairs hnodup] at hsplit
  omega

end Pairs

lemma numEdgesDirected_graphOf (symmetrize : Bool) (el : List (ℕ × ℕ)) :
    (graphOf symmetrize el).numEdgesDirected = (graphOf symmetrize el).outNeighbors.length := by
  cases symmetrize with
  | true =>
    apply even_base
    · exact fun u => Finset.sort_nodup _ _
    · exact fun u v hv => snd_lt_of_mem_entries (mem_sortedRow.mp hv).2
    · intro u v
      rw [mem_sortedRow,mem_sortedRow,mem_entries,mem_entries,ne_comm]
      simp [or_comm]
    · exact fun u hu => (mem_sortedRow.mp hu).1 rfl
  | false => rfl

/-- In whatever order the threads count, place, sum and copy, the same graph is built: each node has
the other ends of its edges as neighbors, in ascending order and each of them once, and so has it
those from which edges lead to it. -/
theorem makeGraph_spec (symmetrize : Bool) (el : List (ℕ × ℕ)) :
    ∃ g,(∀ sched,makeGraph sched symmetrize el = some g) ∧ g.Ok ∧ g.numNodes = maxNode el+1 ∧
      (∀ u v,g.Edge u v ↔ u ≠ v ∧ ((u,v) ∈ el ∨ (symmetrize = true ∧ (v,u) ∈ el))) ∧
      (∀ u vs,g.outNeigh u = some vs → vs.Pairwise (· < ·)) ∧
      (∀ v us,g.inNeigh v = some us → us.Pairwise (· < ·)) ∧
      g.numEdgesDirected = g.outNeighbors.length := by
  refine ⟨graphOf symmetrize el,fun sched => makeGraph_eq sched symmetrize el,
    ok_graphOf symmetrize el,rfl,fun u v => ?_,fun u vs hvs => ?_,fun v us hus => ?_,
    numEdgesDirected_graphOf symmetrize el⟩
  · rw [edge_graphOf,mem_entries]
    cases symmetrize <;> simp
  · have hu := CSRGraph.lt_of_outNeigh (length_outIndex_graphOf symmetrize el) hvs
    rw [outNeigh_graphOf hu] at hvs
    cases hvs
    exact sortedRow_pairwise symmetrize false el u
  · have hv := lt_of_inNeigh_graphOf hus
    rw [inNeigh_graphOf hv] at hus
    cases hus
    exact sortedRow_pairwise symmetrize true el v

end ElasticTranslations.Gapbs
