import ElasticTranslations.Gapbs.BuiltGraph
import ElasticTranslations.Gapbs.Producers

/-! `MakeCSR` by single accesses of its threads: between a `fetch_and_add` and the store that uses
its result, other threads may place their own nodes. The store is late, but its place is taken, so
the rows are those of a run that places one node after the other. -/
namespace ElasticTranslations.Gapbs
open Structures

/-- A thread of the loop that places nodes, with the entries of its share to come and the store
that is due. -/
structure PlaceControl where
  rounds : List (ℕ × ℕ)
  due : Option (ℕ × ℕ)

namespace PlaceControl

def start (rounds : List (ℕ × ℕ)) : PlaceControl := ⟨rounds,none⟩

def done (c : PlaceControl) : Bool := c.rounds.isEmpty && c.due.isNone

def step (s : List ℕ × List ℕ) (c : PlaceControl) :
    Option ((List ℕ × List ℕ) × PlaceControl) :=
  match c.due with
  | some (position,v) => do
    let neighs ← write s.2 position v
    some ((s.1,neighs),{ c with due := none })
  | none =>
    match c.rounds with
    | e :: es => do
      let (position,offsets) ← fetchAndAdd s.1 e.1
      some ((offsets,s.2),⟨es,some (position,e.2)⟩)
    | [] => some (s,c)

def cost (c : PlaceControl) : ℕ := 2*c.rounds.length+c.due.toList.length

end PlaceControl

/-- The entries of the edges with these numbers. -/
def shareOf (symmetrize transpose : Bool) (el : List (ℕ × ℕ)) (share : List ℕ) : List (ℕ × ℕ) :=
  entries symmetrize transpose (share.filterMap fun i => el[i]?)

def parallelMakeCSR (par : Parallel) (sched : ℕ → Schedule) (numNodes : ℕ)
    (symmetrize transpose : Bool) (el : List (ℕ × ℕ)) : Option (List ℕ × List ℕ) := do
  let degrees ← countDegrees (sched 0) numNodes (entries symmetrize transpose el)
  let offsets ← scheduledPrefixSum (sched 1) (sched 2) degrees
  let total ← offsets[numNodes]?
  let cs := (par.shares el.length).map fun share =>
    PlaceControl.start (shareOf symmetrize transpose el share)
  let team ← Team.run PlaceControl.step PlaceControl.done par.turns
    (cs.map PlaceControl.cost).sum ⟨(offsets,List.replicate total 0),cs⟩
  some (offsets,team.shared.2)

def parallelMakeGraphFromEL (outgoing incoming : Parallel) (sched : ℕ → Schedule)
    (symmetrize : Bool) (el : List (ℕ × ℕ)) : Option CSRGraph := do
  let numNodes := findMaxNodeID (sched 0) el+1
  let (index,neighs) ← parallelMakeCSR outgoing (fun k => sched (k+1)) numNodes symmetrize false el
  if symmetrize then CSRGraph.undirected numNodes index neighs
  else do
    let (invIndex,invNeighs) ←
      parallelMakeCSR incoming (fun k => sched (k+5)) numNodes symmetrize true el
    CSRGraph.withInverse numNodes index neighs invIndex invNeighs

def parallelMakeGraph (outgoing incoming : Parallel) (sched : ℕ → Schedule) (symmetrize : Bool)
    (el : List (ℕ × ℕ)) : Option CSRGraph := do
  let g ← parallelMakeGraphFromEL outgoing incoming sched symmetrize el
  squishGraph (fun k => sched (k+9)) g

/-- The entries `placed` have got their places, in this order; the stores of some may be due. -/
structure PlaceTeam (n : ℕ) (es : List (ℕ × ℕ)) (placed : List (ℕ × ℕ)) (s : List ℕ × List ℕ)
    (cs : List PlaceControl) : Prop where
  perm : (placed++cs.flatMap PlaceControl.rounds).Perm es
  offsets : ∀ u < n,s.1[u]? = some (base (rowOf es) u+(rowOf placed u).length)
  length_eq : s.2.length = base (rowOf es) n
  stored : ∀ u < n,∀ k v,(rowOf placed u)[k]? = some v →
    s.2[base (rowOf es) u+k]? = some v ∨ ∃ c ∈ cs,c.due = some (base (rowOf es) u+k,v)
  due : ∀ c ∈ cs,∀ p v,c.due = some (p,v) →
    ∃ u < n,∃ k,p = base (rowOf es) u+k ∧ (rowOf placed u)[k]? = some v

namespace PlaceTeam
variable {n : ℕ} {es placed : List (ℕ × ℕ)} {s : List ℕ × List ℕ} {pre post : List PlaceControl}
  {c : PlaceControl}

/-- A row that is being filled is no longer than the one that it becomes. -/
lemma length_le {cs : List PlaceControl} (h : PlaceTeam n es placed s cs) (u : ℕ) :
    (rowOf placed u).length ≤ (rowOf es u).length := by
  have hlen := (rowOf_perm h.perm u).length_eq
  rw [rowOf_append,List.length_append] at hlen
  omega

lemma position_lt {cs : List PlaceControl} (h : PlaceTeam n es placed s cs) {u k v : ℕ}
    (hk : (rowOf placed u)[k]? = some v) : k < (rowOf es u).length := by
  have := (List.getElem?_eq_some_iff.mp hk).1
  have := h.length_le u
  omega

/-- An entry gets the next place of its row. -/
lemma reserve {e : ℕ × ℕ} {rest : List (ℕ × ℕ)}
    (h : PlaceTeam n es placed s (pre++⟨e :: rest,none⟩ :: post)) (he : e.1 < n) :
    PlaceTeam n es (placed++[e])
      (s.1.set e.1 (base (rowOf es) e.1+(rowOf placed e.1).length+1),s.2)
      (pre++⟨rest,some (base (rowOf es) e.1+(rowOf placed e.1).length,e.2)⟩ :: post) where
  perm := by
    refine List.Perm.trans ?_ h.perm
    rw [List.perm_iff_count]
    intro a
    simp only [List.count_append,List.flatMap_append,List.flatMap_cons,List.count_cons,
      List.count_nil]
    omega
  offsets u hu := offset_set he h.offsets hu
  length_eq := h.length_eq
  stored u hu k v hk := by
    have hold : (rowOf placed u)[k]? = some v → s.2[base (rowOf es) u+k]? = some v ∨
        ∃ c ∈ pre++⟨rest,some (base (rowOf es) e.1+(rowOf placed e.1).length,e.2)⟩ :: post,
          c.due = some (base (rowOf es) u+k,v) := fun hk =>
      (h.stored u hu k v hk).imp_right fun hex =>
        exists_turn hex (fun hnone => by cases hnone) fun _ _ hdue => hdue
    by_cases hue : e.1 = u
    · subst hue
      rw [rowOf_concat_self] at hk
      by_cases hklt : k < (rowOf placed e.1).length
      · rw [List.getElem?_append_left hklt] at hk
        exact hold hk
      · rw [List.getElem?_append_right (by omega)] at hk
        obtain ⟨hlast,hv⟩ := List.getElem?_eq_some_iff.mp hk
        rw [List.length_singleton] at hlast
        have hkeq : k = (rowOf placed e.1).length := by omega
        subst hkeq
        refine .inr ⟨_,List.mem_append_right _ List.mem_cons_self,?_⟩
        simp only [Nat.sub_self] at hk
        rw [← Option.some.inj hk]
    · rw [rowOf_concat_of_ne hue] at hk
      exact hold hk
  due := by
    refine forall_turn h.due (fun _ p v hdue => ?_) fun _ _ hold p v hdue => ?_
    · cases hdue
      refine ⟨e.1,he,_,rfl,?_⟩
      rw [rowOf_concat_self]
      exact List.getElem?_concat_length
    · obtain ⟨u,hu,k,hp,hk⟩ := hold p v hdue
      refine ⟨u,hu,k,hp,?_⟩
      rw [rowOf_append,List.getElem?_append_left (List.getElem?_eq_some_iff.mp hk).1,hk]

/-- Nobody else stores to the place in between. -/
lemma store {p v : ℕ} (h : PlaceTeam n es placed s (pre++c :: post)) (hc : c.due = some (p,v)) :
    ∃ neighs,write s.2 p v = some neighs ∧
      PlaceTeam n es placed (s.1,neighs) (pre++{ c with due := none } :: post) := by
  obtain ⟨u,hu,k,hp,hk⟩ := h.due c (by simp) p v hc
  have hklt := h.position_lt hk
  have hfit := base_add_le (rowOf es) hu
  have hlt : p < s.2.length := by
    rw [h.length_eq]
    omega
  refine ⟨s.2.set p v,write_of_lt hlt v,?_⟩
  exact {
    perm := by
      have := h.perm
      rwa [List.flatMap_append,List.flatMap_cons] at this ⊢
    offsets := h.offsets
    length_eq := by simpa using h.length_eq
    stored := fun u' hu' k' v' hk' => by
      by_cases hsame : base (rowOf es) u'+k' = p
      · obtain ⟨rfl,rfl⟩ := base_add_inj (h.position_lt hk') hklt (hsame.trans hp)
        rw [hk] at hk'
        cases hk'
        exact .inl (by rw [hsame,List.getElem?_set_self hlt])
      · rw [List.getElem?_set_ne (Ne.symm hsame)]
        refine (h.stored u' hu' k' v' hk').imp_right fun hex =>
          exists_turn hex (fun hdue => ?_) fun _ _ hdue => hdue
        rw [hc] at hdue
        cases hdue
        exact absurd rfl hsame
    due := forall_turn h.due (fun _ _ _ hnone => by cases hnone) fun _ _ hold => hold }

lemma step (hes : ∀ e ∈ es,e.1 < n) (h : PlaceTeam n es placed s (pre++c :: post))
    (hdone : c.done = false) :
    ∃ s' c' placed',c.step s = some (s',c') ∧ PlaceTeam n es placed' s' (pre++c' :: post) ∧
      c'.cost < c.cost := by
  obtain ⟨rounds,due⟩ := c
  cases due with
  | some pv =>
    obtain ⟨p,v⟩ := pv
    obtain ⟨neighs,hwrite,h'⟩ := h.store rfl
    refine ⟨_,_,placed,?_,h',by simp [PlaceControl.cost]⟩
    simp only [PlaceControl.step,hwrite,Option.bind_eq_bind,Option.bind_some]
  | none =>
    cases rounds with
    | nil => cases hdone
    | cons e rest =>
      have he : e.1 < n := hes e (h.perm.subset (by simp))
      refine ⟨_,_,placed++[e],?_,h.reserve he,?_⟩
      · simp only [PlaceControl.step,fetchAndAdd_eq (h.offsets e.1 he),Option.bind_eq_bind,
          Option.bind_some]
      · simp only [PlaceControl.cost,List.length_cons,Option.toList_some,Option.toList_none,
          List.length_nil]
        omega

end PlaceTeam

section Shares
variable {symmetrize transpose : Bool} {el : List (ℕ × ℕ)}

lemma filterMap_range (el : List (ℕ × ℕ)) :
    (List.range el.length).filterMap (fun i => el[i]?) = el := by
  induction el with
  | nil => rfl
  | cons e el ih =>
    rw [List.length_cons,List.range_succ_eq_map,List.filterMap_cons_some (by rfl),
      List.filterMap_map]
    congr 1

/-- The shares are all entries together. -/
lemma flatten_shares (shares : List (List ℕ)) :
    shares.flatMap (shareOf symmetrize transpose el) =
      shareOf symmetrize transpose el shares.flatten := by
  induction shares with
  | nil => rfl
  | cons share shares ih =>
    rw [List.flatMap_cons,ih,List.flatten_cons]
    simp only [shareOf,entries,List.filterMap_append,List.flatMap_append]

lemma shares_perm {shares : List (List ℕ)} (h : shares.flatten.Perm (List.range el.length)) :
    (shares.flatMap (shareOf symmetrize transpose el)).Perm (entries symmetrize transpose el) := by
  rw [flatten_shares]
  have hperm := (h.filterMap fun i => el[i]?).flatMap_right fun e =>
    (if symmetrize || (!symmetrize && !transpose) then [(e.1,e.2)] else [])++
      (if symmetrize || (!symmetrize && transpose) then [(e.2,e.1)] else [])
  rwa [filterMap_range] at hperm

variable {n : ℕ}

lemma parallelMakeCSR_eq (par : Parallel) (sched : ℕ → Schedule)
    (hes : ∀ e ∈ entries symmetrize transpose el,e.1 < n) :
    ∃ rows : ℕ → List ℕ,(∀ u,(rows u).Perm (rowOf (entries symmetrize transpose el) u)) ∧
      parallelMakeCSR par sched n symmetrize transpose el =
        some ((List.range (n+1)).map (base rows),flatRows rows n) := by
  have hstart : PlaceTeam n (entries symmetrize transpose el) []
      ((List.range (n+1)).map (base (rowOf (entries symmetrize transpose el))),
        List.replicate (base (rowOf (entries symmetrize transpose el)) n) 0)
      ((par.shares el.length).map fun share =>
        PlaceControl.start (shareOf symmetrize transpose el share)) := {
    perm := by
      rw [List.nil_append,List.flatMap_map]
      exact shares_perm (par.shares_perm el.length)
    offsets := fun u hu => getElem?_map_base hu.le
    length_eq := List.length_replicate
    stored := fun u _ k v hk => by simp [rowOf] at hk
    due := fun c hc p v hdue => by
      obtain ⟨share,-,rfl⟩ := List.mem_map.mp hc
      cases hdue }
  obtain ⟨⟨⟨offs,neighs⟩,cs⟩,hrun,⟨placed,hteam⟩,hdone⟩ := Team.run_rule PlaceControl.step
    PlaceControl.done (fun s cs => ∃ placed,PlaceTeam n (entries symmetrize transpose el) placed
      s cs) (fun _ cs => (cs.map PlaceControl.cost).sum) (by
      rintro s pre c post ⟨placed,h⟩ hc
      obtain ⟨s',c',placed',hstep,h',hlt⟩ := h.step hes hc
      exact ⟨s',c',hstep,⟨placed',h'⟩,sum_turn_lt _ hlt⟩) par.turns (s := ⟨_,_⟩) ⟨[],hstart⟩ le_rfl
  have hend : ∀ c ∈ cs,c.rounds = [] ∧ c.due = none := fun c hc => by
    simpa [PlaceControl.done] using hdone c hc
  have hperm := hteam.perm
  have hempty : cs.flatMap PlaceControl.rounds = [] :=
    List.flatMap_eq_nil_iff.mpr fun c hc => (hend c hc).1
  rw [hempty,List.append_nil] at hperm
  have hbase : base (rowOf (entries symmetrize transpose el)) = base (rowOf placed) :=
    base_congr fun u => ((rowOf_perm hperm u).length_eq).symm
  refine ⟨rowOf placed,rowOf_perm hperm,?_⟩
  have hneighs : neighs = flatRows (rowOf placed) n := by
    refine eq_flatRows (hbase ▸ hteam.length_eq) fun u hu k hk => ?_
    rw [List.getElem?_eq_getElem hk,← hbase]
    refine (hteam.stored u hu k _ (List.getElem?_eq_getElem hk)).resolve_right ?_
    rintro ⟨c,hc,hdue⟩
    rw [(hend c hc).2] at hdue
    cases hdue
  simp only [parallelMakeCSR,countDegrees_eq (sched 0) hes,Option.bind_eq_bind,Option.bind_some,
    scheduledPrefixSum_eq,getElem?_map_base le_rfl,hrun]
  rw [hneighs,hbase]

end Shares

section Graph

lemma parallelMakeGraphFromEL_eq (outgoing incoming : Parallel) (sched : ℕ → Schedule)
    (symmetrize : Bool) (el : List (ℕ × ℕ)) :
    ∃ out into : ℕ → List ℕ,
      (∀ u,(out u).Perm (rowOf (entries symmetrize false el) u)) ∧
      (∀ u,(into u).Perm (rowOf (entries symmetrize true el) u)) ∧
      (symmetrize = true → into = out) ∧
      parallelMakeGraphFromEL outgoing incoming sched symmetrize el =
        some (.ofRows (!symmetrize) (maxNode el+1) out into) := by
  have hes : ∀ transpose,∀ e ∈ entries symmetrize transpose el,e.1 < maxNode el+1 := fun _ =>
    entries_lt el
  obtain ⟨out,hout,hmakeOut⟩ := parallelMakeCSR_eq outgoing (fun k => sched (k+1)) (hes false)
  cases symmetrize with
  | true =>
    refine ⟨out,out,hout,hout,fun _ => rfl,?_⟩
    rw [parallelMakeGraphFromEL,findMaxNodeID_eq,hmakeOut]
    exact undirected_eq _ out
  | false =>
    obtain ⟨into,hinto,hmakeIn⟩ := parallelMakeCSR_eq incoming (fun k => sched (k+5)) (hes true)
    refine ⟨out,into,hout,hinto,fun h => absurd h (by simp),?_⟩
    rw [parallelMakeGraphFromEL,findMaxNodeID_eq,hmakeOut,hmakeIn]
    exact withInverse_eq _ out into

/-- In whatever way the threads share the edges and interleave their accesses, they build the graph
that one thread builds. -/
theorem parallelMakeGraph_agrees (outgoing incoming : Parallel) (sched : ℕ → Schedule)
    (symmetrize : Bool) (el : List (ℕ × ℕ)) :
    ∃ g,makeGraph (fun _ => .sequential) symmetrize el = some g ∧
      parallelMakeGraph outgoing incoming sched symmetrize el = some g := by
  obtain ⟨out,into,hout,hinto,hsame,hmake⟩ :=
    parallelMakeGraphFromEL_eq outgoing incoming sched symmetrize el
  refine ⟨graphOf symmetrize el,makeGraph_eq _ symmetrize el,?_⟩
  rw [parallelMakeGraph,hmake]
  exact squishGraph_of_perm _ hout hinto hsame

end Graph

end ElasticTranslations.Gapbs
