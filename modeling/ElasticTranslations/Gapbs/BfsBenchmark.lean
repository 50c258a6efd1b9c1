import ElasticTranslations.Gapbs.BfsVerifier
import ElasticTranslations.Gapbs.BuiltGraph

/-! `main` of `bfs.cc` and `BenchmarkKernel`: graph, search and verifier together. The random
numbers come from the standard library: `draw` is a drawing from the state of a generator. -/
namespace ElasticTranslations.Gapbs
open Structures

variable {σ : Type} (draw : σ → ℕ × σ)

/-- The loop of `PickNext`. -/
def drawSource (g : CSRGraph) : ℕ → σ → Option (ℕ × σ)
  | 0,_ => none
  | fuel+1,rng => do
    let (source,rng) := draw rng
    let degree ← g.outDegree source
    if degree = 0 then drawSource g fuel rng else some (source,rng)

def pickNext (g : CSRGraph) (givenSource : ℤ) (fuel : ℕ) (rng : σ) : Option (ℕ × σ) :=
  if givenSource ≠ -1 then
    if 0 ≤ givenSource then some (givenSource.toNat,rng) else none
  else drawSource draw g fuel rng

/-- `PrintBFSStats`: the nodes of the tree and the edges that leave them. -/
def bfsStats (g : CSRGraph) (bfsTree : List ℤ) : Option (ℤ × ℤ) :=
  (List.range g.numNodes).foldlM (fun (s : ℤ × ℤ) n => do
    let p ← bfsTree[n]?
    if p ≥ 0 then do
      let degree ← g.outDegree n
      some (s.1+1,s.2+degree)
    else some s) (0,0)

/-- The options of the command line that the kernel depends on. -/
structure Options where
  doAnalysis : Bool
  numTrials : ℕ
  startVertex : ℤ
  doVerify : Bool

/-- What a trial did: the verifier, if it ran, started from a source of its own. -/
structure Trial where
  source : ℕ
  parent : List ℤ
  stats : Option (ℤ × ℤ)
  verified : Option (ℕ × Bool)

/-- The analysis, of the last trial only. -/
def trialStats (cli : Options) (g : CSRGraph) (rounds : ℕ) (parent : List ℤ) :
    Option (Option (ℤ × ℤ)) :=
  if cli.doAnalysis && rounds = 0 then (bfsStats g parent).map some else some none

/-- `VerifierBound`, from the state of its picker. -/
def verifyTrial (cli : Options) (g : CSRGraph) (fuel : ℕ) (parent : List ℤ) (vsp : σ) :
    Option (Option (ℕ × Bool) × σ) :=
  if cli.doVerify then do
    let (vsource,vsp) ← pickNext draw g cli.startVertex fuel vsp
    let ok ← bfsVerifier g vsource parent fuel
    some (some (vsource,ok),vsp)
  else some (none,vsp)

/-- The trials of `BenchmarkKernel` with `rounds` to go; the kernel and the verifier have pickers of
their own. -/
def trials (cli : Options) (g : CSRGraph) (fuel : ℕ) : ℕ → σ → σ → Option (List Trial)
  | 0,_,_ => some []
  | rounds+1,sp,vsp => do
    let (source,sp) ← pickNext draw g cli.startVertex fuel sp
    let parent ← dobfs (fun _ _ => .sequential) g source 15 18 fuel
    let stats ← trialStats cli g rounds parent
    let (verified,vsp) ← verifyTrial draw cli g fuel parent vsp
    let rest ← trials cli g fuel rounds sp vsp
    some (⟨source,parent,stats,verified⟩ :: rest)

/-- Both pickers start from `kRandSeed`. -/
def bfsMain (sched : ℕ → Schedule) (symmetrize : Bool) (cli : Options) (el : List (ℕ × ℕ))
    (fuel : ℕ) (seed : σ) : Option (List Trial) := do
  let g ← makeGraph sched symmetrize el
  trials draw cli g fuel cli.numTrials seed seed

/-- The state of the generator after `k` draws. -/
def stateAfter (k : ℕ) (rng : σ) : σ := (fun r => (draw r).2)^[k] rng

/-- The number drawn after `k` others. -/
def drawn (k : ℕ) (rng : σ) : ℕ := (draw (stateAfter draw k rng)).1

/-- The edges that a search may follow. -/
def EdgeOf (symmetrize : Bool) (el : List (ℕ × ℕ)) (u v : ℕ) : Prop :=
  u ≠ v ∧ ((u,v) ∈ el ∨ (symmetrize = true ∧ (v,u) ∈ el))

/-- An edge of the list leads from the node to another one. -/
def hasNeighbor (symmetrize : Bool) (el : List (ℕ × ℕ)) (u : ℕ) : Bool :=
  el.any fun e => e.1 ≠ e.2 && (e.1 = u || (symmetrize && e.2 = u))

/-- The sources of trials: the given vertex each time, or else those of the drawn nodes that have
neighbors, in the order in which they are drawn. -/
def Sources (start : ℤ) (symmetrize : Bool) (el : List (ℕ × ℕ)) (rng : σ) (sources : List ℕ) :
    Prop :=
  if start ≠ -1 then ∀ source ∈ sources,(source : ℤ) = start
  else ∃ k,sources =
    ((List.range k).map fun j => drawn draw j rng).filter (hasNeighbor symmetrize el)

section Draws
variable {draw}

lemma drawn_zero (rng : σ) : drawn draw 0 rng = (draw rng).1 := rfl

lemma drawn_succ (k : ℕ) (rng : σ) : drawn draw (k+1) rng = drawn draw k (draw rng).2 := by
  rw [drawn,stateAfter,Function.iterate_succ_apply]
  rfl

/-- The draws from a state: the first one, and those from the next state. -/
lemma map_drawn_succ (k : ℕ) (rng : σ) : ((List.range (k+1)).map fun j => drawn draw j rng) =
    (draw rng).1 :: (List.range k).map fun j => drawn draw j (draw rng).2 := by
  rw [List.range_succ_eq_map,List.map_cons,drawn_zero,List.map_map]
  simp only [Function.comp_def,Nat.succ_eq_add_one,drawn_succ]

end Draws

section Picks
variable {draw} {g : CSRGraph} {symmetrize : Bool} {el : List (ℕ × ℕ)}

lemma edge_graphOf_eq (symmetrize : Bool) (el : List (ℕ × ℕ)) :
    (graphOf symmetrize el).Edge = EdgeOf symmetrize el := by
  funext u v
  rw [edge_graphOf,EdgeOf,mem_entries]
  cases symmetrize <;> simp

lemma hasNeighbor_iff {u : ℕ} : hasNeighbor symmetrize el u = true ↔
    ∃ v,EdgeOf symmetrize el u v := by
  simp only [hasNeighbor,List.any_eq_true,Bool.and_eq_true,Bool.or_eq_true,decide_eq_true_eq]
  constructor
  · rintro ⟨⟨a,b⟩,hmem,hne,rfl | ⟨hsymm,rfl⟩⟩
    · exact ⟨b,hne,.inl hmem⟩
    · exact ⟨a,hne.symm,.inr ⟨hsymm,hmem⟩⟩
  · rintro ⟨v,hne,hmem | ⟨hsymm,hmem⟩⟩
    · exact ⟨(u,v),hmem,hne,.inl rfl⟩
    · exact ⟨(v,u),hmem,hne.symm,.inr ⟨hsymm,rfl⟩⟩

lemma hasNeighbor_graphOf {u : ℕ} {vs : List ℕ}
    (hvs : (graphOf symmetrize el).outNeigh u = some vs) :
    hasNeighbor symmetrize el u = true ↔ vs ≠ [] := by
  rw [hasNeighbor_iff,← edge_graphOf_eq]
  constructor
  · rintro ⟨v,vs',hvs',hv⟩ rfl
    rw [hvs] at hvs'
    cases hvs'
    cases hv
  · intro hne
    obtain ⟨v,hv⟩ := List.exists_mem_of_ne_nil vs hne
    exact ⟨v,vs,hvs,hv⟩

/-- Enough draws find a node with neighbors, the first one that is drawn. -/
lemma drawSource_spec (hdraw : ∀ rng,(draw rng).1 < maxNode el+1) {fuel k : ℕ} {rng : σ}
    (hk : k < fuel) (hhit : hasNeighbor symmetrize el (drawn draw k rng) = true) :
    ∃ source rng',drawSource draw (graphOf symmetrize el) fuel rng = some (source,rng') ∧
      source < maxNode el+1 ∧
      ∀ rest,Sources draw (-1) symmetrize el rng' rest →
        Sources draw (-1) symmetrize el rng (source :: rest) := by
  induction fuel generalizing k rng with
  | zero => omega
  | succ fuel ih =>
    obtain ⟨vs,hvs,-⟩ := (ok_graphOf symmetrize el).out (draw rng).1 (hdraw rng)
    have hdegree := CSRGraph.outDegree_of_outNeigh hvs
    have hfirst := hasNeighbor_graphOf hvs
    by_cases hnil : vs = []
    · have hfirst : hasNeighbor symmetrize el (draw rng).1 = false :=
        Bool.eq_false_iff.mpr fun hcon => hfirst.mp hcon hnil
      cases k with
      | zero =>
        rw [drawn_zero,hfirst] at hhit
        cases hhit
      | succ k =>
        rw [drawn_succ] at hhit
        obtain ⟨source,rng',hpick,hlt,hsources⟩ := ih (by omega) hhit
        refine ⟨source,rng',by simp [drawSource,hdegree,hnil,hpick],hlt,fun rest hrest => ?_⟩
        obtain ⟨n,hn⟩ := hsources rest hrest
        refine ⟨n+1,?_⟩
        rw [map_drawn_succ,List.filter_cons_of_neg (by simp [hfirst]),hn]
    · refine ⟨(draw rng).1,(draw rng).2,by simp [drawSource,hdegree,hnil],hdraw rng,?_⟩
      rintro rest ⟨n,rfl⟩
      refine ⟨n+1,?_⟩
      rw [map_drawn_succ,List.filter_cons_of_pos (hfirst.mpr hnil)]

/-- What the statistics should be: the nodes with parents, and how many edges leave them. -/
def statsOf (g : CSRGraph) (tree : ℕ → Option ℕ) : ℤ × ℤ :=
  let found := (List.range g.numNodes).filter fun v => (tree v).isSome
  (found.length,((found.map fun v => ((g.outNeigh v).getD []).length).sum : ℕ))

lemma bfsStats_eq (hg : g.Ok) (tree : ℕ → Option ℕ) :
    bfsStats g ((List.range g.numNodes).map fun v => encode (tree v)) = some (statsOf g tree) := by
  obtain ⟨⟨size,nEdges⟩,hstats,hsize,hedges⟩ := foldlM_rule (fun (s : ℤ × ℤ) n => do
      let p ← ((List.range g.numNodes).map fun v => encode (tree v))[n]?
      if p ≥ 0 then do
        let degree ← g.outDegree n
        some (s.1+1,s.2+degree)
      else some s) (l := List.range g.numNodes) (s := ((0 : ℤ),(0 : ℤ)))
    (I := fun pre s => s.1 = ((pre.filter fun v => (tree v).isSome).length : ℤ) ∧
      s.2 = ((((pre.filter fun v => (tree v).isSome).map fun v =>
        ((g.outNeigh v).getD []).length).sum : ℕ) : ℤ)) ⟨rfl,rfl⟩ (by
      rintro pre n post ⟨size,nEdges⟩ heq ⟨hsize,hedges⟩
      have hn : n < g.numNodes := List.mem_range.mp (heq ▸ by simp)
      obtain ⟨vs,hvs,-⟩ := hg.out n hn
      simp only [List.getElem?_map,List.getElem?_range hn,Option.map_some,Option.bind_eq_bind,
        Option.bind_some,CSRGraph.outDegree_of_outNeigh hvs]
      simp only at hsize hedges
      cases hparent : tree n with
      | none =>
        refine ⟨(size,nEdges),by simp [encode],?_,?_⟩
        · simp [hparent,hsize]
        · simp [hparent,hedges]
      | some u =>
        refine ⟨(size+1,nEdges+vs.length),by simp [encode],?_,?_⟩
        · simp [hparent,hsize]
        · simp [hparent,hedges,hvs])
  simp only at hsize hedges
  rw [bfsStats,hstats,hsize,hedges]
  rfl

end Picks

/-- The result of a trial: a tree of shortest walks from its source, the statistics of that tree if
they are asked for and it is the last trial, and `PASS` from a verifier that started from the same
source. -/
structure Trial.Ok (cli : Options) (g : CSRGraph) (E : ℕ → ℕ → Prop) (last : Bool) (t : Trial) :
    Prop where
  searched : ∃ tree,SearchTree E t.source tree ∧
    t.parent = ((List.range g.numNodes).map fun v => encode (tree v)) ∧
    t.stats = if cli.doAnalysis && last then some (statsOf g tree) else none
  verified : t.verified = if cli.doVerify then some (t.source,true) else none

section Run
variable {draw} {cli : Options} {symmetrize : Bool} {el : List (ℕ × ℕ)} {fuel source : ℕ}
  {rng rng' : σ} {tree : ℕ → Option ℕ}

/-- The verifier's picker picks what the other one picked, and the search passes. -/
lemma verifyTrial_eq (hsize : maxNode el+1 ≤ 2^31) (hfuel : maxNode el+1 < fuel)
    (hpick : pickNext draw (graphOf symmetrize el) cli.startVertex fuel rng = some (source,rng'))
    (hlt : source < maxNode el+1) (htree : SearchTree (graphOf symmetrize el).Edge source tree)
    {vrng : σ} (hsame : cli.doVerify = true → vrng = rng) :
    ∃ vrng',verifyTrial draw cli (graphOf symmetrize el) fuel
        ((List.range (graphOf symmetrize el).numNodes).map fun v => encode (tree v)) vrng =
          some (if cli.doVerify then some (source,true) else none,vrng') ∧
      (cli.doVerify = true → vrng' = rng') := by
  have hg := ok_graphOf symmetrize el
  cases hverify : cli.doVerify with
  | true =>
    obtain rfl := hsame hverify
    have hlen : ((List.range (graphOf symmetrize el).numNodes).map fun v =>
        encode (tree v)).length = (graphOf symmetrize el).numNodes := by simp
    obtain ⟨ok,hok,hiff⟩ := bfsVerifier_fits hg hlt hsize hfuel hlen
    obtain rfl := hiff.mpr ((fits_iff hg hlt hlen).mpr ⟨tree,htree,rfl⟩)
    refine ⟨rng',?_,fun _ => rfl⟩
    simp only [verifyTrial,hverify,if_true,hpick,Option.bind_eq_bind,Option.bind_some,hok]
  | false => exact ⟨vrng,by simp [verifyTrial,hverify],fun h => by cases h⟩

/-- The two pickers stay in step. -/
lemma trials_spec (hsize : maxNode el+1 ≤ 2^31) (hfuel : maxNode el+1 < fuel)
    (hpick : ∀ rng : σ,∃ source rng',
      pickNext draw (graphOf symmetrize el) cli.startVertex fuel rng = some (source,rng') ∧
        source < maxNode el+1 ∧
        ∀ rest,Sources draw cli.startVertex symmetrize el rng' rest →
          Sources draw cli.startVertex symmetrize el rng (source :: rest))
    (rounds : ℕ) (rng vrng : σ) (hsame : cli.doVerify = true → vrng = rng) :
    ∃ ts,trials draw cli (graphOf symmetrize el) fuel rounds rng vrng = some ts ∧
      ts.length = rounds ∧
      Sources draw cli.startVertex symmetrize el rng (ts.map Trial.source) ∧
      ∀ i (t : Trial),ts[i]? = some t →
        t.Ok cli (graphOf symmetrize el) (EdgeOf symmetrize el) (i+1 = rounds) := by
  have hg := ok_graphOf symmetrize el
  induction rounds generalizing rng vrng with
  | zero =>
    refine ⟨[],rfl,rfl,?_,by simp⟩
    rw [Sources]
    split_ifs
    · simp
    · exact ⟨0,rfl⟩
  | succ rounds ih =>
    obtain ⟨source,rng',hsource,hlt,hsources⟩ := hpick rng
    obtain ⟨tree,htree,hdobfs⟩ := dobfs_eq (fun _ _ => Kernel.ok_sequential hg) hg hlt
      (show (15 : ℤ) ≠ 0 by decide) (show (0 : ℤ) < 18 by decide) hfuel
    obtain ⟨vrng',hverify,hsame'⟩ := verifyTrial_eq hsize hfuel hsource hlt htree hsame
    obtain ⟨ts,hts,hlen,hrest,hall⟩ := ih rng' vrng' hsame'
    have hstats : trialStats cli (graphOf symmetrize el) rounds
        ((List.range (graphOf symmetrize el).numNodes).map fun v => encode (tree v)) =
          some (if cli.doAnalysis && rounds = 0 then some (statsOf (graphOf symmetrize el) tree)
            else none) := by
      rw [trialStats,bfsStats_eq hg]
      split_ifs <;> rfl
    refine ⟨⟨source,(List.range (graphOf symmetrize el).numNodes).map fun v => encode (tree v),
      if cli.doAnalysis && rounds = 0 then some (statsOf (graphOf symmetrize el) tree) else none,
      if cli.doVerify then some (source,true) else none⟩ :: ts,?_,by simp [hlen],
      hsources _ hrest,?_⟩
    · simp only [trials,hsource,Option.bind_eq_bind,Option.bind_some,hdobfs,hstats,hverify,hts]
    · rintro (_ | i) t ht
      · obtain rfl := Option.some.inj ht
        refine ⟨⟨tree,edge_graphOf_eq symmetrize el ▸ htree,rfl,?_⟩,rfl⟩
        rw [decide_eq_decide.mpr (show 0+1 = rounds+1 ↔ rounds = 0 by omega)]
      · rw [List.getElem?_cons_succ] at ht
        simpa using hall i t ht

/-- From any edge list, built in any order of the threads, and any start vertex or generator that
finds one: all trials end, search out shortest walks from the vertex or from the nodes that were
drawn, and pass the verifier. -/
theorem bfsMain_passes (hsize : maxNode el+1 ≤ 2^31) (hfuel : maxNode el+1 < fuel)
    (hstart : cli.startVertex = -1 ∨ (0 ≤ cli.startVertex ∧ cli.startVertex < maxNode el+1))
    (hdraw : cli.startVertex = -1 → ∀ rng,(draw rng).1 < maxNode el+1)
    (hhit : cli.startVertex = -1 →
      ∀ rng,∃ k < fuel,∃ v,EdgeOf symmetrize el (drawn draw k rng) v)
    (sched : ℕ → Schedule) (seed : σ) :
    ∃ g ts,makeGraph sched symmetrize el = some g ∧
      bfsMain draw sched symmetrize cli el fuel seed = some ts ∧ ts.length = cli.numTrials ∧
      Sources draw cli.startVertex symmetrize el seed (ts.map Trial.source) ∧
      ∀ i (t : Trial),ts[i]? = some t →
        t.Ok cli g (EdgeOf symmetrize el) (i+1 = cli.numTrials) := by
  have hpick : ∀ rng : σ,∃ source rng',
      pickNext draw (graphOf symmetrize el) cli.startVertex fuel rng = some (source,rng') ∧
        source < maxNode el+1 ∧
        ∀ rest,Sources draw cli.startVertex symmetrize el rng' rest →
          Sources draw cli.startVertex symmetrize el rng (source :: rest) := by
    intro rng
    rcases hstart with hnone | ⟨hnonneg,hlt⟩
    · obtain ⟨k,hk,hedge⟩ := hhit hnone rng
      rw [hnone]
      simp only [pickNext,ne_eq,not_true_eq_false,if_false]
      exact drawSource_spec (hdraw hnone) hk (hasNeighbor_iff.mpr hedge)
    · have hne : cli.startVertex ≠ -1 := by omega
      refine ⟨cli.startVertex.toNat,rng,by simp [pickNext,hnonneg,hne],by omega,?_⟩
      intro rest hrest
      rw [Sources,if_pos hne] at hrest ⊢
      exact List.forall_mem_cons.mpr ⟨by omega,hrest⟩
  obtain ⟨ts,hts,hrest⟩ := trials_spec hsize hfuel hpick cli.numTrials seed seed fun _ => rfl
  exact ⟨graphOf symmetrize el,ts,makeGraph_eq sched symmetrize el,
    by simp only [bfsMain,makeGraph_eq,Option.bind_eq_bind,Option.bind_some,hts],hrest⟩

/-- Three trials on the path `0 - 1 - 3`, from numbers that count up; node `2`, which has no
neighbors, is drawn and passed over. -/
theorem bfsMain_passes_path :
    ∃ g ts,makeGraph (fun _ => .sequential) true [(0,1),(1,3)] = some g ∧
      bfsMain (fun n : ℕ => (n % 4,n+1)) (fun _ => .sequential) true ⟨true,3,-1,true⟩
        [(0,1),(1,3)] 5 1 = some ts ∧ ts.length = 3 ∧
      Sources (fun n : ℕ => (n % 4,n+1)) (-1) true [(0,1),(1,3)] 1 (ts.map Trial.source) ∧
      ∀ i (t : Trial),ts[i]? = some t →
        t.Ok ⟨true,3,-1,true⟩ g (EdgeOf true [(0,1),(1,3)]) (i+1 = 3) := by
  have hall : ∀ m < 4,m ≠ 2 → hasNeighbor true [(0,1),(1,3)] m = true := by decide
  refine bfsMain_passes (by decide) (by decide) (.inl rfl) (fun _ n => Nat.mod_lt n (by decide))
    (fun _ n => ?_) _ _
  by_cases htwo : n % 4 = 2
  · refine ⟨1,by decide,hasNeighbor_iff.mp (hall _ (Nat.mod_lt _ (by decide)) ?_)⟩
    change (n+1) % 4 ≠ 2
    omega
  · exact ⟨0,by decide,hasNeighbor_iff.mp (hall _ (Nat.mod_lt _ (by decide)) htwo)⟩

end Run

end ElasticTranslations.Gapbs
