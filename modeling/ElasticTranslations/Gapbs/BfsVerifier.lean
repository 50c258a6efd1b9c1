import ElasticTranslations.Gapbs.BfsSearch
import Mathlib.Algebra.Ring.Nat

/-! `BFSVerifier`, which searches on its own, node by node, accepts exactly the parents of trees of
shortest walks. -/
namespace ElasticTranslations.Gapbs
open Structures Relation

/-- Addition of `int`, undefined when it overflows. -/
def addInt (a b : ℤ) : Option ℤ :=
  if -2147483648 ≤ a+b ∧ a+b ≤ 2147483647 then some (a+b) else none

structure Visit where
  depth : List ℤ
  toVisit : List ℕ

/-- The body of the inner loop. An entry past the space reserved would move the vector away under
the iterator. -/
def visitEdge (reserved u : ℕ) (s : Visit) (v : ℕ) : Option Visit := do
  let dv ← s.depth[v]?
  if dv = -1 then do
    let du ← s.depth[u]?
    let dv ← addInt du 1
    let depth ← write s.depth v dv
    if s.toVisit.length < reserved then some ⟨depth,s.toVisit++[v]⟩ else none
  else some s

/-- The loop over `to_visit`, from position `i`. -/
def visitAll (g : CSRGraph) : ℕ → ℕ → Visit → Option Visit
  | 0,_,_ => none
  | fuel+1,i,s =>
    if i = s.toVisit.length then some s
    else do
      let u ← s.toVisit[i]?
      let vs ← g.outNeigh u
      let s ← vs.foldlM (visitEdge g.numNodes u) s
      visitAll g fuel (i+1) s

/-- The search for the parent `p` of a node of depth `du`. -/
def parentOk (depth : List ℤ) (p du : ℤ) : List ℕ → Option Bool
  | [] => some false
  | v :: vs =>
    if v = p then do
      let dv ← depth[v]?
      some (decide (dv = du-1))
    else parentOk depth p du vs

def verifyNode (g : CSRGraph) (source : ℕ) (parent depth : List ℤ) (u : ℕ) : Option Bool := do
  let du ← depth[u]?
  let pu ← parent[u]?
  if du ≠ -1 ∧ pu ≠ -1 then
    if u = source then some (decide (pu = u ∧ du = 0))
    else do
      let vs ← g.inNeigh u
      parentOk depth pu du vs
  else some (decide (du = pu))

/-- A loop that returns `false` at the first node that fails. -/
def verifyNodes (check : ℕ → Option Bool) : List ℕ → Option Bool
  | [] => some true
  | u :: us => do
    if ← check u then verifyNodes check us else some false

def bfsVerifier (g : CSRGraph) (source : ℕ) (parent : List ℤ) (fuel : ℕ) : Option Bool := do
  let depth ← write (List.replicate g.numNodes (-1)) source 0
  let s ← visitAll g fuel 0 ⟨depth,[source]⟩
  verifyNodes (verifyNode g source parent s.depth) (List.range g.numNodes)

variable {g : CSRGraph} {source : ℕ}

/-- The nodes `visited` of `to_visit` have handed on their depths, `waiting` have not. The depths
are the levels, and do not descend. -/
structure Visit.Ok (g : CSRGraph) (source : ℕ) (visited waiting : List ℕ) (s : Visit) : Prop where
  toVisit_eq : s.toVisit = visited++waiting
  source_mem : source ∈ s.toVisit
  length_eq : s.depth.length = g.numNodes
  nodup : s.toVisit.Nodup
  level : ∀ v ∈ s.toVisit,∃ d : ℕ,s.depth[v]? = some (d : ℤ) ∧ AtLevel g.Edge source d v
  unseen : ∀ v < g.numNodes,v ∉ s.toVisit → s.depth[v]? = some (-1)
  sorted : s.toVisit.Pairwise fun u v =>
    ∀ d e,AtLevel g.Edge source d u → AtLevel g.Edge source e v → d ≤ e
  done : ∀ u ∈ visited,∀ v,g.Edge u v → v ∈ s.toVisit
  near : ∀ u ∈ waiting.head?,∀ d,AtLevel g.Edge source d u → ∀ v ∈ s.toVisit,
    ∀ e,AtLevel g.Edge source e v → e ≤ d+1

/-- An edge to a node without a depth. -/
lemma visitEdge_of_unseen {reserved u v : ℕ} {s : Visit} {du dv : ℤ}
    (hv : s.depth[v]? = some (-1)) (hu : s.depth[u]? = some du) (hadd : addInt du 1 = some dv)
    (hroom : s.toVisit.length < reserved) :
    visitEdge reserved u s v = some ⟨s.depth.set v dv,s.toVisit++[v]⟩ := by
  have hlt : v < s.depth.length := (List.getElem?_eq_some_iff.mp hv).1
  simp [visitEdge,hv,hu,hadd,write_of_lt hlt,hroom]

namespace Visit.Ok
variable {s : Visit} {visited waiting : List ℕ} {u v d : ℕ}

/-- The levels in front of those that wait are found. -/
lemma complete (h : s.Ok g source visited waiting)
    (hwaiting : ∀ u ∈ waiting,∀ e,AtLevel g.Edge source e u → d ≤ e) {e : ℕ} (he : e ≤ d)
    (hv : AtLevel g.Edge source e v) : v ∈ s.toVisit := by
  induction e generalizing v with
  | zero =>
    rw [atLevel_zero_iff.mp hv]
    exact h.source_mem
  | succ e ih =>
    obtain ⟨u,hu,huv⟩ := hv.exists_pred
    have hmem := ih (by omega) hu
    rw [h.toVisit_eq] at hmem
    rcases List.mem_append.mp hmem with hmem | hmem
    · exact h.done u hmem v huv
    · have := hwaiting u hmem e hu
      omega

lemma waiting_ge (h : s.Ok g source visited (u :: waiting)) (hu : AtLevel g.Edge source d u) :
    ∀ v ∈ u :: waiting,∀ e,AtLevel g.Edge source e v → d ≤ e := by
  intro v hv e he
  have hsorted := h.sorted
  rw [h.toVisit_eq,List.pairwise_append,List.pairwise_cons] at hsorted
  rcases List.mem_cons.mp hv with rfl | hv
  · exact (hu.unique he).le
  · exact hsorted.2.1.1 v hv d e hu he

lemma length_lt (h : s.Ok g source visited waiting) (hg : g.Ok) (hsource : source < g.numNodes)
    (hv : v < g.numNodes) (hnew : v ∉ s.toVisit) : s.toVisit.length < g.numNodes := by
  have hnodup : (s.toVisit++[v]).Nodup :=
    h.nodup.append (List.nodup_singleton v) (List.disjoint_singleton.mpr hnew)
  have hsub : (s.toVisit++[v]).Subperm (List.range g.numNodes) := by
    apply hnodup.subperm
    intro w hw
    rw [List.mem_range]
    rcases List.mem_append.mp hw with hw | hw
    · obtain ⟨d,-,hd⟩ := h.level w hw
      exact atLevel_lt hg hsource hd
    · rwa [List.mem_singleton.mp hw]
  have := hsub.length_le
  simp only [List.length_append,List.length_singleton,List.length_range] at this
  omega

lemma length_le (h : s.Ok g source visited waiting) (hg : g.Ok) (hsource : source < g.numNodes) :
    s.toVisit.length ≤ g.numNodes := by
  have hsub : s.toVisit.Subperm (List.range g.numNodes) := by
    apply h.nodup.subperm
    intro w hw
    obtain ⟨d,-,hd⟩ := h.level w hw
    exact List.mem_range.mpr (atLevel_lt hg hsource hd)
  simpa using hsub.length_le

/-- A node one level behind the first one that waits joins them. -/
lemma extend (h : s.Ok g source visited (u :: waiting)) (hv : v < g.numNodes)
    (hmem : v ∉ s.toVisit) (hd : AtLevel g.Edge source d u)
    (hlevel : AtLevel g.Edge source (d+1) v) :
    Visit.Ok g source visited (u :: (waiting++[v]))
      ⟨s.depth.set v ((d : ℤ)+1),s.toVisit++[v]⟩ := by
  have hvlen : v < s.depth.length := by rwa [h.length_eq]
  have hnear : ∀ w ∈ s.toVisit,∀ e,AtLevel g.Edge source e w → e ≤ d+1 := fun w hw e he =>
    h.near u (by simp) d hd w hw e he
  exact {
    toVisit_eq := by simp [h.toVisit_eq]
    source_mem := by simp [h.source_mem]
    length_eq := by simpa using h.length_eq
    nodup := h.nodup.append (List.nodup_singleton v) (List.disjoint_singleton.mpr hmem)
    level := fun w hw => by
      by_cases hwv : w = v
      · subst hwv
        exact ⟨d+1,by simp [List.getElem?_set_self hvlen],hlevel⟩
      · obtain ⟨e,he,hlevel'⟩ := h.level w (by simpa [hwv] using hw)
        exact ⟨e,by rw [List.getElem?_set_ne (Ne.symm hwv),he],hlevel'⟩
    unseen := fun w hw hnew => by
      rw [List.mem_append,List.mem_singleton,not_or] at hnew
      rw [List.getElem?_set_ne (Ne.symm hnew.2)]
      exact h.unseen w hw hnew.1
    sorted := by
      rw [List.pairwise_append]
      refine ⟨h.sorted,List.pairwise_singleton _ _,fun w hw x hx k e hk he => ?_⟩
      rw [List.mem_singleton.mp hx] at he
      rw [he.unique hlevel]
      exact hnear w hw k hk
    done := fun w hw x hwx => by simp [h.done w hw x hwx]
    near := fun w hw k hk x hx e he => by
      obtain rfl : u = w := by simpa using hw
      obtain rfl := hd.unique hk
      rcases List.mem_append.mp hx with hx | hx
      · exact hnear x hx e he
      · rw [List.mem_singleton.mp hx] at he
        exact (he.unique hlevel).le }

/-- An edge of the first node that waits. -/
lemma visitEdge (h : s.Ok g source visited (u :: waiting)) (hg : g.Ok)
    (hsource : source < g.numNodes) (hsize : g.numNodes ≤ 2^31) (huv : g.Edge u v) :
    ∃ s' more,Gapbs.visitEdge g.numNodes u s v = some s' ∧
      s'.Ok g source visited (u :: (waiting++more)) ∧ v ∈ s'.toVisit ∧
      ∀ w ∈ s.toVisit,w ∈ s'.toVisit := by
  have hv : v < g.numNodes := hg.right_lt huv
  obtain ⟨d,hdepth,hd⟩ := h.level u (by rw [h.toVisit_eq]; simp)
  by_cases hmem : v ∈ s.toVisit
  · obtain ⟨e,he,-⟩ := h.level v hmem
    have hne : (e : ℤ) ≠ -1 := by omega
    refine ⟨s,[],by simp [Gapbs.visitEdge,he,hne],by simpa using h,hmem,fun _ hw => hw⟩
  · have hlevel : AtLevel g.Edge source (d+1) v := by
      rw [atLevel_succ_iff]
      refine ⟨?_,u,hd,huv⟩
      rintro ⟨e,he,hlevel⟩
      exact hmem (h.complete (h.waiting_ge hd) he hlevel)
    have hlt := level_lt_numNodes hg hsource hlevel
    have hadd : addInt d 1 = some ((d : ℤ)+1) := if_pos (by omega)
    have hroom := h.length_lt hg hsource hv hmem
    exact ⟨⟨s.depth.set v ((d : ℤ)+1),s.toVisit++[v]⟩,[v],
      visitEdge_of_unseen (h.unseen v hv hmem) hdepth hadd hroom,h.extend hv hmem hd hlevel,by simp,
      fun w hw => by simp [hw]⟩

/-- All edges of the first node that waits. -/
lemma visitNode (h : s.Ok g source visited (u :: waiting)) (hg : g.Ok)
    (hsource : source < g.numNodes) (hsize : g.numNodes ≤ 2^31) :
    ∃ vs s' waiting',g.outNeigh u = some vs ∧
      vs.foldlM (Gapbs.visitEdge g.numNodes u) s = some s' ∧
      s'.Ok g source (visited++[u]) waiting' := by
  obtain ⟨d,-,hd⟩ := h.level u (by rw [h.toVisit_eq]; simp)
  obtain ⟨vs,hvs,-⟩ := hg.out u (atLevel_lt hg hsource hd)
  obtain ⟨s',hs',waiting',h',hdone⟩ := foldlM_rule (Gapbs.visitEdge g.numNodes u) (l := vs)
    (s := s) (I := fun done s => ∃ waiting,s.Ok g source visited (u :: waiting) ∧
      ∀ v ∈ done,v ∈ s.toVisit) ⟨waiting,h,by simp⟩ (by
      rintro done v todo s rfl ⟨waiting,h,hdone⟩
      obtain ⟨s',more,hs',h',hv,hold⟩ := h.visitEdge (v := v) hg hsource hsize ⟨_,hvs,by simp⟩
      refine ⟨s',hs',_,h',fun w hw => ?_⟩
      rcases List.mem_append.mp hw with hw | hw
      · exact hold w (hdone w hw)
      · rwa [List.mem_singleton.mp hw])
  refine ⟨vs,s',waiting',hvs,hs',?_⟩
  exact {
    toVisit_eq := by simp [h'.toVisit_eq]
    source_mem := h'.source_mem
    length_eq := h'.length_eq
    nodup := h'.nodup
    level := h'.level
    unseen := h'.unseen
    sorted := h'.sorted
    done := fun w hw x hwx => by
      rcases List.mem_append.mp hw with hw | hw
      · exact h'.done w hw x hwx
      · rw [List.mem_singleton.mp hw] at hwx
        obtain ⟨vs',hvs',hx⟩ := hwx
        rw [hvs] at hvs'
        cases hvs'
        exact hdone x hx
    near := fun w hw k hk x hx e he => by
      have hle := h'.waiting_ge hd w (List.mem_cons_of_mem u (List.mem_of_mem_head? hw)) k hk
      have := h'.near u rfl d hd x hx e he
      omega }

lemma visitAll (hg : g.Ok) (hsource : source < g.numNodes) (hsize : g.numNodes ≤ 2^31) {fuel : ℕ}
    (h : s.Ok g source visited waiting) (hfuel : g.numNodes < fuel+visited.length) :
    ∃ s' all,Gapbs.visitAll g fuel visited.length s = some s' ∧ s'.Ok g source all [] := by
  induction fuel generalizing s visited waiting with
  | zero =>
    have hle := h.length_le hg hsource
    rw [h.toVisit_eq,List.length_append] at hle
    omega
  | succ fuel ih =>
    cases waiting with
    | nil =>
      exact ⟨s,visited,by simp [Gapbs.visitAll,h.toVisit_eq],h⟩
    | cons u waiting =>
      obtain ⟨vs,s₁,waiting',hvs,hs₁,h₁⟩ := h.visitNode hg hsource hsize
      obtain ⟨s',all,hs',h'⟩ := ih h₁ (by
        simp only [List.length_append,List.length_singleton]
        omega)
      refine ⟨s',all,?_,h'⟩
      rw [List.length_append,List.length_singleton] at hs'
      simp [Gapbs.visitAll,h.toVisit_eq,hvs,hs₁,hs']

end Visit.Ok

/-- The depths that the verifier computes are the levels. -/
lemma visitAll_spec (hg : g.Ok) (hsource : source < g.numNodes) (hsize : g.numNodes ≤ 2^31)
    {fuel : ℕ} (hfuel : g.numNodes < fuel) :
    ∃ depth s,write (List.replicate g.numNodes (-1)) source 0 = some depth ∧
      visitAll g fuel 0 ⟨depth,[source]⟩ = some s ∧ s.depth.length = g.numNodes ∧
      ∀ v < g.numNodes,(∃ d : ℕ,s.depth[v]? = some (d : ℤ) ∧ AtLevel g.Edge source d v) ∨
        (s.depth[v]? = some (-1) ∧ ∀ d,¬AtLevel g.Edge source d v) := by
  have hlen : source < (List.replicate g.numNodes (-1 : ℤ)).length := by simpa using hsource
  have h : Visit.Ok g source [] [source]
      ⟨(List.replicate g.numNodes (-1)).set source 0,[source]⟩ := {
    toVisit_eq := rfl
    source_mem := by simp
    length_eq := by simp
    nodup := List.nodup_singleton source
    level := fun v hv => by
      obtain rfl := List.mem_singleton.mp hv
      exact ⟨0,List.getElem?_set_self hlen,.start⟩
    unseen := fun v hv hnew => by
      have hne : source ≠ v := by
        rintro rfl
        simp at hnew
      rw [List.getElem?_set_ne hne,List.getElem?_replicate,if_pos hv]
    sorted := List.pairwise_singleton _ _
    done := by simp
    near := fun u hu d _ v hv e he => by
      rw [List.mem_singleton.mp hv] at he
      have := he.unique .start
      omega }
  obtain ⟨s,all,hs,h'⟩ := h.visitAll hg hsource hsize (by simpa using hfuel)
  refine ⟨_,s,write_of_lt hlen 0,hs,h'.length_eq,fun v hv => ?_⟩
  by_cases hmem : v ∈ s.toVisit
  · exact .inl (h'.level v hmem)
  · refine .inr ⟨h'.unseen v hv hmem,fun d hd => ?_⟩
    exact hmem (h'.complete (d := d) (by simp) le_rfl hd)

/-- The entry of a node in the parents of a tree of shortest walks. -/
def Fits (g : CSRGraph) (source u : ℕ) (p : ℤ) : Prop :=
  (p = -1 ∧ ∀ d,¬AtLevel g.Edge source d u) ∨ (u = source ∧ p = u) ∨
    (u ≠ source ∧ ∃ w d : ℕ,p = w ∧ g.Edge w u ∧ AtLevel g.Edge source d w ∧
      AtLevel g.Edge source (d+1) u)

lemma parentOk_spec (depth : List ℤ) (p du : ℤ) (vs : List ℕ) (hvs : ∀ v ∈ vs,v < depth.length) :
    ∃ ok,parentOk depth p du vs = some ok ∧
      (ok = true ↔ ∃ v ∈ vs,(v : ℤ) = p ∧ depth[v]? = some (du-1)) := by
  induction vs with
  | nil => exact ⟨false,rfl,by simp⟩
  | cons v vs ih =>
    by_cases hvp : (v : ℤ) = p
    · have hlt : v < depth.length := hvs v (by simp)
      have hdepth : depth[v]? = some depth[v] := List.getElem?_eq_getElem hlt
      refine ⟨decide (depth[v] = du-1),by simp [parentOk,hvp,hdepth],?_⟩
      rw [decide_eq_true_iff]
      constructor
      · intro heq
        exact ⟨v,by simp,hvp,by rw [hdepth,heq]⟩
      · rintro ⟨w,-,hwp,hw⟩
        obtain rfl : w = v := by omega
        rw [hdepth] at hw
        exact Option.some.inj hw
    · obtain ⟨ok,hok,hiff⟩ := ih fun w hw => hvs w (by simp [hw])
      refine ⟨ok,by simp [parentOk,hvp,hok],?_⟩
      rw [hiff]
      simp [hvp]

section Node
variable {parent depth : List ℤ} {u : ℕ} {p : ℤ}

/-- A node that the search has not reached. -/
lemma verifyNode_of_unreached (hp : parent[u]? = some p) (hd : depth[u]? = some (-1))
    (hnone : ∀ d,¬AtLevel g.Edge source d u) :
    ∃ ok,verifyNode g source parent depth u = some ok ∧ (ok = true ↔ Fits g source u p) := by
  refine ⟨decide (-1 = p),by simp [verifyNode,hd,hp],?_⟩
  rw [decide_eq_true_iff]
  constructor
  · intro heq
    exact .inl ⟨heq.symm,hnone⟩
  · rintro (⟨heq,-⟩ | ⟨rfl,-⟩ | ⟨-,w,d,-,-,-,hlev⟩)
    · exact heq.symm
    · exact absurd AtLevel.start (hnone 0)
    · exact absurd hlev (hnone (d+1))

variable (hlevel : ∀ v < g.numNodes,
  (∃ d : ℕ,depth[v]? = some (d : ℤ) ∧ AtLevel g.Edge source d v) ∨
    (depth[v]? = some (-1) ∧ ∀ d,¬AtLevel g.Edge source d v))
include hlevel

/-- A node behind the source, with the loop over its incoming edges. -/
lemma verifyNode_of_behind (hg : g.Ok) (hdepth : depth.length = g.numNodes) (hu : u < g.numNodes)
    {d : ℕ} (hp : parent[u]? = some p) (hd : depth[u]? = some (d : ℤ))
    (hlev : AtLevel g.Edge source d u) (hpne : p ≠ -1) (hus : u ≠ source) :
    ∃ ok,verifyNode g source parent depth u = some ok ∧ (ok = true ↔ Fits g source u p) := by
  have hdne : (d : ℤ) ≠ -1 := by omega
  obtain ⟨us,hus',hmem⟩ := hg.into u hu
  obtain ⟨ok,hok,hiff⟩ := parentOk_spec depth p d us fun v hv => by
    rw [hdepth]
    exact hg.left_lt ((hmem v).mp hv)
  refine ⟨ok,by simp [verifyNode,hd,hp,hdne,hpne,hus,hus',hok],?_⟩
  rw [hiff]
  simp only [Fits,hpne,false_and,hus,false_or,ne_eq,not_false_iff,true_and]
  constructor
  · rintro ⟨w,hw,hwp,hwd⟩
    have hedge := (hmem w).mp hw
    rcases hlevel w (hg.left_lt hedge) with ⟨k,hk,hlevk⟩ | ⟨hk,-⟩
    · rw [hk] at hwd
      have hwd := Option.some.inj hwd
      exact ⟨w,k,hwp.symm,hedge,hlevk,by rwa [show k+1 = d by omega]⟩
    · rw [hk] at hwd
      have hwd := Option.some.inj hwd
      obtain rfl : d = 0 := by omega
      exact absurd (atLevel_zero_iff.mp hlev) hus
  · rintro ⟨w,k,hwp,hedge,hlevk,hlevk'⟩
    refine ⟨w,(hmem w).mpr hedge,hwp.symm,?_⟩
    obtain rfl := hlev.unique hlevk'
    rcases hlevel w (hg.left_lt hedge) with ⟨k',hk',hlevk''⟩ | ⟨-,hnone⟩
    · obtain rfl := hlevk.unique hlevk''
      rw [hk']
      congr 1
      omega
    · exact absurd hlevk (hnone k)

lemma verifyNode_spec (hg : g.Ok) (hlen : parent.length = g.numNodes)
    (hdepth : depth.length = g.numNodes) (hu : u < g.numNodes) :
    ∃ ok,verifyNode g source parent depth u = some ok ∧
      (ok = true ↔ ∃ p,parent[u]? = some p ∧ Fits g source u p) := by
  obtain ⟨p,hp⟩ : ∃ p,parent[u]? = some p := ⟨_,List.getElem?_eq_getElem (by omega)⟩
  simp only [hp,Option.some.injEq,exists_eq_left']
  rcases hlevel u hu with ⟨d,hd,hlev⟩ | ⟨hd,hnone⟩
  · have hdne : (d : ℤ) ≠ -1 := by omega
    by_cases hpne : p = -1
    · subst hpne
      refine ⟨false,by simp [verifyNode,hd,hp,hdne],?_⟩
      simp only [Bool.false_eq_true,false_iff,Fits,not_or]
      refine ⟨fun h => h.2 d hlev,fun h => by omega,?_⟩
      rintro ⟨-,w,-,hw,-⟩
      omega
    · by_cases hus : u = source
      · subst hus
        obtain rfl := hlev.unique .start
        refine ⟨decide (p = u),by simp [verifyNode,hd,hp,hpne],?_⟩
        simp [Fits,hpne]
      · exact verifyNode_of_behind hlevel hg hdepth hu hp hd hlev hpne hus
  · exact verifyNode_of_unreached hp hd hnone

end Node

lemma verifyNodes_spec {check : ℕ → Option Bool} {P : ℕ → Prop} (us : List ℕ)
    (h : ∀ u ∈ us,∃ ok,check u = some ok ∧ (ok = true ↔ P u)) :
    ∃ ok,verifyNodes check us = some ok ∧ (ok = true ↔ ∀ u ∈ us,P u) := by
  induction us with
  | nil => exact ⟨true,rfl,by simp⟩
  | cons u us ih =>
    obtain ⟨ok,hok,hP⟩ := h u (by simp)
    cases ok with
    | true =>
      obtain ⟨ok,hok',hall⟩ := ih fun v hv => h v (by simp [hv])
      exact ⟨ok,by simp [verifyNodes,hok,hok'],by simp [hall,hP.mp rfl]⟩
    | false =>
      refine ⟨false,by simp [verifyNodes,hok],?_⟩
      have hnot : ¬P u := fun hPu => absurd (hP.mpr hPu) (by simp)
      simp [hnot]

namespace Fits
variable {parent : List ℤ} {p : ℤ} {u v : ℕ}

lemma eq_source (h : Fits g source source p) : p = source := by
  rcases h with ⟨-,hnone⟩ | ⟨-,hp⟩ | ⟨hne,-⟩
  · exact absurd AtLevel.start (hnone 0)
  · exact hp
  · exact absurd rfl hne

lemma isSome_iff (h : Fits g source v p) (hp : parent[v]? = some p) :
    (parentOf parent v).isSome ↔ ∃ d,AtLevel g.Edge source d v := by
  rcases h with ⟨rfl,hnone⟩ | ⟨rfl,rfl⟩ | ⟨-,w,d,rfl,-,-,hlev⟩
  · rw [parentOf_of_neg hp (by omega)]
    simpa using hnone
  · rw [parentOf_of_nonneg hp (by omega)]
    exact ⟨fun _ => ⟨0,.start⟩,fun _ => rfl⟩
  · rw [parentOf_of_nonneg hp (by omega)]
    exact ⟨fun _ => ⟨d+1,hlev⟩,fun _ => rfl⟩

lemma up (h : Fits g source v p) (hp : parent[v]? = some p) (huv : parentOf parent v = some u)
    (hv : v ≠ source) :
    g.Edge u v ∧ ∃ d,AtLevel g.Edge source d u ∧ AtLevel g.Edge source (d+1) v := by
  rcases h with ⟨rfl,-⟩ | ⟨rfl,-⟩ | ⟨-,w,d,rfl,hedge,hw,hlev⟩
  · rw [parentOf_of_neg hp (by omega)] at huv
    cases huv
  · exact absurd rfl hv
  · rw [parentOf_of_nonneg hp (by omega),Int.toNat_natCast] at huv
    cases huv
    exact ⟨hedge,d,hw,hlev⟩

lemma encode_eq (h : Fits g source v p) (hp : parent[v]? = some p) :
    encode (parentOf parent v) = p := by
  rcases h with ⟨rfl,-⟩ | ⟨-,rfl⟩ | ⟨-,w,-,rfl,-⟩
  · rw [parentOf_of_neg hp (by omega)]
    rfl
  · rw [parentOf_of_nonneg hp (by omega)]
    rfl
  · rw [parentOf_of_nonneg hp (by omega)]
    rfl

/-- Entries that all fit are the parents in a tree. -/
lemma searchTree (hg : g.Ok) (hsource : source < g.numNodes) (hlen : parent.length = g.numNodes)
    (hfits : ∀ u < g.numNodes,∃ p,parent[u]? = some p ∧ Fits g source u p) :
    SearchTree g.Edge source (parentOf parent) := by
  refine ⟨?_,fun v => ?_,fun u v huv hv => ?_⟩
  · obtain ⟨p,hp,hfit⟩ := hfits source hsource
    obtain rfl := hfit.eq_source
    rw [parentOf_of_nonneg hp (by omega)]
    simp
  · rw [reaches_iff_atLevel]
    by_cases hv : v < g.numNodes
    · obtain ⟨p,hp,hfit⟩ := hfits v hv
      exact hfit.isSome_iff hp
    · constructor
      · intro hsome
        have := lt_length_of_parentOf hsome
        omega
      · rintro ⟨d,hd⟩
        exact absurd (atLevel_lt hg hsource hd) hv
  · have hlt := lt_length_of_parentOf (show (parentOf parent v).isSome by simp [huv])
    obtain ⟨p,hp,hfit⟩ := hfits v (by omega)
    exact hfit.up hp huv hv

lemma of_searchTree {tree : ℕ → Option ℕ} (htree : SearchTree g.Edge source tree) (u : ℕ) :
    Fits g source u (encode (tree u)) := by
  cases hparent : tree u with
  | none =>
    refine .inl ⟨rfl,fun d hd => ?_⟩
    have := (htree.reached u).mpr (reaches_iff_atLevel.mpr ⟨d,hd⟩)
    rw [hparent] at this
    simp at this
  | some w =>
    by_cases hus : u = source
    · subst hus
      rw [htree.root] at hparent
      cases hparent
      exact .inr (.inl ⟨rfl,rfl⟩)
    · obtain ⟨hedge,d,hw,hlev⟩ := htree.up w u hparent hus
      exact .inr (.inr ⟨hus,w,d,rfl,hedge,hw,hlev⟩)

end Fits

/-- Entries that fit are those of a tree. -/
lemma fits_iff {parent : List ℤ} (hg : g.Ok) (hsource : source < g.numNodes)
    (hlen : parent.length = g.numNodes) :
    (∀ u ∈ List.range g.numNodes,∃ p,parent[u]? = some p ∧ Fits g source u p) ↔
      ∃ tree,SearchTree g.Edge source tree ∧
        parent = (List.range g.numNodes).map fun v => encode (tree v) := by
  constructor
  · intro hall
    have hfits : ∀ u < g.numNodes,∃ p,parent[u]? = some p ∧ Fits g source u p := fun u hu =>
      hall u (List.mem_range.mpr hu)
    refine ⟨parentOf parent,Fits.searchTree hg hsource hlen hfits,?_⟩
    apply List.ext_getElem?
    intro v
    rw [List.getElem?_map]
    by_cases hv : v < g.numNodes
    · obtain ⟨p,hp,hfit⟩ := hfits v hv
      rw [List.getElem?_range hv,Option.map_some,hfit.encode_eq hp,hp]
    · rw [List.getElem?_eq_none (by omega),List.getElem?_eq_none (by simpa using hv)]
      rfl
  · rintro ⟨tree,htree,rfl⟩ u hu
    have hu := List.mem_range.mp hu
    exact ⟨encode (tree u),by rw [List.getElem?_map,List.getElem?_range hu]; rfl,
      .of_searchTree htree u⟩

lemma bfsVerifier_fits (hg : g.Ok) (hsource : source < g.numNodes) (hsize : g.numNodes ≤ 2^31)
    {fuel : ℕ} (hfuel : g.numNodes < fuel) {parent : List ℤ} (hlen : parent.length = g.numNodes) :
    ∃ ok,bfsVerifier g source parent fuel = some ok ∧
      (ok = true ↔ ∀ u ∈ List.range g.numNodes,∃ p,parent[u]? = some p ∧ Fits g source u p) := by
  obtain ⟨depth,s,hdepth,hs,hslen,hlevel⟩ := visitAll_spec hg hsource hsize hfuel
  obtain ⟨ok,hok,hiff⟩ := verifyNodes_spec (List.range g.numNodes) fun u hu =>
    verifyNode_spec hlevel hg hlen hslen (List.mem_range.mp hu)
  exact ⟨ok,by simp only [bfsVerifier,hdepth,hs,Option.bind_eq_bind,Option.bind_some,hok],hiff⟩

/-- The verifier never leaves its arrays, and accepts an array exactly if it holds the parents of a
tree of shortest walks. -/
theorem bfsVerifier_iff (hg : g.Ok) (hsource : source < g.numNodes) (hsize : g.numNodes ≤ 2^31)
    {fuel : ℕ} (hfuel : g.numNodes < fuel) {parent : List ℤ} (hlen : parent.length = g.numNodes) :
    ∃ ok,bfsVerifier g source parent fuel = some ok ∧
      (ok = true ↔ ∃ tree,SearchTree g.Edge source tree ∧
        parent = (List.range g.numNodes).map fun v => encode (tree v)) := by
  obtain ⟨ok,hok,hiff⟩ := bfsVerifier_fits hg hsource hsize hfuel hlen
  exact ⟨ok,hok,hiff.trans (fits_iff hg hsource hlen)⟩

theorem bfsVerifier_iff_path :
    ∃ ok,bfsVerifier ⟨true,3,2,[0,1,2,2],[1,2],[0,0,1,2],[0,1]⟩ 1 [-1,1,1] 4 = some ok ∧
      (ok = true ↔
        ∃ tree,SearchTree (CSRGraph.Edge ⟨true,3,2,[0,1,2,2],[1,2],[0,0,1,2],[0,1]⟩) 1 tree ∧
          [-1,1,1] = (List.range 3).map fun v => encode (tree v)) :=
  bfsVerifier_iff (by decide) (by decide) (by decide) (by decide) (by decide)

end ElasticTranslations.Gapbs
