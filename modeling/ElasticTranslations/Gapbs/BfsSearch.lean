import ElasticTranslations.Gapbs.BfsSteps
import ElasticTranslations.Structures.RowLayout

/-! The whole search: in whatever direction its rounds go, it finds one level after the other, and
leaves a tree of shortest walks. -/
namespace ElasticTranslations.Gapbs
open Structures

variable {g : CSRGraph} {source d : ℕ} {s : Search}

lemma atLevel_lt (hg : g.Ok) (hsource : source < g.numNodes) {v : ℕ}
    (h : AtLevel g.Edge source d v) : v < g.numNodes := by
  cases d with
  | zero => rwa [atLevel_zero_iff.mp h]
  | succ d =>
    obtain ⟨u,-,huv⟩ := h.exists_pred
    exact hg.right_lt huv

lemma level_lt_numNodes (hg : g.Ok) (hsource : source < g.numNodes) {v : ℕ}
    (h : AtLevel g.Edge source d v) : d < g.numNodes := by
  have hlt := h.lt_card (S := Finset.range g.numNodes) fun e u hu =>
    Finset.mem_range.mpr (atLevel_lt hg hsource hu)
  rwa [Finset.card_range] at hlt

/-- What the nodes of one level find is the next one. -/
lemma Claimed.step {start parent : List ℤ} {S : ℕ → Prop} {xs : List ℕ}
    (h : Claimed start (fun u v => S u ∧ g.Edge u v) parent xs)
    (hexplored : Explored g.Edge source d (parentOf start))
    (hlevel : ∀ v,AtLevel g.Edge source d v → S v)
    (hwithin : ∀ v,S v → Within g.Edge source d v) :
    Explored g.Edge source (d+1) (parentOf parent) ∧
      ∀ v,v ∈ xs ↔ AtLevel g.Edge source (d+1) v := by
  refine ⟨hexplored.step hlevel hwithin h.expands,fun v => ?_⟩
  rw [h.new,hexplored.new_iff hlevel hwithin h.expands]

/-- How `DOBFS` stores the parents at its end. -/
def encode : Option ℕ → ℤ
  | none => -1
  | some u => u

section Entries
variable {order : List ℕ}

lemma initNode_fold (hg : g.Ok) (horder : order.Perm (List.range g.numNodes)) :
    ∃ parent,order.foldlM (fun parent n => initNode g n parent)
        (List.replicate g.numNodes 0) = some parent ∧ parent.length = g.numNodes ∧
      ∀ v,parentOf parent v = none := by
  have hfill := eachCell_rule (fun parent n => initNode g n parent)
    (g := fun n => if (g.outDegree n).getD 0 ≠ 0 then -(g.outDegree n).getD 0 else -1) horder
    (List.replicate g.numNodes 0) List.length_replicate (by
      intro ys n hn hylen _
      obtain ⟨degree,hdegree⟩ := hg.exists_outDegree hn
      have hlt : n < ys.length := by omega
      refine ⟨_,by rw [initNode,hdegree]; exact write_of_lt hlt _,by simpa using hylen,?_,?_⟩
      · rw [List.getElem?_set_self hlt,hdegree]
        rfl
      · exact fun j hj => List.getElem?_set_ne (Ne.symm hj))
  refine ⟨_,hfill,by simp,fun v => ?_⟩
  by_cases hv : v < g.numNodes
  · obtain ⟨degree,hdegree⟩ := hg.exists_outDegree hv
    refine parentOf_of_neg (by rw [List.getElem?_map,List.getElem?_range hv]; rfl) ?_
    simp only [hdegree,Option.getD_some]
    split_ifs <;> omega
  · rw [← Option.not_isSome_iff_eq_none]
    intro hsome
    have := lt_length_of_parentOf hsome
    rw [List.length_map,List.length_range] at this
    exact hv this

lemma clearNode_fold {parent : List ℤ} (hlen : parent.length = g.numNodes)
    (horder : order.Perm (List.range g.numNodes)) :
    order.foldlM (fun parent n => clearNode n parent) parent =
      some ((List.range g.numNodes).map fun v => encode (parentOf parent v)) := by
  refine eachCell_rule _ horder _ hlen fun ys n hn hylen hsame => ?_
  have hlt : n < parent.length := by omega
  have hparent : parent[n]? = some parent[n] := List.getElem?_eq_getElem hlt
  rw [hparent] at hsame
  by_cases hclear : parent[n] < -1
  · refine ⟨ys.set n (-1),?_,by simpa using hylen,?_,fun j hj => List.getElem?_set_ne (Ne.symm hj)⟩
    · simp [clearNode,hsame,hclear,write_of_lt (show n < ys.length by omega)]
    · rw [List.getElem?_set_self (by omega),parentOf_of_neg hparent (by omega)]
      rfl
  · refine ⟨ys,by simp [clearNode,hsame,hclear],hylen,?_,fun _ _ => rfl⟩
    rw [hsame]
    congr 1
    by_cases hneg : parent[n] < 0
    · rw [parentOf_of_neg hparent hneg]
      change parent[n] = -1
      omega
    · rw [parentOf_of_nonneg hparent hneg]
      change parent[n] = (parent[n].toNat : ℤ)
      omega

end Entries

/-- What the search relies on: each loop does what it should, in whatever order. -/
structure Kernel.Ok (g : CSRGraph) (k : Kernel) : Prop where
  initParent : ∃ parent,k.initParent g = some parent ∧ parent.length = g.numNodes ∧
    ∀ v,parentOf parent v = none
  buStep : ∀ start : List ℤ,start.length = g.numNodes → ∀ front next S T,
    Bitmap.Holds front g.numNodes S → Bitmap.Holds next g.numNodes T →
      ∃ s xs,k.buStep g start front next = some s ∧
        Claimed start (fun u v => S u ∧ g.Edge u v) s.parent xs ∧
        s.next.Holds g.numNodes (· ∈ xs) ∧ s.awakeCount = xs.length
  tdStep : ∀ start : List ℤ,start.length = g.numNodes → ∀ queue : SlidingQueue,
    queue.Ok start.length (fun v => (parentOf start v).isSome) →
      ∃ parent xs,k.tdStep g start queue =
          some (parent,{ queue with shared := queue.shared++xs },scoutOf start xs) ∧
        Claimed start (fun u v => u ∈ queue.window ∧ g.Edge u v) parent xs
  queueToBitmap : ∀ (queue : SlidingQueue) bm S P,queue.Ok g.numNodes P →
    Bitmap.Holds bm g.numNodes S → ∃ bm',k.queueToBitmap queue bm = some bm' ∧
      bm'.Holds g.numNodes fun v => v ∈ queue.window ∨ S v
  bitmapToQueue : ∀ (queue : SlidingQueue) bm S P,queue.Ok g.numNodes P →
    Bitmap.Holds bm g.numNodes S → (∀ v < g.numNodes,S v → ¬P v) →
      ∃ xs,k.bitmapToQueue g bm queue =
          some ({ queue with shared := queue.shared++xs } : SlidingQueue).slideWindow ∧
        xs.Nodup ∧ ∀ v,v ∈ xs ↔ v < g.numNodes ∧ S v
  clearUnvisited : ∀ parent : List ℤ,parent.length = g.numNodes →
    k.clearUnvisited g parent =
      some ((List.range g.numNodes).map fun v => encode (parentOf parent v))

lemma Kernel.ok_sequential (hg : g.Ok) : Kernel.sequential.Ok g where
  initParent := by
    simp only [sequential,Gapbs.initParent,forUp_eq_foldlM,← List.range_eq_range']
    exact initNode_fold hg (.refl _)
  buStep start hlen front next S T hfront hnext := buStep_spec hg hlen hfront hnext
  tdStep start hlen queue hqueue := tdStep_spec hg hlen hqueue
  queueToBitmap queue bm S P hqueue hbm :=
    queueToBitmap_spec hbm fun v hv => (hqueue.mem_window hv).1
  bitmapToQueue queue bm S P hqueue hbm hnew := bitmapToQueue_spec hbm hqueue hnew
  clearUnvisited parent hlen := by
    simp only [sequential,Gapbs.clearUnvisited,forUp_eq_foldlM,← List.range_eq_range']
    exact clearNode_fold hlen (.refl _)

/-- In front of a round of the `while` loop: the window holds the last level that was found. Bits
of the levels in front of it may be left in the bitmap. -/
structure Search.Ok (g : CSRGraph) (source d : ℕ) (s : Search) : Prop where
  length_eq : s.parent.length = g.numNodes
  explored : Explored g.Edge source d (parentOf s.parent)
  queue : s.queue.Ok g.numNodes (Within g.Edge source d)
  window : ∀ v,v ∈ s.queue.window ↔ AtLevel g.Edge source d v
  front : ∃ S,s.front.Holds g.numNodes S ∧ ∀ v,S v → Within g.Edge source d v
  curr : ∃ S,s.curr.Holds g.numNodes S

/-- In front of a round of the `do` loop: all nodes of the last level have their bits set. -/
structure Search.Marked (g : CSRGraph) (source d : ℕ) (s : Search) : Prop where
  length_eq : s.parent.length = g.numNodes
  explored : Explored g.Edge source d (parentOf s.parent)
  front : ∃ S,s.front.Holds g.numNodes S ∧ (∀ v,AtLevel g.Edge source d v → S v) ∧
    ∀ v,S v → Within g.Edge source d v
  curr : ∃ S,s.curr.Holds g.numNodes S

namespace Search

lemma Ok.topDown {k : Kernel} (hk : k.Ok g) (h : s.Ok g source d) :
    ∃ parent queue scoutCount,k.tdStep g s.parent s.queue = some (parent,queue,scoutCount) ∧
      ∀ e c,Ok g source (d+1)
        { s with parent,queue := queue.slideWindow,edgesToCheck := e,scoutCount := c } := by
  have hqueue : s.queue.Ok s.parent.length fun v => (parentOf s.parent v).isSome := by
    rw [h.length_eq]
    exact h.queue.mono fun v hv => (h.explored.reached v).mpr hv
  obtain ⟨parent,xs,htd,hclaimed⟩ := hk.tdStep s.parent h.length_eq s.queue hqueue
  obtain ⟨hexplored,hxs⟩ := hclaimed.step h.explored (fun v hv => (h.window v).mpr hv)
    fun v hv => ((h.window v).mp hv).within
  obtain ⟨hslide,hwindow⟩ := h.queue.slide (Q := Within g.Edge source (d+1)) hclaimed.nodup
    (fun v hv => ⟨h.length_eq ▸ hclaimed.lt_length hv,
      ((hxs v).mp hv).not_within (Nat.lt_succ_self d)⟩)
    (fun v hv => hv.mono (Nat.le_succ d)) fun v hv => ((hxs v).mp hv).within
  refine ⟨parent,_,_,htd,fun e c => ?_⟩
  exact {
    length_eq := hclaimed.length_eq.trans h.length_eq
    explored := hexplored
    queue := hslide
    window := fun v => by rw [hwindow,hxs]
    front := by
      obtain ⟨S,hS,hwithin⟩ := h.front
      exact ⟨S,hS,fun v hv => (hwithin v hv).mono (Nat.le_succ d)⟩
    curr := h.curr }

lemma Marked.round {k : Kernel} (hk : k.Ok g) (h : s.Marked g source d) :
    ∃ r,k.buStep g s.parent s.front s.curr = some r ∧ 0 ≤ r.awakeCount ∧
      (0 < r.awakeCount ↔ ∃ v,AtLevel g.Edge source (d+1) v) ∧
      r.next.Holds g.numNodes (AtLevel g.Edge source (d+1)) ∧
      Marked g source (d+1) { s with parent := r.parent,front := r.next,curr := s.front } := by
  obtain ⟨S,hS,hlevel,hwithin⟩ := h.front
  obtain ⟨T,hT⟩ := h.curr
  obtain ⟨r,xs,hbu,hclaimed,hnext,hawake⟩ := hk.buStep s.parent h.length_eq _ _ S T hS hT
  obtain ⟨hexplored,hxs⟩ := hclaimed.step h.explored hlevel hwithin
  have hnext : r.next.Holds g.numNodes (AtLevel g.Edge source (d+1)) :=
    hnext.congr fun v _ => hxs v
  refine ⟨r,hbu,by omega,?_,hnext,?_⟩
  · rw [hawake,Int.natCast_pos,List.length_pos_iff_exists_mem]
    exact exists_congr hxs
  · exact {
      length_eq := hclaimed.length_eq.trans h.length_eq
      explored := hexplored
      front := ⟨_,hnext,fun _ hv => hv,fun _ hv => hv.within⟩
      curr := ⟨S,hS⟩ }

/-- The `do` loop goes on only after rounds that found nodes, and there are no more levels than
nodes. -/
lemma Marked.bottomUp {kernel : ℕ → Kernel} (hkernel : ∀ i,(kernel i).Ok g) (hg : g.Ok)
    (hsource : source < g.numNodes) {beta : ℤ} (hbeta : 0 < beta) {fuel : ℕ} {oldAwakeCount : ℤ}
    (h : s.Marked g source d) (hold : 0 < oldAwakeCount)
    (hsome : ∃ v,AtLevel g.Edge source d v) (hfuel : g.numNodes < fuel+d) :
    ∃ s' e,Gapbs.bottomUp kernel g beta fuel oldAwakeCount s = some s' ∧ d < e ∧
      e ≤ g.numNodes ∧ s'.queue = s.queue ∧ s'.Marked g source e ∧
      s'.front.Holds g.numNodes (AtLevel g.Edge source e) := by
  induction fuel generalizing d s oldAwakeCount with
  | zero =>
    obtain ⟨v,hv⟩ := hsome
    have := level_lt_numNodes hg hsource hv
    omega
  | succ fuel ih =>
    have hd : d < g.numNodes := by
      obtain ⟨v,hv⟩ := hsome
      exact level_lt_numNodes hg hsource hv
    obtain ⟨r,hbu,hnonneg,hpos,hnext,hround⟩ := h.round (hkernel fuel)
    have hagain : 0 < r.awakeCount → ∃ s' e,Gapbs.bottomUp kernel g beta fuel r.awakeCount
        { s with parent := r.parent,front := r.next,curr := s.front } = some s' ∧ d < e ∧
        e ≤ g.numNodes ∧ s'.queue = s.queue ∧ s'.Marked g source e ∧
        s'.front.Holds g.numNodes (AtLevel g.Edge source e) := by
      intro hr
      obtain ⟨s',e,hs',he,hen,hqueue,hmarked,hfront⟩ := ih hround hr (hpos.mp hr) (by omega)
      exact ⟨s',e,hs',by omega,hen,hqueue,hmarked,hfront⟩
    by_cases hge : r.awakeCount ≥ oldAwakeCount
    · obtain ⟨s',e,hs',hrest⟩ := hagain (by omega)
      exact ⟨s',e,by simp [Gapbs.bottomUp,hbu,hge,hs'],hrest⟩
    · obtain ⟨bound,hquot,hbound⟩ : ∃ bound,quotient g.numNodes beta = some bound ∧ 0 ≤ bound :=
        ⟨_,if_neg (by omega),Int.tdiv_nonneg (Int.natCast_nonneg g.numNodes) hbeta.le⟩
      by_cases hgt : r.awakeCount > bound
      · obtain ⟨s',e,hs',hrest⟩ := hagain (by omega)
        exact ⟨s',e,by simp [Gapbs.bottomUp,hbu,hge,hquot,hgt,hs'],hrest⟩
      · refine ⟨{ s with parent := r.parent,front := r.next,curr := s.front },d+1,?_,by omega,
          by omega,rfl,hround,hnext⟩
        simp [Gapbs.bottomUp,hbu,hge,hquot,hgt]

/-- A turn of bottom-up rounds, from the queue to the bitmap and back. -/
lemma Ok.bottomUp {kernel : ℕ → Kernel} (hkernel : ∀ i,(kernel i).Ok g) (hg : g.Ok)
    (hsource : source < g.numNodes) {beta : ℤ} (hbeta : 0 < beta) {fuel : ℕ}
    (h : s.Ok g source d) (hempty : ¬s.queue.empty = true) (hfuel : g.numNodes < fuel+d) :
    ∃ front s' queue e,(kernel 0).queueToBitmap s.queue s.front = some front ∧
      Gapbs.bottomUp kernel g beta fuel s.queue.size
        { s with front,queue := s.queue.slideWindow } = some s' ∧
      (kernel 0).bitmapToQueue g s'.front s'.queue = some queue ∧ d < e ∧ e ≤ g.numNodes ∧
      Ok g source e { s' with queue,scoutCount := 1 } := by
  have hsome : ∃ v,AtLevel g.Edge source d v := by
    rw [h.queue.empty_iff] at hempty
    obtain ⟨v,hv⟩ := List.exists_mem_of_ne_nil _ hempty
    exact ⟨v,(h.window v).mp hv⟩
  obtain ⟨S,hS,hwithin⟩ := h.front
  obtain ⟨front,hfront,hmarks⟩ := (hkernel 0).queueToBitmap s.queue s.front S _ h.queue hS
  obtain ⟨hslide,-⟩ := h.queue.slide (Q := Within g.Edge source d) List.nodup_nil
    (by simp) (fun _ hv => hv) (by simp)
  rw [List.append_nil] at hslide
  have hmarked : Marked g source d { s with front,queue := s.queue.slideWindow } := {
    length_eq := h.length_eq
    explored := h.explored
    front := ⟨_,hmarks,fun v hv => .inl ((h.window v).mpr hv),fun v hv => by
      rcases hv with hv | hv
      · exact ((h.window v).mp hv).within
      · exact hwithin v hv⟩
    curr := h.curr }
  have hpos : (0 : ℤ) < s.queue.size := by
    have := h.queue.size_pos hempty
    omega
  obtain ⟨s',e,hs',hde,hen,hqueue,hmarked',hexact⟩ :=
    hmarked.bottomUp hkernel hg hsource hbeta hpos hsome hfuel
  have hslide' : s'.queue.Ok g.numNodes (Within g.Edge source d) := hqueue ▸ hslide
  obtain ⟨xs,hxs,hnodup,hmem⟩ := (hkernel 0).bitmapToQueue s'.queue s'.front _ _ hslide' hexact
    fun v _ hv => hv.not_within hde
  have hmem : ∀ v,v ∈ xs ↔ AtLevel g.Edge source e v := fun v =>
    (hmem v).trans ⟨And.right,fun hv => ⟨atLevel_lt hg hsource hv,hv⟩⟩
  obtain ⟨hslide'',hwindow⟩ := hslide'.slide (Q := Within g.Edge source e) hnodup
    (fun v hv => ⟨atLevel_lt hg hsource ((hmem v).mp hv),((hmem v).mp hv).not_within hde⟩)
    (fun v hv => hv.mono hde.le) fun v hv => ((hmem v).mp hv).within
  refine ⟨front,s',_,e,hfront,hs',hxs,hde,hen,?_⟩
  exact {
    length_eq := hmarked'.length_eq
    explored := hmarked'.explored
    queue := hslide''
    window := fun v => by rw [hwindow,hmem]
    front := ⟨_,hexact,fun _ hv => hv.within⟩
    curr := hmarked'.curr }

lemma Ok.search {kernel : ℕ → ℕ → Kernel} (hkernel : ∀ i j,(kernel i j).Ok g) (hg : g.Ok)
    (hsource : source < g.numNodes) {alpha beta : ℤ} (halpha : alpha ≠ 0) (hbeta : 0 < beta)
    {fuel : ℕ} (h : s.Ok g source d) (hd : d ≤ g.numNodes)
    (hfuel : g.numNodes < fuel+d) :
    ∃ s',Gapbs.search kernel g alpha beta fuel s = some s' ∧ s'.parent.length = g.numNodes ∧
      SearchTree g.Edge source (parentOf s'.parent) := by
  induction fuel generalizing d s with
  | zero => omega
  | succ fuel ih =>
    by_cases hempty : s.queue.empty = true
    · refine ⟨s,by simp [Gapbs.search,hempty],h.length_eq,h.explored.finish fun v hv => ?_⟩
      rw [h.queue.empty_iff] at hempty
      have hmem := (h.window v).mpr hv
      rw [hempty] at hmem
      cases hmem
    · obtain ⟨bound,hquot⟩ : ∃ bound,quotient s.edgesToCheck alpha = some bound :=
        ⟨_,if_neg halpha⟩
      by_cases hscout : s.scoutCount > bound
      · obtain ⟨front,s₁,queue,e,hfront,hs₁,hqueue,hde,hen,hok⟩ :=
          h.bottomUp (hkernel fuel) hg hsource hbeta hempty hfuel
        obtain ⟨s',hs',hrest⟩ := ih hok hen (by omega)
        refine ⟨s',?_,hrest⟩
        simp [Gapbs.search,hempty,hquot,hscout,hfront,hs₁,hqueue,hs']
      · obtain ⟨v,hv⟩ : ∃ v,AtLevel g.Edge source d v := by
          rw [h.queue.empty_iff] at hempty
          obtain ⟨v,hv⟩ := List.exists_mem_of_ne_nil _ hempty
          exact ⟨v,(h.window v).mp hv⟩
        have hlt := level_lt_numNodes hg hsource hv
        obtain ⟨parent,queue,scoutCount,htd,hok⟩ := h.topDown (hkernel fuel 0)
        obtain ⟨s',hs',hrest⟩ := ih (hok (s.edgesToCheck-s.scoutCount) scoutCount) hlt (by omega)
        refine ⟨s',?_,hrest⟩
        simp [Gapbs.search,hempty,hquot,hscout,htd,hs']

end Search

lemma dobfs_eq {kernel : ℕ → ℕ → Kernel} (hkernel : ∀ i j,(kernel i j).Ok g) (hg : g.Ok)
    (hsource : source < g.numNodes) {alpha beta : ℤ} (halpha : alpha ≠ 0) (hbeta : 0 < beta)
    {fuel : ℕ} (hfuel : g.numNodes < fuel) :
    ∃ tree,SearchTree g.Edge source tree ∧ dobfs kernel g source alpha beta fuel =
      some ((List.range g.numNodes).map fun v => encode (tree v)) := by
  obtain ⟨parent,hinit,hlen,hnone⟩ := (hkernel 0 0).initParent
  obtain ⟨degree,hdegree⟩ := hg.exists_outDegree hsource
  have hlt : source < parent.length := by omega
  have hnew : (SlidingQueue.new g.numNodes).Ok g.numNodes fun _ => False := {
    capacity_eq := rfl
    nodup := List.nodup_nil
    mem := by simp [SlidingQueue.new]
    outStart_le := le_rfl
    outEnd_eq := rfl }
  obtain ⟨hqueue,hwindow⟩ := hnew.slide (Q := Within g.Edge source 0)
    (List.nodup_singleton source) (by simpa using hsource) (by simp)
    (by simp [within_zero_iff])
  have hok : Search.Ok g source 0 {
      parent := parent.set source source
      queue := ({ SlidingQueue.new g.numNodes with
        shared := (SlidingQueue.new g.numNodes).shared++[source] } : SlidingQueue).slideWindow
      front := Bitmap.cleared g.numNodes
      curr := Bitmap.cleared g.numNodes
      edgesToCheck := g.numEdgesDirected
      scoutCount := degree } := {
    length_eq := by simpa using hlen
    explored := by
      apply Explored.start
      · rw [parentOf_set hlt,if_pos rfl]
      · intro v hv
        rw [parentOf_set hlt,if_neg hv,hnone]
    queue := hqueue
    window := fun v => by rw [hwindow,atLevel_zero_iff,List.mem_singleton]
    front := ⟨_,Bitmap.holds_cleared g.numNodes,fun _ hv => hv.elim⟩
    curr := ⟨_,Bitmap.holds_cleared g.numNodes⟩ }
  obtain ⟨s,hs,hlen',htree⟩ := hok.search hkernel hg hsource halpha hbeta (Nat.zero_le _) hfuel
  refine ⟨parentOf s.parent,htree,?_⟩
  have hpush : (SlidingQueue.new g.numNodes).pushBack source = some
      { SlidingQueue.new g.numNodes with
        shared := (SlidingQueue.new g.numNodes).shared++[source] } := if_pos (by
    change 0 < g.numNodes
    omega)
  simp only [dobfs,hinit,write_of_lt hlt,hpush,hdegree,Option.bind_eq_bind,Option.bind_some,hs,
    (hkernel 0 0).clearUnvisited s.parent hlen']

/-- From any node of any graph, with any `alpha` and positive `beta`, the search ends, stays in its
arrays and leaves the parents of a tree of shortest walks, `-1` for the nodes out of reach. -/
theorem dobfs_searchTree (hg : g.Ok) (hsource : source < g.numNodes) {alpha beta : ℤ}
    (halpha : alpha ≠ 0) (hbeta : 0 < beta) {fuel : ℕ} (hfuel : g.numNodes < fuel) :
    ∃ tree,SearchTree g.Edge source tree ∧
      dobfs (fun _ _ => .sequential) g source alpha beta fuel =
        some ((List.range g.numNodes).map fun v => encode (tree v)) :=
  dobfs_eq (fun _ _ => Kernel.ok_sequential hg) hg hsource halpha hbeta hfuel

theorem dobfs_searchTree_path :
    ∃ tree,SearchTree (CSRGraph.Edge ⟨true,3,2,[0,1,2,2],[1,2],[0,0,1,2],[0,1]⟩) 1 tree ∧
      dobfs (fun _ _ => .sequential) ⟨true,3,2,[0,1,2,2],[1,2],[0,0,1,2],[0,1]⟩ 1 15 18 4 =
        some ((List.range 3).map fun v => encode (tree v)) :=
  dobfs_searchTree (by decide) (by decide) (by decide) (by decide) (by decide)

end ElasticTranslations.Gapbs
