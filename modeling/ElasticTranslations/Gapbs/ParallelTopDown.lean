import ElasticTranslations.Gapbs.Producers

/-! `TDStep` on several threads. Whatever their interleaving, a node is claimed by one of them, and
the step ends with the nodes and the count that it has on one thread. -/
namespace ElasticTranslations.Gapbs
open Structures

/-- Where a thread stands: the rounds of its share to come, the node of the one it is in with the
neighbors to come, and the neighbor with the `curr_val` of a `compare_and_swap` that is due. -/
structure TDControl where
  rounds : List ℕ
  node : ℕ
  neighs : List ℕ
  swap : Option (ℕ × ℤ)
  scoutCount : ℤ

def TDControl.start (rounds : List ℕ) : TDControl := ⟨rounds,0,[],none,0⟩

def TDControl.access (g : CSRGraph) (outStart : ℕ) (slots : List ℕ) (parent : List ℤ)
    (c : TDControl) : Option (List ℤ × TDControl × Option ℕ) :=
  match c.swap with
  | some (v,currVal) => do
    let (swapped,parent) ← compareAndSwap parent v currVal c.node
    if swapped then
      some (parent,{ c with swap := none,scoutCount := c.scoutCount-currVal },some v)
    else some (parent,{ c with swap := none },none)
  | none =>
    match c.neighs with
    | v :: vs => do
      let currVal ← parent[v]?
      let swap := if currVal < 0 then some (v,currVal) else none
      some (parent,{ c with neighs := vs,swap },none)
    | [] =>
      match c.rounds with
      | i :: is => do
        let u ← slots[outStart+i]?
        let vs ← g.outNeigh u
        some (parent,{ c with rounds := is,node := u,neighs := vs },none)
      | [] => some (parent,c,none)

def tdProducer (g : CSRGraph) (queue : SlidingQueue) : Producer (List ℤ) TDControl where
  step := TDControl.access g queue.outStart
  ended c := c.rounds.isEmpty && c.neighs.isEmpty && c.swap.isNone
  work c := c.rounds.length*(2*g.outNeighbors.length+1)+2*c.neighs.length+c.swap.toList.length

def parallelTdStep (par : Parallel) (g : CSRGraph) (parent : List ℤ) (queue : SlidingQueue) :
    Option (List ℤ × SlidingQueue × ℤ) := do
  let team ← (tdProducer g queue).run par.turns queue parent
    ((par.shares queue.size).map TDControl.start)
  some (team.shared.2,
    { queue with shared := team.shared.1.slots.take team.shared.1.sharedIn },
    ((team.threads.map Worker.control).map TDControl.scoutCount).sum)

section Graph
variable {g : CSRGraph} {u v : ℕ} {vs : List ℕ}

lemma length_neighborhood_le {index neighbors : List ℕ}
    (h : neighborhood index neighbors u = some vs) : vs.length ≤ neighbors.length := by
  rw [neighborhood] at h
  cases hfirst : index[u]? with
  | none => simp [hfirst] at h
  | some first =>
    cases hlast : index[u+1]? with
    | none => simp [hfirst,hlast] at h
    | some last =>
      simp only [hfirst,hlast,Option.bind_eq_bind,Option.bind_some] at h
      split_ifs at h
      cases h
      rw [List.length_take,List.length_drop]
      omega

lemma CSRGraph.edge_iff (h : g.outNeigh u = some vs) : g.Edge u v ↔ v ∈ vs := by
  constructor
  · rintro ⟨vs',hvs',hv⟩
    rw [h] at hvs'
    cases hvs'
    exact hv
  · exact fun hv => ⟨vs,h,hv⟩

end Graph

section Window
variable {q : SlidingQueue} {n : ℕ} {P : ℕ → Prop}

/-- The entries of the window by the rounds of a loop over it. -/
lemma SlidingQueue.Ok.mem_window_iff (h : q.Ok n P) {u : ℕ} :
    u ∈ q.window ↔ ∃ i < q.size,q.shared[q.outStart+i]? = some u := by
  have hle := h.outStart_le
  have hend := h.outEnd_eq
  rw [window,hend,List.take_length,List.mem_iff_getElem?]
  constructor
  · rintro ⟨i,hi⟩
    rw [List.getElem?_drop] at hi
    have := (List.getElem?_eq_some_iff.mp hi).1
    exact ⟨i,by rw [size]; omega,hi⟩
  · rintro ⟨i,-,hi⟩
    exact ⟨i,by rw [List.getElem?_drop,hi]⟩

lemma SlidingQueue.Ok.exists_round (h : q.Ok n P) {i : ℕ} (hi : i < q.size) :
    ∃ u,q.shared[q.outStart+i]? = some u := by
  have hle := h.outStart_le
  have hend := h.outEnd_eq
  rw [size] at hi
  exact ⟨_,List.getElem?_eq_getElem (by omega)⟩

end Window

/-- The thread will still look at the edge. -/
def TDControl.Awaits (queue : SlidingQueue) (u v : ℕ) (c : TDControl) : Prop :=
  (∃ i ∈ c.rounds,queue.shared[queue.outStart+i]? = some u) ∨
    (c.node = u ∧ (v ∈ c.neighs ∨ ∃ p,c.swap = some (v,p)))

/-- What a thread has read is what holds until it makes use of it. -/
structure TDControl.Ok (g : CSRGraph) (start : List ℤ) (queue : SlidingQueue) (c : TDControl) :
    Prop where
  rounds : ∀ i ∈ c.rounds,i < queue.size
  neighs : ∀ v ∈ c.neighs,c.node ∈ queue.window ∧ g.Edge c.node v
  swap : ∀ v p,c.swap = some (v,p) →
    (c.node ∈ queue.window ∧ g.Edge c.node v) ∧ start[v]? = some p ∧ p < 0

/-- The nodes `out` were claimed so far. -/
structure TDTeam (g : CSRGraph) (start : List ℤ) (queue : SlidingQueue) (parent : List ℤ)
    (cs : List TDControl) (out : List ℕ) : Prop where
  claimed : Claimed start
    (fun u v => (u ∈ queue.window ∧ g.Edge u v) ∧ (parentOf parent v).isSome) parent out
  covered : ∀ u v,u ∈ queue.window → g.Edge u v →
    (parentOf parent v).isSome ∨ ∃ c ∈ cs,c.Awaits queue u v
  sound : ∀ c ∈ cs,c.Ok g start queue
  scout : (cs.map TDControl.scoutCount).sum = scoutOf start out

namespace TDTeam
open TDControl
variable {g : CSRGraph} {start parent : List ℤ} {queue : SlidingQueue} {pre post : List TDControl}
  {c : TDControl} {out : List ℕ} {n : ℕ} {P : ℕ → Prop}

lemma begin (hq : queue.Ok n P) (start : List ℤ) {shares : List (List ℕ)}
    (hshares : shares.flatten.Perm (List.range queue.size)) :
    TDTeam g start queue start (shares.map TDControl.start) [] where
  claimed := (Claimed.begin start).skip (fun _ _ h => h.elim) fun _ _ h => .inr h.2
  covered u v hu _ := by
    obtain ⟨i,hi,hiu⟩ := hq.mem_window_iff.mp hu
    have hmem : i ∈ shares.flatten := hshares.mem_iff.mpr (List.mem_range.mpr hi)
    obtain ⟨rounds,hrounds,hi⟩ := List.mem_flatten.mp hmem
    exact .inr ⟨_,List.mem_map_of_mem hrounds,.inl ⟨i,hi,hiu⟩⟩
  sound c hc := by
    obtain ⟨rounds,hrounds,rfl⟩ := List.mem_map.mp hc
    refine ⟨fun i hi => ?_,?_,?_⟩
    · exact List.mem_range.mp (hshares.mem_iff.mp (List.mem_flatten.mpr ⟨rounds,hrounds,hi⟩))
    · exact fun v hv => absurd hv List.not_mem_nil
    · intro v p hnone
      cases hnone
  scout := by simp [scoutOf,Function.comp_def,TDControl.start]

/-- A step of a thread that claims no node. -/
lemma looked (h : TDTeam g start queue parent (pre++c :: post) out) {c' : TDControl}
    (hok : c'.Ok g start queue) (hscout : c'.scoutCount = c.scoutCount)
    (hawaits : ∀ u v,u ∈ queue.window → g.Edge u v → c.Awaits queue u v →
      (parentOf parent v).isSome ∨ c'.Awaits queue u v) :
    TDTeam g start queue parent (pre++c' :: post) out where
  claimed := h.claimed
  covered u v hu huv := or_exists_turn (h.covered u v hu huv) id (hawaits u v hu huv)
  sound := forall_turn h.sound (fun _ => hok) fun _ _ ha => ha
  scout := by
    have := h.scout
    rw [List.map_append,List.map_cons] at this ⊢
    rwa [hscout]

/-- Who claims a node is the first one to do so. -/
lemma claim (h : TDTeam g start queue parent (pre++c :: post) out) {v : ℕ} {p : ℤ}
    (hswap : c.swap = some (v,p)) (hp : parent[v]? = some p) :
    TDTeam g start queue (parent.set v c.node)
      (pre++{ c with swap := none,scoutCount := c.scoutCount-p } :: post) (out++[v]) := by
  have hlt : v < parent.length := (List.getElem?_eq_some_iff.mp hp).1
  have hc := h.sound c (by simp)
  obtain ⟨hedge,hstart,hneg⟩ := hc.swap v p hswap
  exact {
    claimed := h.claimed.claim_visited hlt (parentOf_of_neg hp hneg) hedge
    covered := fun a b ha hab => by
      refine or_exists_turn (h.covered a b ha hab) (isSome_parentOf_set hlt c.node) fun haw => ?_
      rcases haw with hround | ⟨hnode,hneigh | ⟨p',hp'⟩⟩
      · exact .inr (.inl hround)
      · exact .inr (.inr ⟨hnode,.inl hneigh⟩)
      · rw [hswap] at hp'
        cases hp'
        exact .inl (by rw [parentOf_set_self hlt]; rfl)
    sound := forall_turn h.sound (fun _ => ⟨hc.rounds,hc.neighs,fun _ _ hnone => by cases hnone⟩)
      fun _ _ ha => ha
    scout := by
      have := h.scout
      rw [scoutOf_append,scoutOf_singleton hstart,← this]
      simp only [List.map_append,List.map_cons,List.sum_append,List.sum_cons]
      omega }

lemma perm {out' : List ℕ} {cs : List TDControl} (hperm : out.Perm out')
    (h : TDTeam g start queue parent cs out) : TDTeam g start queue parent cs out' where
  claimed := h.claimed.perm hperm
  covered := h.covered
  sound := h.sound
  scout := h.scout.trans (scoutOf_perm hperm)

/-- The step of a thread, which keeps the invariant and leaves less to do. -/
def Advances (g : CSRGraph) (start : List ℤ) (queue : SlidingQueue) (slots : List ℕ)
    (parent : List ℤ) (pre post : List TDControl) (c : TDControl) (out : List ℕ) : Prop :=
  ∃ parent' c' o,c.access g queue.outStart slots parent = some (parent',c',o) ∧
    TDTeam g start queue parent' (pre++c' :: post) (out++Option.toList o) ∧
    (tdProducer g queue).work c' < (tdProducer g queue).work c

section Turns
variable {slots rounds neighs : List ℕ} {node v : ℕ} {p scoutCount : ℤ}

/-- A step of a thread that pushes no node. -/
lemma Advances.quiet (c' : TDControl)
    (haccess : c.access g queue.outStart slots parent = some (parent,c',none))
    (hteam : TDTeam g start queue parent (pre++c' :: post) out)
    (hwork : (tdProducer g queue).work c' < (tdProducer g queue).work c) :
    Advances g start queue slots parent pre post c out :=
  ⟨parent,c',none,haccess,by rwa [Option.toList_none,List.append_nil],hwork⟩

/-- The `compare_and_swap`: another thread may have been faster. -/
lemma swap_turn (hg : g.Ok) (hlen : start.length = g.numNodes)
    (h : TDTeam g start queue parent
      (pre++⟨rounds,node,neighs,some (v,p),scoutCount⟩ :: post) out) :
    Advances g start queue slots parent pre post ⟨rounds,node,neighs,some (v,p),scoutCount⟩
      out := by
  have hc := h.sound _ (List.mem_append_right pre List.mem_cons_self)
  obtain ⟨hedge,hstart,hneg⟩ := hc.swap v p rfl
  obtain ⟨x,hx⟩ : ∃ x,parent[v]? = some x :=
    ⟨_,List.getElem?_eq_getElem (by rw [h.claimed.length_eq,hlen]; exact hg.right_lt hedge.2)⟩
  by_cases hxp : x = p
  · subst hxp
    exact ⟨_,_,some v,by simp [access,compareAndSwap_eq hx],h.claim rfl hx,by simp [tdProducer]⟩
  · refine .quiet ⟨rounds,node,neighs,none,scoutCount⟩
      (by simp [access,compareAndSwap,hx,hxp]) (h.looked ⟨hc.rounds,hc.neighs,nofun⟩ rfl ?_)
      (by simp [tdProducer])
    rintro a b - - (hround | ⟨hnode,hneigh | ⟨p',hp'⟩⟩)
    · exact .inr (.inl hround)
    · exact .inr (.inr ⟨hnode,.inl hneigh⟩)
    · cases hp'
      refine .inl (Option.isSome_iff_ne_none.mpr fun hnone => hxp ?_)
      have hkept := h.claimed.kept v hnone
      rw [hx,hstart] at hkept
      exact Option.some.inj hkept

/-- The read of a neighbor's parent. -/
lemma neighbor_turn (hg : g.Ok) (hlen : start.length = g.numNodes)
    (h : TDTeam g start queue parent
      (pre++⟨rounds,node,v :: neighs,none,scoutCount⟩ :: post) out) :
    Advances g start queue slots parent pre post ⟨rounds,node,v :: neighs,none,scoutCount⟩
      out := by
  have hc := h.sound _ (List.mem_append_right pre List.mem_cons_self)
  obtain ⟨hnode,hedge⟩ := hc.neighs v (by simp)
  obtain ⟨p,hp⟩ : ∃ p,parent[v]? = some p :=
    ⟨_,List.getElem?_eq_getElem (by rw [h.claimed.length_eq,hlen]; exact hg.right_lt hedge)⟩
  refine .quiet ⟨rounds,node,neighs,if p < 0 then some (v,p) else none,scoutCount⟩
    (by simp [access,hp])
    (h.looked ⟨hc.rounds,fun b hb => hc.neighs b (by simp [hb]),fun b p' hswap => ?_⟩ rfl ?_) ?_
  · simp only at hswap
    split_ifs at hswap with hneg
    cases hswap
    exact ⟨⟨hnode,hedge⟩,by rw [← h.claimed.kept v (parentOf_of_neg hp hneg),hp],hneg⟩
  · rintro a b - - (hround | ⟨hnode',hneigh | ⟨p',hp'⟩⟩)
    · exact .inr (.inl hround)
    · rcases List.mem_cons.mp hneigh with rfl | hneigh
      · by_cases hneg : p < 0
        · exact .inr (.inr ⟨hnode',.inr ⟨p,if_pos hneg⟩⟩)
        · exact .inl (by simp [parentOf_of_nonneg hp hneg])
      · exact .inr (.inr ⟨hnode',.inl hneigh⟩)
    · cases hp'
  · simp only [tdProducer,List.length_cons]
    split_ifs <;> simp only [Option.toList_some,Option.toList_none,List.length_singleton,
      List.length_nil] <;> omega

/-- The next round of the thread's share. -/
lemma round_turn (hg : g.Ok) (hq : queue.Ok n P) (hn : n = g.numNodes)
    (hslots : slots.take queue.shared.length = queue.shared) {i : ℕ}
    (h : TDTeam g start queue parent (pre++⟨i :: rounds,node,[],none,scoutCount⟩ :: post) out) :
    Advances g start queue slots parent pre post ⟨i :: rounds,node,[],none,scoutCount⟩ out := by
  have hc := h.sound _ (List.mem_append_right pre List.mem_cons_self)
  have hi : i < queue.size := hc.rounds i (by simp)
  obtain ⟨u,hu⟩ := hq.exists_round hi
  have hslot : slots[queue.outStart+i]? = some u := by
    rw [← hslots,List.getElem?_take] at hu
    split_ifs at hu
    exact hu
  have hwindow : u ∈ queue.window := hq.mem_window_iff.mpr ⟨i,hi,hu⟩
  obtain ⟨vs,hvs,-⟩ := hg.out u (hn ▸ (hq.mem_window hwindow).1)
  have hfew := length_neighborhood_le hvs
  refine .quiet ⟨rounds,u,vs,none,scoutCount⟩ (by simp [access,hslot,hvs])
    (h.looked ⟨fun k hk => hc.rounds k (by simp [hk]),fun v hv => ?_,nofun⟩ rfl ?_) ?_
  · exact ⟨hwindow,(CSRGraph.edge_iff hvs).mpr hv⟩
  · rintro a b - hab (⟨k,hk,hka⟩ | ⟨-,hneigh | ⟨p',hp'⟩⟩)
    · rcases List.mem_cons.mp hk with rfl | hk
      · rw [hu] at hka
        cases hka
        exact .inr (.inr ⟨rfl,.inl ((CSRGraph.edge_iff hvs).mp hab)⟩)
      · exact .inr (.inl ⟨k,hk,hka⟩)
    · cases hneigh
    · cases hp'
  · simp only [tdProducer,List.length_cons,Nat.succ_mul]
    simp
    omega

end Turns

lemma step (hg : g.Ok) (hlen : start.length = g.numNodes) (hq : queue.Ok n P)
    (hn : n = g.numNodes) {slots : List ℕ}
    (hslots : slots.take queue.shared.length = queue.shared)
    (h : TDTeam g start queue parent (pre++c :: post) out)
    (hended : (tdProducer g queue).ended c = false) :
    Advances g start queue slots parent pre post c out := by
  obtain ⟨rounds,node,neighs,swap,scoutCount⟩ := c
  cases swap with
  | some vp => exact h.swap_turn hg hlen
  | none =>
    cases neighs with
    | cons v vs => exact h.neighbor_turn hg hlen
    | nil =>
      cases rounds with
      | cons i is => exact h.round_turn hg hq hn hslots
      | nil => cases hended

lemma keeps (hg : g.Ok) (hlen : start.length = g.numNodes)
    (hq : queue.Ok start.length fun v => (parentOf start v).isSome) :
    (tdProducer g queue).Keeps queue (TDTeam g start queue) where
  perm _ _ _ _ hperm h := h.perm hperm
  fits _ _ _ h := h.claimed.fits hq
  step _ _ _ _ _ _ hslots h hended := h.step hg hlen hq hlen hslots hended

end TDTeam

section Step
variable {g : CSRGraph} {start : List ℤ} {queue : SlidingQueue}

lemma parallelTdStep_spec (hg : g.Ok) (hlen : start.length = g.numNodes)
    (hq : queue.Ok start.length fun v => (parentOf start v).isSome) (par : Parallel) :
    ∃ parent xs,parallelTdStep par g start queue =
        some (parent,{ queue with shared := queue.shared++xs },scoutOf start xs) ∧
      Claimed start (fun u v => u ∈ queue.window ∧ g.Edge u v) parent xs := by
  obtain ⟨m,parent,ws,xs,hrun,hslots,hteam,hended⟩ := Producer.run_spec
    (TDTeam.keeps hg hlen hq) start (TDTeam.begin hq start (par.shares_perm queue.size)) par.turns
  refine ⟨parent,xs,?_,hteam.claimed.skip (fun _ _ h => h.1) fun u v huv => .inl ⟨huv,?_⟩⟩
  · simp only [parallelTdStep,hrun,Option.bind_eq_bind,Option.bind_some,hslots,hteam.scout]
  · refine (hteam.covered u v huv.1 huv.2).resolve_right ?_
    rintro ⟨c,hc,hawaits⟩
    obtain ⟨w,hw,rfl⟩ := List.mem_map.mp hc
    have hend := hended w hw
    simp only [tdProducer,Bool.and_eq_true,List.isEmpty_iff,Option.isNone_iff_eq_none] at hend
    simp [TDControl.Awaits,hend] at hawaits

/-- On any number of threads, however they share the window and take their turns, the step visits
the nodes that it visits on one thread, queues each of them once and counts as many edges; a
parent is an end of an edge from the window, which one may differ. -/
theorem parallelTdStep_agrees (hg : g.Ok) (hlen : start.length = g.numNodes)
    (hq : queue.Ok start.length fun v => (parentOf start v).isSome) (par : Parallel) :
    ∃ parent parent' xs xs' scoutCount,
      tdStep g start queue =
        some (parent,{ queue with shared := queue.shared++xs },scoutCount) ∧
      parallelTdStep par g start queue =
        some (parent',{ queue with shared := queue.shared++xs' },scoutCount) ∧
      xs'.Nodup ∧ xs'.Perm xs ∧
      (∀ v,(parentOf parent' v).isSome ↔ (parentOf parent v).isSome) ∧
      ∀ u v,parentOf parent' v = some u →
        parentOf start v = some u ∨ (v ∈ xs' ∧ u ∈ queue.window ∧ g.Edge u v) := by
  obtain ⟨parent,xs,hstep,hclaimed⟩ := tdStep_spec hg hlen hq
  obtain ⟨parent',xs',hstep',hclaimed'⟩ := parallelTdStep_spec hg hlen hq par
  have hsome := hclaimed'.isSome_iff hclaimed
  have hperm : xs'.Perm xs := by
    rw [List.perm_ext_iff_of_nodup hclaimed'.nodup hclaimed.nodup]
    intro v
    rw [hclaimed'.new,hclaimed.new,hsome]
  refine ⟨parent,parent',xs,xs',_,hstep,scoutOf_perm hperm ▸ hstep',hclaimed'.nodup,hperm,hsome,?_⟩
  intro u v hu
  cases hstart : parentOf start v with
  | none =>
    exact .inr ⟨(hclaimed'.new v).mpr ⟨hstart,by simp [hu]⟩,hclaimed'.edge u v hstart hu⟩
  | some w =>
    rw [hclaimed'.old v (by simp [hstart]),hstart] at hu
    exact .inl hu

/-- Two threads race for the node `2`. -/
theorem parallelTdStep_agrees_race :
    ∃ parent parent' xs xs' scoutCount,
      tdStep ⟨true,3,2,[0,1,2,2],[2,2],[0,0,0,2],[0,1]⟩ [0,0,-1] ⟨3,[0,1],0,2⟩ =
        some (parent,⟨3,[0,1]++xs,0,2⟩,scoutCount) ∧
      parallelTdStep (.oneEach id) ⟨true,3,2,[0,1,2,2],[2,2],[0,0,0,2],[0,1]⟩ [0,0,-1]
        ⟨3,[0,1],0,2⟩ = some (parent',⟨3,[0,1]++xs',0,2⟩,scoutCount) ∧
      xs'.Nodup ∧ xs'.Perm xs ∧
      (∀ v,(parentOf parent' v).isSome ↔ (parentOf parent v).isSome) ∧
      ∀ u v,parentOf parent' v = some u → parentOf [0,0,-1] v = some u ∨
        (v ∈ xs' ∧ u ∈ SlidingQueue.window ⟨3,[0,1],0,2⟩ ∧
          CSRGraph.Edge ⟨true,3,2,[0,1,2,2],[2,2],[0,0,0,2],[0,1]⟩ u v) :=
  parallelTdStep_agrees (by decide) rfl
    ⟨rfl,by decide,by decide,by decide,rfl⟩ (.oneEach id)

end Step

end ElasticTranslations.Gapbs
