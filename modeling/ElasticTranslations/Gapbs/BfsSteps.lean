import ElasticTranslations.Gapbs.Bfs
import ElasticTranslations.Structures.SearchLevels
import Mathlib.Algebra.BigOperators.Group.List.Basic
import Mathlib.Algebra.Ring.Int.Defs
import Mathlib.Algebra.Ring.Nat
import Mathlib.Data.List.Range

/-! What one round of the search does, in either direction: the nodes of the next level get
parents in the frontier, each of them once. -/
namespace ElasticTranslations.Gapbs
open Structures

/-- The parents that an array stands for: negative entries are those of unvisited nodes. -/
def parentOf (parent : List ℤ) (v : ℕ) : Option ℕ :=
  match parent[v]? with
  | some p => if p < 0 then none else some p.toNat
  | none => none

section ParentOf
variable {parent : List ℤ} {u v : ℕ} {p : ℤ}

lemma parentOf_of_neg (h : parent[v]? = some p) (hp : p < 0) : parentOf parent v = none := by
  simp [parentOf,h,hp]

lemma parentOf_of_nonneg (h : parent[v]? = some p) (hp : ¬p < 0) :
    parentOf parent v = some p.toNat := by
  simp [parentOf,h,hp]

lemma lt_length_of_parentOf (h : (parentOf parent v).isSome) : v < parent.length := by
  by_contra hge
  rw [parentOf,List.getElem?_eq_none (by omega)] at h
  simp at h

lemma parentOf_set (hv : v < parent.length) (u w : ℕ) :
    parentOf (parent.set v (u : ℤ)) w = if w = v then some u else parentOf parent w := by
  by_cases hw : w = v
  · subst hw
    simp [parentOf,List.getElem?_set_self hv]
  · simp [parentOf,List.getElem?_set_ne (Ne.symm hw),hw]

lemma parentOf_set_self (hv : v < parent.length) (u : ℕ) :
    parentOf (parent.set v (u : ℤ)) v = some u := by
  rw [parentOf_set hv,if_pos rfl]

/-- The nodes that are visited stay so. -/
lemma isSome_parentOf_set (hv : v < parent.length) (u : ℕ) {w : ℕ}
    (hw : (parentOf parent w).isSome) : (parentOf (parent.set v (u : ℤ)) w).isSome := by
  rw [parentOf_set hv]
  split_ifs
  · rfl
  · exact hw

end ParentOf

/-- Along the edges `es` that were looked at, the nodes `xs` got their parents. -/
structure Claimed (start : List ℤ) (es : ℕ → ℕ → Prop) (parent : List ℤ) (xs : List ℕ) : Prop where
  length_eq : parent.length = start.length
  old : ∀ v,(parentOf start v).isSome → parentOf parent v = parentOf start v
  kept : ∀ v,parentOf parent v = none → parent[v]? = start[v]?
  edge : ∀ u v,parentOf start v = none → parentOf parent v = some u → es u v
  all : ∀ u v,es u v → (parentOf parent v).isSome
  new : ∀ v,v ∈ xs ↔ parentOf start v = none ∧ (parentOf parent v).isSome
  nodup : xs.Nodup

namespace Claimed
variable {start parent : List ℤ} {es es' : ℕ → ℕ → Prop} {xs : List ℕ} {u v : ℕ}

lemma begin (start : List ℤ) : Claimed start (fun _ _ => False) start [] where
  length_eq := rfl
  old _ _ := rfl
  kept _ _ := rfl
  edge u v hnone hsome := by
    rw [hnone] at hsome
    cases hsome
  all _ _ h := h.elim
  new v := by
    cases parentOf start v <;> simp
  nodup := List.nodup_nil

/-- An edge to a visited node changes nothing. -/
lemma skip (h : Claimed start es parent xs) (hmono : ∀ a b,es a b → es' a b)
    (honly : ∀ a b,es' a b → es a b ∨ (parentOf parent b).isSome) :
    Claimed start es' parent xs where
  length_eq := h.length_eq
  old := h.old
  kept := h.kept
  edge a b hnone hsome := hmono a b (h.edge a b hnone hsome)
  all a b hes := by
    rcases honly a b hes with hes | hsome
    · exact h.all a b hes
    · exact hsome
  new := h.new
  nodup := h.nodup

lemma none_of_none (h : Claimed start es parent xs) (hv : parentOf parent v = none) :
    parentOf start v = none := by
  by_contra hsome
  have hsome := Option.isSome_iff_ne_none.mpr hsome
  rw [← h.old v hsome,hv] at hsome
  simp at hsome

/-- An edge to an unvisited node makes its source the parent. -/
lemma claim (h : Claimed start es parent xs) (hv : v < parent.length)
    (hnone : parentOf parent v = none) (huv : es' u v) (hmono : ∀ a b,es a b → es' a b)
    (honly : ∀ a b,es' a b → es a b ∨ b = v) :
    Claimed start es' (parent.set v (u : ℤ)) (xs++[v]) where
  length_eq := by rw [List.length_set,h.length_eq]
  old w hw := by
    rw [parentOf_set hv,if_neg]
    · exact h.old w hw
    · rintro rfl
      rw [h.none_of_none hnone] at hw
      simp at hw
  kept w hw := by
    rw [parentOf_set hv] at hw
    split_ifs at hw with hwv
    rw [List.getElem?_set_ne (Ne.symm hwv),h.kept w hw]
  edge a b hb hab := by
    rw [parentOf_set hv] at hab
    split_ifs at hab with hbv
    · cases hab
      exact hbv ▸ huv
    · exact hmono a b (h.edge a b hb hab)
  all a b hab := by
    rw [parentOf_set hv]
    split_ifs with hbv
    · rfl
    · exact h.all a b ((honly a b hab).resolve_right hbv)
  new w := by
    rw [parentOf_set hv,List.mem_append,List.mem_singleton,h.new w]
    by_cases hw : w = v
    · subst hw
      simp [h.none_of_none hnone]
    · simp [hw]
  nodup := by
    apply h.nodup.append (List.nodup_singleton v)
    rw [List.disjoint_singleton]
    intro hmem
    have := ((h.new v).mp hmem).2
    rw [hnone] at this
    simp at this

/-- With the edges to the nodes visited so far. -/
lemma claim_visited
    (h : Claimed start (fun a b => es a b ∧ (parentOf parent b).isSome) parent xs)
    (hv : v < parent.length) (hnone : parentOf parent v = none) (huv : es u v) :
    Claimed start (fun a b => es a b ∧ (parentOf (parent.set v (u : ℤ)) b).isSome)
      (parent.set v (u : ℤ)) (xs++[v]) := by
  apply h.claim hv hnone
  · exact ⟨huv,by rw [parentOf_set_self hv]; rfl⟩
  · exact fun a b hab => ⟨hab.1,isSome_parentOf_set hv u hab.2⟩
  · rintro a b ⟨hab,hb⟩
    rw [parentOf_set hv] at hb
    split_ifs at hb with hbv
    · exact .inr hbv
    · exact .inl ⟨hab,hb⟩

lemma expands {E : ℕ → ℕ → Prop} {marked : ℕ → Prop}
    (h : Claimed start (fun u v => marked u ∧ E u v) parent xs) :
    Expands E marked (parentOf start) (parentOf parent) where
  old := h.old
  edge := h.edge
  all u v _ hu huv := h.all u v ⟨hu,huv⟩

lemma perm {ys : List ℕ} (hperm : xs.Perm ys) (h : Claimed start es parent xs) :
    Claimed start es parent ys where
  length_eq := h.length_eq
  old := h.old
  kept := h.kept
  edge := h.edge
  all := h.all
  new v := by rw [← hperm.mem_iff,h.new]
  nodup := hperm.nodup_iff.mp h.nodup

/-- Which nodes are visited in the end does not depend on the order of the edges. -/
lemma isSome_iff {parent' : List ℤ} {ys : List ℕ} (h : Claimed start es parent xs)
    (h' : Claimed start es parent' ys) (v : ℕ) :
    (parentOf parent v).isSome ↔ (parentOf parent' v).isSome := by
  cases hv : parentOf start v with
  | some u => rw [h.old v (by simp [hv]),h'.old v (by simp [hv])]
  | none =>
    constructor
    · intro hsome
      obtain ⟨u,hu⟩ := Option.isSome_iff_exists.mp hsome
      exact h'.all u v (h.edge u v hv hu)
    · intro hsome
      obtain ⟨u,hu⟩ := Option.isSome_iff_exists.mp hsome
      exact h.all u v (h'.edge u v hv hu)

lemma lt_length (h : Claimed start es parent xs) (hv : v ∈ xs) : v < start.length :=
  h.length_eq ▸ lt_length_of_parentOf ((h.new v).mp hv).2

end Claimed

/-- The queue has room for all nodes: those in it are nodes with `P`, each of them once. -/
structure SlidingQueue.Ok (q : SlidingQueue) (n : ℕ) (P : ℕ → Prop) : Prop where
  capacity_eq : q.capacity = n
  nodup : q.shared.Nodup
  mem : ∀ v ∈ q.shared,v < n ∧ P v
  outStart_le : q.outStart ≤ q.outEnd
  outEnd_eq : q.outEnd = q.shared.length

namespace SlidingQueue.Ok
variable {q : SlidingQueue} {n : ℕ} {P Q : ℕ → Prop} {xs : List ℕ}

lemma nodup_append (h : q.Ok n P) (hxs : xs.Nodup) (hnew : ∀ v ∈ xs,v < n ∧ ¬P v) :
    (q.shared++xs).Nodup := by
  apply h.nodup.append hxs
  intro v hv hv'
  exact (hnew v hv').2 (h.mem v hv).2

lemma fits (h : q.Ok n P) (hxs : xs.Nodup) (hnew : ∀ v ∈ xs,v < n ∧ ¬P v) :
    (q.shared++xs).length ≤ q.capacity := by
  have hsub : (q.shared++xs).Subperm (List.range n) := by
    apply (h.nodup_append hxs hnew).subperm
    intro v hv
    rw [List.mem_range]
    rcases List.mem_append.mp hv with hv | hv
    · exact (h.mem v hv).1
    · exact (hnew v hv).1
  rw [h.capacity_eq]
  simpa using hsub.length_le

/-- The window slides over the new nodes. -/
lemma slide (h : q.Ok n P) (hxs : xs.Nodup) (hnew : ∀ v ∈ xs,v < n ∧ ¬P v)
    (hP : ∀ v,P v → Q v) (hQ : ∀ v ∈ xs,Q v) :
    (({ q with shared := q.shared++xs }) : SlidingQueue).slideWindow.Ok n Q ∧
      (({ q with shared := q.shared++xs }) : SlidingQueue).slideWindow.window = xs := by
  constructor
  · exact {
      capacity_eq := h.capacity_eq
      nodup := h.nodup_append hxs hnew
      mem := fun v hv => by
        rcases List.mem_append.mp hv with hv | hv
        · exact ⟨(h.mem v hv).1,hP v (h.mem v hv).2⟩
        · exact ⟨(hnew v hv).1,hQ v hv⟩
      outStart_le := by simp [slideWindow,h.outEnd_eq]
      outEnd_eq := rfl }
  · simp only [slideWindow,window,h.outEnd_eq]
    rw [List.take_of_length_le le_rfl,List.drop_left]

lemma mem_window (h : q.Ok n P) {v : ℕ} (hv : v ∈ q.window) : v < n ∧ P v := by
  apply h.mem
  exact List.mem_of_mem_take (List.mem_of_mem_drop hv)

lemma empty_iff (h : q.Ok n P) : q.empty = true ↔ q.window = [] := by
  have hle := h.outStart_le
  have hend := h.outEnd_eq
  simp only [empty,window,beq_iff_eq,List.drop_eq_nil_iff,List.length_take]
  omega

lemma size_pos (h : q.Ok n P) (hempty : ¬q.empty = true) : 0 < q.size := by
  have hle := h.outStart_le
  simp only [empty,beq_iff_eq] at hempty
  simp only [size]
  omega

lemma mono (h : q.Ok n P) (hP : ∀ v,P v → Q v) : q.Ok n Q where
  capacity_eq := h.capacity_eq
  nodup := h.nodup
  mem v hv := ⟨(h.mem v hv).1,hP v (h.mem v hv).2⟩
  outStart_le := h.outStart_le
  outEnd_eq := h.outEnd_eq

end SlidingQueue.Ok

section TopDown
variable {g : CSRGraph} {start : List ℤ} {queue : SlidingQueue} {es es' : ℕ → ℕ → Prop} {u v : ℕ}

/-- The negative entries of unvisited nodes are counted. -/
def scoutOf (start : List ℤ) (xs : List ℕ) : ℤ := (xs.map fun v => -(start[v]?.getD 0)).sum

lemma scoutOf_append (start : List ℤ) (xs ys : List ℕ) :
    scoutOf start (xs++ys) = scoutOf start xs+scoutOf start ys := by
  simp [scoutOf]

lemma scoutOf_singleton {p : ℤ} (hp : start[v]? = some p) : scoutOf start [v] = -p := by
  simp [scoutOf,hp]

lemma scoutOf_perm {xs ys : List ℕ} (h : xs.Perm ys) : scoutOf start xs = scoutOf start ys :=
  (h.map _).sum_eq

/-- The state of `TDStep` with the edges `es` done. -/
structure TDState.Ok (start : List ℤ) (queue : SlidingQueue) (es : ℕ → ℕ → Prop) (s : TDState)
    (xs : List ℕ) : Prop where
  claimed : Claimed start es s.parent xs
  buffered : QueueBuffer.Buffered queue s.lqueue s.queue xs
  scout : s.scoutCount = scoutOf start xs

lemma compareAndSwap_eq {α : Type} [DecidableEq α] {xs : List α} {i : ℕ} {x : α}
    (hx : xs[i]? = some x) (newVal : α) :
    compareAndSwap xs i x newVal = some (true,xs.set i newVal) := by
  have hi : i < xs.length := (List.getElem?_eq_some_iff.mp hx).1
  simp [compareAndSwap,hx,write_of_lt hi]

lemma Claimed.fits {parent : List ℤ} {xs : List ℕ} (h : Claimed start es parent xs)
    (hq : queue.Ok start.length fun v => (parentOf start v).isSome) :
    (queue.shared++xs).length ≤ queue.capacity := by
  apply hq.fits h.nodup
  intro v hv
  exact ⟨h.lt_length hv,by simp [((h.new v).mp hv).1]⟩

lemma tdEdge_spec (es' : ℕ → ℕ → Prop)
    (hq : queue.Ok start.length fun v => (parentOf start v).isSome) {s : TDState}
    {xs : List ℕ} (h : s.Ok start queue es xs) (hv : v < start.length) (huv : es' u v)
    (hmono : ∀ a b,es a b → es' a b)
    (honly : ∀ a b,es' a b → es a b ∨ (a = u ∧ b = v)) :
    ∃ s' xs',tdEdge u s v = some s' ∧ s'.Ok start queue es' xs' := by
  have hlt : v < s.parent.length := h.claimed.length_eq ▸ hv
  obtain ⟨p,hp⟩ : ∃ p,s.parent[v]? = some p := ⟨_,List.getElem?_eq_getElem hlt⟩
  by_cases hneg : p < 0
  · obtain ⟨b,sq,hpush,hbuf⟩ := h.buffered.push (h.claimed.fits hq) v
    have hnone := parentOf_of_neg hp hneg
    have hold : start[v]? = some p := by rw [← h.claimed.kept v hnone,hp]
    refine ⟨⟨s.parent.set v u,b,sq,s.scoutCount-p⟩,xs++[v],?_,?_,hbuf,by
      rw [scoutOf_append,scoutOf_singleton hold,h.scout,sub_eq_add_neg]⟩
    · simp [tdEdge,hp,hneg,compareAndSwap_eq hp,hpush]
    · apply h.claimed.claim hlt hnone huv hmono
      intro a b hab
      exact (honly a b hab).imp_right And.right
  · refine ⟨s,xs,?_,?_,h.buffered,h.scout⟩
    · simp [tdEdge,hp,hneg]
    · apply h.claimed.skip hmono
      intro a b hab
      rcases honly a b hab with hab | ⟨-,rfl⟩
      · exact .inl hab
      · exact .inr (by simp [parentOf_of_nonneg hp hneg])

lemma tdNode_spec (hg : g.Ok) (hlen : start.length = g.numNodes)
    (hq : queue.Ok start.length fun v => (parentOf start v).isSome)
    {s : TDState} {xs : List ℕ} (h : s.Ok start queue es xs) (hu : u < g.numNodes) :
    ∃ s' xs',tdNode g s u = some s' ∧
      s'.Ok start queue (fun a b => es a b ∨ (a = u ∧ g.Edge a b)) xs' := by
  obtain ⟨vs,hvs,hbound⟩ := hg.out u hu
  obtain ⟨s',hs',xs',h'⟩ := foldlM_rule (tdEdge u) (l := vs) (s := s)
    (I := fun done s => ∃ xs,s.Ok start queue (fun a b => es a b ∨ (a = u ∧ b ∈ done)) xs)
    ⟨xs,h.claimed.skip (fun _ _ => .inl) (by
      rintro a b (hab | ⟨-,hb⟩)
      · exact .inl hab
      · cases hb),h.buffered,h.scout⟩ (by
      rintro done v todo s rfl ⟨xs,h⟩
      obtain ⟨s',xs',hs',h'⟩ := tdEdge_spec (u := u) (v := v)
        (fun a b => es a b ∨ (a = u ∧ b ∈ done++[v])) hq h (hlen ▸ hbound v (by simp))
        (.inr ⟨rfl,by simp⟩) (by
          rintro a b (hab | ⟨rfl,hb⟩)
          · exact .inl hab
          · exact .inr ⟨rfl,by simp [hb]⟩) (by
          rintro a b (hab | ⟨rfl,hb⟩)
          · exact .inl (.inl hab)
          · rcases List.mem_append.mp hb with hb | hb
            · exact .inl (.inr ⟨rfl,hb⟩)
            · exact .inr ⟨rfl,List.mem_singleton.mp hb⟩)
      exact ⟨s',hs',xs',h'⟩)
  refine ⟨s',xs',by simp [tdNode,hvs,hs'],?_,h'.buffered,h'.scout⟩
  have hiff : ∀ b,b ∈ vs ↔ g.Edge u b := by
    intro b
    constructor
    · exact fun hb => ⟨vs,hvs,hb⟩
    · rintro ⟨vs',hvs',hb⟩
      rw [hvs] at hvs'
      cases hvs'
      exact hb
  apply h'.claimed.skip
  · rintro a b (hab | ⟨rfl,hb⟩)
    · exact .inl hab
    · exact .inr ⟨rfl,(hiff b).mp hb⟩
  · rintro a b (hab | ⟨rfl,hb⟩)
    · exact .inl (.inl hab)
    · exact .inl (.inr ⟨rfl,(hiff b).mpr hb⟩)

/-- The nodes of the window find all their unvisited successors. -/
lemma tdStep_spec (hg : g.Ok) (hlen : start.length = g.numNodes)
    (hq : queue.Ok start.length fun v => (parentOf start v).isSome) :
    ∃ parent xs,tdStep g start queue =
        some (parent,{ queue with shared := queue.shared++xs },scoutOf start xs) ∧
      Claimed start (fun u v => u ∈ queue.window ∧ g.Edge u v) parent xs := by
  obtain ⟨s,hs,xs,h⟩ := foldlM_rule (tdNode g) (l := queue.window) (s := ⟨start,⟨[]⟩,queue,0⟩)
    (I := fun done s => ∃ xs,s.Ok start queue (fun a b => a ∈ done ∧ g.Edge a b) xs)
    ⟨[],(Claimed.begin start).skip (fun _ _ h => h.elim) (by simp),.start queue,rfl⟩ (by
      rintro done u todo s heq ⟨xs,h⟩
      have hu : u < g.numNodes := hlen ▸ (hq.mem_window (by rw [heq]; simp)).1
      obtain ⟨s',xs',hs',h'⟩ := tdNode_spec hg hlen hq h hu
      refine ⟨s',hs',xs',h'.claimed.skip ?_ ?_,h'.buffered,h'.scout⟩
      · rintro a b (⟨ha,hab⟩ | ⟨rfl,hab⟩)
        · exact ⟨by simp [ha],hab⟩
        · exact ⟨by simp,hab⟩
      · rintro a b ⟨ha,hab⟩
        rcases List.mem_append.mp ha with ha | ha
        · exact .inl (.inl ⟨ha,hab⟩)
        · exact .inl (.inr ⟨List.mem_singleton.mp ha,hab⟩))
  refine ⟨s.parent,xs,?_,h.claimed⟩
  simp [tdStep,hs,h.buffered.flush (h.claimed.fits hq),h.scout]

end TopDown

section BottomUp
variable {g : CSRGraph} {start : List ℤ} {front : Bitmap} {S : ℕ → Prop} {u : ℕ}

lemma findSet_spec {n : ℕ} (hfront : front.Holds n S) {vs : List ℕ} (hvs : ∀ v ∈ vs,v < n) :
    ∃ found,findSet front vs = some found ∧ (∀ v,found = some v → v ∈ vs ∧ S v) ∧
      (found = none → ∀ v ∈ vs,¬S v) := by
  induction vs with
  | nil => exact ⟨none,rfl,by simp,by simp⟩
  | cons v vs ih =>
    obtain ⟨bit,hbit,hS⟩ := hfront.bits v (hvs v (by simp))
    cases bit with
    | true =>
      refine ⟨some v,by simp [findSet,hbit],?_,by simp⟩
      rintro w ⟨⟩
      exact ⟨by simp,hS.mp rfl⟩
    | false =>
      obtain ⟨found,hfound,hsome,hnone⟩ := ih fun w hw => hvs w (by simp [hw])
      refine ⟨found,by simp [findSet,hbit,hfound],?_,?_⟩
      · intro w hw
        exact ⟨List.mem_cons_of_mem v (hsome w hw).1,(hsome w hw).2⟩
      · intro heq w hw
        rcases List.mem_cons.mp hw with rfl | hw
        · intro hSw
          exact absurd (hS.mpr hSw) (by simp)
        · exact hnone heq w hw

/-- The state of `BUStep` with the nodes below `j` done. -/
structure BUState.Ok (g : CSRGraph) (start : List ℤ) (S : ℕ → Prop) (j : ℕ) (s : BUState)
    (xs : List ℕ) : Prop where
  claimed : Claimed start (fun u v => (S u ∧ g.Edge u v) ∧ v < j) s.parent xs
  next : s.next.Holds g.numNodes (· ∈ xs)
  awake : s.awakeCount = xs.length

lemma buNode_spec (hg : g.Ok) (hlen : start.length = g.numNodes)
    (hfront : front.Holds g.numNodes S) {s : BUState} {xs : List ℕ} (hu : u < g.numNodes)
    (h : s.Ok g start S u xs) :
    ∃ s',buNode g front u s = some s' ∧ ∃ xs',s'.Ok g start S (u+1) xs' := by
  have hlt : u < s.parent.length := by rwa [h.claimed.length_eq,hlen]
  have hmono : ∀ a b,(S a ∧ g.Edge a b) ∧ b < u → (S a ∧ g.Edge a b) ∧ b < u+1 :=
    fun a b hab => ⟨hab.1,by omega⟩
  obtain ⟨p,hp⟩ : ∃ p,s.parent[u]? = some p := ⟨_,List.getElem?_eq_getElem hlt⟩
  by_cases hneg : p < 0
  · obtain ⟨us,hus,hmem⟩ := hg.into u hu
    obtain ⟨found,hfound,hsome,hnone⟩ := findSet_spec hfront fun a ha =>
      hg.left_lt ((hmem a).mp ha)
    cases found with
    | none =>
      refine ⟨s,by simp [buNode,hp,hus,hfound],xs,?_,h.next,h.awake⟩
      apply h.claimed.skip hmono
      rintro a b ⟨⟨hSa,hab⟩,hb⟩
      by_cases hbu : b = u
      · subst hbu
        exact absurd hSa (hnone rfl a ((hmem a).mpr hab))
      · exact .inl ⟨⟨hSa,hab⟩,by omega⟩
    | some a =>
      obtain ⟨ha,hSa⟩ := hsome a rfl
      obtain ⟨next,hset,hnext⟩ := h.next.setBit hu
      refine ⟨⟨s.parent.set u a,next,s.awakeCount+1⟩,?_,xs++[u],?_,?_,?_⟩
      · simp [buNode,hp,hneg,hus,hfound,write_of_lt hlt,hset]
      · apply h.claimed.claim hlt (parentOf_of_neg hp hneg)
          ⟨⟨hSa,(hmem a).mp ha⟩,Nat.lt_succ_self u⟩ hmono
        rintro a b ⟨hab,hb⟩
        by_cases hbu : b = u
        · exact .inr hbu
        · exact .inl ⟨hab,by omega⟩
      · apply hnext.congr
        intro v _
        simp [or_comm]
      · simp [h.awake]
  · refine ⟨s,by simp [buNode,hp,hneg],xs,?_,h.next,h.awake⟩
    apply h.claimed.skip hmono
    rintro a b ⟨hab,hb⟩
    by_cases hbu : b = u
    · exact .inr (by simp [hbu,parentOf_of_nonneg hp hneg])
    · exact .inl ⟨hab,by omega⟩

/-- All unvisited nodes look for predecessors in the frontier. -/
lemma buStep_spec (hg : g.Ok) (hlen : start.length = g.numNodes)
    (hfront : front.Holds g.numNodes S) {next : Bitmap} {T : ℕ → Prop}
    (hnext : next.Holds g.numNodes T) :
    ∃ s xs,buStep g start front next = some s ∧
      Claimed start (fun u v => S u ∧ g.Edge u v) s.parent xs ∧
      s.next.Holds g.numNodes (· ∈ xs) ∧ s.awakeCount = xs.length := by
  obtain ⟨s,hs,xs,h⟩ := forUp_rule (buNode g front) (n := g.numNodes) (i := 0)
    (s := ⟨start,next.reset,0⟩) (I := fun j s => ∃ xs,s.Ok g start S j xs)
    ⟨[],(Claimed.begin start).skip (fun _ _ h => h.elim) (by simp),
      hnext.reset.congr (by simp),rfl⟩
    (fun u s _ hu ⟨xs,h⟩ => buNode_spec hg hlen hfront (by omega) h)
  refine ⟨s,xs,hs,?_,h.next,h.awake⟩
  apply h.claimed.skip
  · exact fun a b hab => hab.1
  · intro a b hab
    exact .inl ⟨hab,by rw [Nat.zero_add]; exact hg.right_lt hab.2⟩

end BottomUp

section Conversions
variable {g : CSRGraph} {queue : SlidingQueue} {bm : Bitmap} {S P : ℕ → Prop}

lemma queueToBitmap_spec {n : ℕ} (hbm : bm.Holds n S) (hq : ∀ v ∈ queue.window,v < n) :
    ∃ bm',queueToBitmap queue bm = some bm' ∧ bm'.Holds n fun v => v ∈ queue.window ∨ S v := by
  apply foldlM_rule Bitmap.setBit (I := fun done b => b.Holds n fun v => v ∈ done ∨ S v)
  · exact hbm.congr (by simp)
  · rintro done v todo b heq hb
    obtain ⟨b',hset,hb'⟩ := hb.setBit (hq v (by rw [heq]; simp))
    refine ⟨b',hset,hb'.congr fun w _ => ?_⟩
    simp only [List.mem_append,List.mem_singleton]
    tauto

/-- The marked nodes enter the queue, as long as none of them is in it. -/
lemma bitmapToQueue_spec (hbm : bm.Holds g.numNodes S) (hq : queue.Ok g.numNodes P)
    (hnew : ∀ v < g.numNodes,S v → ¬P v) :
    ∃ xs,bitmapToQueue g bm queue =
        some ({ queue with shared := queue.shared++xs } : SlidingQueue).slideWindow ∧
      xs.Nodup ∧ ∀ v,v ∈ xs ↔ v < g.numNodes ∧ S v := by
  have hfits : ∀ j ≤ g.numNodes,∀ xs : List ℕ,xs.Nodup → (∀ v,v ∈ xs ↔ v < j ∧ S v) →
      (queue.shared++xs).length ≤ queue.capacity := by
    intro j hj xs hnodup hmem
    apply hq.fits hnodup
    intro v hv
    have hv := (hmem v).mp hv
    exact ⟨by omega,hnew v (by omega) hv.2⟩
  obtain ⟨⟨b,sq⟩,hs,xs,hbuf,hnodup,hmem⟩ := forUp_rule (pushSet bm) (n := g.numNodes) (i := 0)
    (s := (⟨[]⟩,queue))
    (I := fun j s => ∃ xs,QueueBuffer.Buffered queue s.1 s.2 xs ∧ xs.Nodup ∧
      ∀ v,v ∈ xs ↔ v < j ∧ S v)
    ⟨[],.start queue,List.nodup_nil,by simp⟩ (by
      rintro j ⟨b,sq⟩ - hj ⟨xs,hbuf,hnodup,hmem⟩
      obtain ⟨bit,hbit,hS⟩ := hbm.bits j (by omega)
      cases bit with
      | true =>
        obtain ⟨b',sq',hpush,hbuf'⟩ := hbuf.push (hfits j (by omega) xs hnodup hmem) j
        refine ⟨(b',sq'),by simp [pushSet,hbit,hpush],xs++[j],hbuf',?_,?_⟩
        · apply hnodup.append (List.nodup_singleton j)
          rw [List.disjoint_singleton,hmem]
          omega
        · intro v
          rw [List.mem_append,List.mem_singleton,hmem]
          have hSj := hS.mp rfl
          constructor
          · rintro (⟨hv,hSv⟩ | rfl)
            · exact ⟨by omega,hSv⟩
            · exact ⟨by omega,hSj⟩
          · rintro ⟨hv,hSv⟩
            by_cases hvj : v = j
            · exact .inr hvj
            · exact .inl ⟨by omega,hSv⟩
      | false =>
        refine ⟨(b,sq),by simp [pushSet,hbit],xs,hbuf,hnodup,fun v => ?_⟩
        rw [hmem]
        constructor
        · rintro ⟨hv,hSv⟩
          exact ⟨by omega,hSv⟩
        · rintro ⟨hv,hSv⟩
          have hne : v ≠ j := by
            rintro rfl
            exact absurd (hS.mpr hSv) (by simp)
          exact ⟨by omega,hSv⟩)
  rw [Nat.zero_add] at hmem
  refine ⟨xs,?_,hnodup,hmem⟩
  simp [bitmapToQueue,hs,hbuf.flush (hfits g.numNodes le_rfl xs hnodup hmem)]

end Conversions

end ElasticTranslations.Gapbs
