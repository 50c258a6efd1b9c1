import ElasticTranslations.Structures.RecencyList
import ElasticTranslations.Pcc.SetRuns

/-! A set with policy 0 is a recency list of (tag,offset,dirty) triples: over any sequence of
operations both give the same answers and keep the same order. -/
namespace ElasticTranslations.Pcc
open Structures

/-- The reference: triples of tag, offset and dirty bit, most recently used first. -/
abbrev LruSet := RecencyList UInt64 (UInt64 × Bool)

namespace LruSet

def perform (associativity : ℕ) (l : LruSet) : SetOp → SetAnswer × LruSet
  | .access tag offset isLoad =>
    match l.value tag with
    | none => (.accessed false,l)
    | some (_,dirty) => (.accessed true,l.renew tag (offset,dirty || !isLoad))
  | .insert tag offset isLoad out =>
    let out := match l.dropped associativity with
      | none => out
      | some (t,o,d) => ⟨d,t.toInt64,o⟩
    (.inserted out,l.push associativity tag (offset,!isLoad))
  | .evict tag => (.evicted ((l.value tag).any Prod.snd),l.remove tag)
  | .flush => (.flushed,[])

def record (associativity : ℕ) (s : List SetAnswer × LruSet) (op : SetOp) :
    List SetAnswer × LruSet :=
  let (answer,l) := perform associativity s.2 op
  (s.1 ++ [answer],l)

/-- The answers and the final list of a sequence of operations on the empty set. -/
def run (associativity : ℕ) (ops : List SetOp) : List SetAnswer × LruSet :=
  ops.foldl (record associativity) ([],[])

lemma run_snoc (associativity : ℕ) (ops : List SetOp) (op : SetOp) :
    run associativity (ops ++ [op]) = record associativity (run associativity ops) op := by
  simp [run]

end LruSet

namespace CacheSet
variable {associativity policy : ℕ} {cs cs' : CacheSet associativity policy}
  {order : List LinePtr}

/-- The triple that a line stands for. -/
def triple (cs : CacheSet associativity policy) (p : LinePtr) : UInt64 × UInt64 × Bool :=
  ((cs.lines p).addr,(cs.lines p).offset,(cs.lines p).dirty)

def triples (cs : CacheSet associativity policy) : LruSet := cs.linked.map cs.triple

lemma Represents.triples_eq (h : cs.Represents order) : cs.triples = order.map cs.triple := by
  rw [triples,h.linked_eq]

lemma triple_congr {p q : LinePtr} (h : (cs'.lines q).data = (cs.lines p).data) :
    cs'.triple q = cs.triple p := by
  simp only [CacheLine.data,LineData.mk.injEq] at h
  simp [triple,h]

lemma Sane.only (h : cs.Sane) {t : UInt64} {c : LinePtr} (hc : cs.find t = some c) :
    ∀ p ∈ cs.linked, (cs.triple p).1 = (cs.triple c).1 → p = c := by
  obtain ⟨hco,-⟩ := h.intact.indexed t c hc
  exact fun p hp he => h.exact.addr_injective hp hco he

lemma Sane.value_none (h : cs.Sane) {t : UInt64} (ht : cs.find t = none) :
    cs.triples.value t = none := by
  apply RecencyList.value_of_not_mem
  intro p hp he
  have := h.exact p hp
  rw [show (cs.lines p).addr = t from he,ht] at this
  cases this

lemma Sane.value_some (h : cs.Sane) {t : UInt64} {c : LinePtr} (hc : cs.find t = some c) :
    cs.triples.value t = some ((cs.lines c).offset,(cs.lines c).dirty) := by
  obtain ⟨hco,hca⟩ := h.intact.indexed t c hc
  have := RecencyList.value_of_mem hco (h.only hc)
  rwa [show (cs.triple c).1 = t from hca] at this

/-- A hit moves the triple to the front and updates it; a decay does not show. -/
lemma triple_hit {c p : LinePtr} {offset : UInt64} {isLoad : Bool} {b : Prop} [Decidable b]
    (hd : (cs'.lines p).data =
      if b then (cs.hitData c offset isLoad p).decayed else cs.hitData c offset isLoad p) :
    cs'.triple p = if p = c then ((cs.lines c).addr,offset,(cs.lines c).dirty || !isLoad)
      else cs.triple p := by
  have hdata : (cs'.lines p).addr = (cs.hitData c offset isLoad p).addr ∧
      (cs'.lines p).offset = (cs.hitData c offset isLoad p).offset ∧
      (cs'.lines p).dirty = (cs.hitData c offset isLoad p).dirty := by
    refine ⟨congrArg LineData.addr hd |>.trans ?_,congrArg LineData.offset hd |>.trans ?_,
      congrArg LineData.dirty hd |>.trans ?_⟩
    all_goals split_ifs <;> rfl
  obtain ⟨ha,ho,hdi⟩ := hdata
  simp only [triple,ha,ho,hdi]
  by_cases hp : p = c
  · cases isLoad <;> simp [hitData,hp]
  · simp [hitData,hp,CacheLine.data]

theorem access_lru {cs : CacheSet associativity 0} (h : cs.Sane) (t offset : UInt64)
    (isLoad : Bool) :
    ∃ cs', cs.perform (.access t offset isLoad) =
        .ok ((LruSet.perform associativity cs.triples (.access t offset isLoad)).1,cs') ∧
      cs'.triples = (LruSet.perform associativity cs.triples (.access t offset isLoad)).2 := by
  cases hc : cs.find t with
  | none =>
    refine ⟨cs.touch t,?_,?_⟩
    · simp [LruSet.perform,h.value_none hc,perform_access (access_miss hc)]
    · simp only [LruSet.perform,h.value_none hc]
      rw [(Represents.touch t h.intact).triples_eq,triples]
      simp [triple]
  | some c =>
    obtain ⟨cs',xs,ys,hr,hxy,hpos,h',-,-,hd⟩ :=
      access_hit (by omega) h.intact offset isLoad hc (by omega)
    obtain ⟨hco,hca⟩ := h.intact.indexed t c hc
    obtain rfl : xs = [] := hpos.front rfl
    obtain rfl : cs.linked.erase c = ys := hxy
    refine ⟨cs',?_,?_⟩
    · simp [LruSet.perform,h.value_some hc,perform_access hr]
    · simp only [LruSet.perform,h.value_some hc]
      rw [h'.triples_eq]
      have hself : cs'.triple c = ((cs.triple c).1,(offset,(cs.lines c).dirty || !isLoad)) := by
        rw [triple_hit (hd c),if_pos rfl]
        rfl
      have hother : ∀ p ∈ cs.linked, p ≠ c → cs'.triple p = cs.triple p := fun p _ hp => by
        rw [triple_hit (hd p),if_neg hp]
      have hrenew := RecencyList.renew_map h.intact.order_nodup (h.only hc) hself hother
      rw [show (cs.triple c).1 = t from hca] at hrenew
      exact hrenew.symm

/-- Filling a line in front of the others. -/
lemma map_triple_fill {c : LinePtr} {t offset : UInt64} {isLoad : Bool} (hc : c ∉ order)
    (hd : ∀ p, (cs'.lines p).data = cs.newData c t offset isLoad p) :
    (c :: order).map cs'.triple = (t,offset,!isLoad) :: order.map cs.triple := by
  have hself : cs'.triple c = (t,offset,!isLoad) := by
    have := hd c
    simp only [newData,if_true,CacheLine.data,LineData.mk.injEq] at this
    simp [triple,this]
  rw [List.map_cons,hself]
  congr 1
  apply List.map_congr_left
  intro p hp
  have hpc : p ≠ c := fun he => hc (he ▸ hp)
  exact triple_congr (by rw [hd p]; simp [newData,hpc])

theorem insert_lru {cs : CacheSet associativity 0} (hassoc : 0 < associativity) (h : cs.Intact)
    (t offset : UInt64) (isLoad : Bool) (out : EvictOut) :
    ∃ cs', cs.perform (.insert t offset isLoad out) =
        .ok ((LruSet.perform associativity cs.triples (.insert t offset isLoad out)).1,cs') ∧
      cs'.triples = (LruSet.perform associativity cs.triples (.insert t offset isLoad out)).2 := by
  have hcount := h.count
  have hlen : cs.triples.length = cs.linked.length := by simp [triples]
  cases hf : cs.freeEntries with
  | cons c rest =>
    obtain ⟨cs',xs,ys,hxy,hr,h',-,-,hd,hpos⟩ := insert_free (by omega) h hf t offset isLoad out
    obtain rfl : xs = [] := hpos.front rfl
    obtain rfl : cs.linked = ys := hxy
    have hroom : cs.triples.length < associativity := by
      rw [hf,List.length_cons] at hcount
      omega
    refine ⟨cs',?_,?_⟩
    · simp [LruSet.perform,RecencyList.dropped,hroom,perform_insert hr]
    · simp only [LruSet.perform,RecencyList.push,hroom,if_true]
      rw [h'.triples_eq]
      exact map_triple_fill (List.nodup_cons.mp h'.order_nodup).1 hd
  | nil =>
    obtain ⟨v,l,cs',xs,ys,hlv,hxy,hr,h',-,-,hd,hpos⟩ :=
      insert_full (by omega) hassoc h hf t offset isLoad out
    obtain rfl : xs = [] := hpos.front rfl
    obtain rfl : l = ys := hxy
    have hfull : ¬ cs.triples.length < associativity := by
      rw [hf,List.length_nil] at hcount
      omega
    have htri : cs.triples = l.map cs.triple ++ [cs.triple v] := by
      rw [triples,hlv,List.map_append]
      rfl
    rw [htri] at hfull ⊢
    refine ⟨cs',?_,?_⟩
    · simp only [LruSet.perform,RecencyList.dropped,hfull,if_false,List.getLast?_concat]
      exact perform_insert hr
    · simp only [LruSet.perform,RecencyList.push,hfull,if_false,List.dropLast_concat]
      rw [h'.triples_eq]
      exact map_triple_fill (List.nodup_cons.mp h'.order_nodup).1 hd

theorem evict_lru {cs : CacheSet associativity 0} (h : cs.Sane) {t : UInt64}
    (ht : cs.find t ≠ none) :
    ∃ cs', cs.perform (.evict t) =
        .ok ((LruSet.perform associativity cs.triples (.evict t)).1,cs') ∧
      cs'.triples = (LruSet.perform associativity cs.triples (.evict t)).2 := by
  obtain ⟨c,hc⟩ := Option.ne_none_iff_exists'.mp ht
  obtain ⟨cs',hr,h',-,-,hd⟩ := evict_spec h.intact hc
  obtain ⟨-,hca⟩ := h.intact.indexed t c hc
  refine ⟨cs',?_,?_⟩
  · simp [LruSet.perform,h.value_some hc,perform_evict hr]
  · simp only [LruSet.perform]
    have := RecencyList.remove_map (h.only hc)
    rw [show (cs.triple c).1 = t from hca] at this
    rw [h'.triples_eq,triples,this]
    exact List.map_congr_left fun p _ => triple_congr (hd p)

/-- One operation used as intended: the same answer and the same list. -/
theorem perform_lru {cs : CacheSet associativity 0} (hassoc : 0 < associativity) (h : cs.Sane)
    {op : SetOp} (hadm : cs.Admissible op) :
    ∃ cs', cs.perform op = .ok ((LruSet.perform associativity cs.triples op).1,cs') ∧
      cs'.triples = (LruSet.perform associativity cs.triples op).2 := by
  cases op with
  | access t offset isLoad => exact access_lru h t offset isLoad
  | insert t offset isLoad out => exact insert_lru hassoc h.intact t offset isLoad out
  | evict t => exact evict_lru h hadm.2
  | flush =>
    obtain ⟨cs',hr,h',-⟩ := flush_spec h.intact
    exact ⟨cs',perform_flush hr,h'.triples_eq⟩

/-- Every run of operations used as intended gives the answers of the reference, and after
each of them `get_set` lists the tags of the reference in its order. -/
theorem lru_refines (associativity : ℕ) (hassoc : 0 < associativity) (ops : List SetOp)
    (hadm : EachStep record (start associativity 0) ops fun _ s op => s.2.Admissible op) :
    Throughout record (start associativity 0) ops fun pre s =>
      s.1 = (LruSet.run associativity pre).1 ∧ s.2.triples = (LruSet.run associativity pre).2 ∧
      s.2.getSet = .ok ((LruSet.run associativity pre).2.map Prod.fst) ∧
      (LruSet.run associativity pre).2.length ≤ associativity := by
  have hrun : Throughout record (start associativity 0) ops fun pre s =>
      s.2.Sane ∧ s.1 = (LruSet.run associativity pre).1 ∧
        s.2.triples = (LruSet.run associativity pre).2 := by
    refine .of_steps ⟨new_sane,rfl,new_represents.triples_eq⟩ (fun pre s op h hc => ?_) hadm
    obtain ⟨hs,hanswers,htriples⟩ := h
    obtain ⟨cs',hr,hcs'⟩ := perform_lru hassoc hs hc
    obtain ⟨answer,cs'',hr',hs'⟩ :=
      hs.perform (by omega) hassoc hc (relinks_of_ne_one (by omega) op)
    obtain ⟨-,rfl⟩ : _ ∧ cs' = cs'' := by simpa [hr] using hr'
    refine ⟨_,record_of_perform hr,hs',?_,?_⟩
    · rw [LruSet.run_snoc,LruSet.record,← htriples,hanswers]
    · rw [hcs',LruSet.run_snoc,LruSet.record,htriples]
  refine hrun.mono fun pre s h => ?_
  obtain ⟨hs,hanswers,htriples⟩ := h
  refine ⟨hanswers,htriples,?_,?_⟩
  · rw [getSet_spec hs.intact,← htriples,triples,List.map_map]
    rfl
  · have := hs.intact.count
    rw [← htriples,triples,List.length_map]
    omega

/-- A hit, an insertion into a full set, an eviction that frees a line and a flush. -/
def mixedOps : List SetOp :=
  [.insert 1 10 true {},.insert 2 20 false {},.access 1 11 false,.insert 3 30 true {},
    .evict 1,.insert 4 40 true {},.flush]

theorem lru_refines_mixedOps :
    EachStep record (start 2 0) mixedOps (fun _ s op => s.2.Admissible op) ∧
      Throughout record (start 2 0) mixedOps fun pre s =>
        s.1 = (LruSet.run 2 pre).1 ∧ s.2.triples = (LruSet.run 2 pre).2 ∧
        s.2.getSet = .ok ((LruSet.run 2 pre).2.map Prod.fst) ∧ (LruSet.run 2 pre).2.length ≤ 2 := by
  have hadm : EachStep record (start 2 0) mixedOps fun _ s op => s.2.Admissible op := by
    apply admissible_of_stepsMeet
    decide +kernel
  exact ⟨hadm,lru_refines 2 (by decide) _ hadm⟩

end CacheSet
end ElasticTranslations.Pcc
