import ElasticTranslations.Pcc.Runs

/-! Structural integrity of every set over whole simulator runs. Tags may repeat: the
invariant behind it never assumes that an inserted tag is absent. -/
namespace ElasticTranslations.Pcc
open Structures

namespace CacheSet
variable {associativity policy : ℕ} {cs : CacheSet associativity policy}

/-- Every line object is linked once or free once, the links agree in both directions from
the head to the tail, and the map only knows linked lines that carry the looked-up tag. -/
structure Integrity (cs : CacheSet associativity policy) : Prop where
  once : ∀ i < associativity, cs.linked.count (.entry i) + cs.freeEntries.count (.entry i) = 1
  objects : ∀ p ∈ cs.linked ++ cs.freeEntries, ∃ i < associativity, p = .entry i
  threads : cs.links.Threads (LinePtr.head :: cs.linked ++ [LinePtr.tail])
  indexed : ∀ t p, cs.find t = some p → p ∈ cs.linked ∧ (cs.lines p).addr = t

lemma Intact.integrity (h : cs.Intact) : cs.Integrity where
  once i hi := by
    have hm : LinePtr.entry i ∈ cs.linked ++ cs.freeEntries := by
      rw [h.objects.mem_iff]
      exact List.mem_map_of_mem (List.mem_range.mpr hi)
    rw [← List.count_append]
    exact List.count_eq_one_of_mem h.nodup hm
  objects _ hp := h.mem_objects hp
  threads := h.threads
  indexed := h.indexed

/-- A flush keeps the set in order. -/
theorem Intact.flush (h : cs.Intact) :
    ∃ cs', cs.flush = .ok cs' ∧ cs'.Intact ∧ cs'.linked = [] := by
  obtain ⟨cs',hr,h',-⟩ := flush_spec h
  exact ⟨cs',hr,h'.intact,h'.linked_eq⟩

end CacheSet

namespace FunctionalCache
variable {g : Geometry} {c : FunctionalCache g}

lemma flushFrom_intact (h : c.Intact) (i n : ℕ) :
    ∃ c', c.flushFrom i n = .ok c' ∧ c'.Intact := by
  induction n generalizing c i with
  | zero => exact ⟨c,rfl,h⟩
  | succ n ih =>
    obtain ⟨cs,hr,hcs,-⟩ := (h i).flush
    obtain ⟨c',hr',h'⟩ := ih (c := ⟨Function.update c.sets i cs⟩) (i := i+1) (fun j => by
      by_cases hj : j = i
      · subst hj; simpa using hcs
      · simpa [hj] using h j)
    exact ⟨c',by simp only [flushFrom,hr,ok_bind,hr'],h'⟩

/-- A flush of the whole cache never fails either. -/
theorem Intact.flush (h : c.Intact) : ∃ c', c.flush = .ok c' ∧ c'.Intact :=
  flushFrom_intact h 0 g.setCount

def Integrity (c : FunctionalCache g) : Prop := ∀ i, (c.sets i).Integrity

end FunctionalCache

/-- In every run, after every prefix of the trace, nothing has failed (no assertion, no null
line, no set index out of range, no loop off the list) and all four caches are in order;
they also stay so when they are flushed there. -/
theorem runTrace_integrity (cfg : Config) (trace : List UInt64) :
    Throughout (PccState.pccTrackAccess cfg) promotionCacheInit trace fun _ s =>
      s.l1Tlb4k.Integrity ∧ s.l1Tlb2m.Integrity ∧ s.l2Tlb.Integrity ∧
        s.promotionCache.Integrity ∧
      (∃ c, s.l1Tlb4k.flush = .ok c ∧ c.Integrity) ∧
      (∃ c, s.l1Tlb2m.flush = .ok c ∧ c.Integrity) ∧
      (∃ c, s.l2Tlb.flush = .ok c ∧ c.Integrity) ∧
      ∃ c, s.promotionCache.flush = .ok c ∧ c.Integrity := by
  refine (runTrace_valid cfg trace).mono fun _ s h => ?_
  have hflush : ∀ {g : Geometry} {c : FunctionalCache g}, c.Intact →
      ∃ c', c.flush = .ok c' ∧ c'.Integrity := fun hc => by
    obtain ⟨c',hr,hc'⟩ := hc.flush
    exact ⟨c',hr,fun i => (hc' i).integrity⟩
  exact ⟨fun i => (h.tlbs.l1Tlb4k i).integrity,fun i => (h.tlbs.l1Tlb2m i).integrity,
    fun i => (h.tlbs.l2Tlb i).integrity,fun i => (h.promotionCache i).integrity,
    hflush h.tlbs.l1Tlb4k,hflush h.tlbs.l1Tlb2m,hflush h.tlbs.l2Tlb,hflush h.promotionCache⟩

end ElasticTranslations.Pcc
