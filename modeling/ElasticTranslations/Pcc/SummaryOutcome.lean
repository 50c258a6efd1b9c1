import ElasticTranslations.Pcc.Runs

/-! The outcome of `summarize_promotions` in every reachable state, whatever the access
counter and the order of the snapshot are. -/
namespace ElasticTranslations.Pcc
open Structures

namespace PccState
variable {s s' : PccState}

/-- What the loop leaves behind, compared with the state `s` before it. -/
structure SummaryOutcome (s s' : PccState) : Prop where
  emptied : s'.promotionCache.getEntries = .ok []
  allFree : (s'.promotionCache.sets 0).freeEntries.Perm
    (CacheSet.lineObjects promotionCacheSize)
  toggled : ∀ b ∈ s.entries, ∃ n, s.promotionCache.getFreq (b*pageSize) = .ok n ∧
    (s'.promoted b ↔ s.promoted b = false ∧ 0 < n)
  untouched : ∀ b ∉ s.entries, s'.pccPromotions b = s.pccPromotions b
  added : ∀ b ∈ s.entries, s.promoted b = false → s'.promoted b = true → ∀ i < 512,
    s'.l1Tlb4k.hits (pageAddress b i) = false ∧ s'.l2Tlb.hits (pageAddress b i) = false
  removed : ∀ b ∈ s.entries, s.promoted b = true → ∀ v, region v = b →
    s'.l1Tlb2m.hits v true = false ∧ s'.l2Tlb.hits v true = false

lemma Summarized.outcome {as : List UInt64} (h : s.Summarized as s') (hv : s.Valid)
    (has : as.Perm s.entries) : s.SummaryOutcome s' := by
  have hnil : s'.entries = [] := by
    apply List.eq_nil_iff_forall_not_mem.mpr
    intro b hb
    obtain ⟨hb,hn⟩ := (h.entries b).mp hb
    exact hn (has.mem_iff.mpr hb)
  exact {
    emptied := by rw [getEntries_spec h.valid.promotionCache,hnil]
    allFree := by
      have hl : (s'.promotionCache.sets 0).linked = [] := List.map_eq_nil_iff.mp hnil
      have ho := (h.valid.promotionCache 0).objects
      rw [hl,List.nil_append] at ho
      have ha : promotionCacheGeometry.associativity = promotionCacheSize := by decide +kernel
      exact ho.trans (List.Perm.of_eq (congrArg CacheSet.lineObjects ha))
    toggled := fun b hb => by
      obtain ⟨n,hn,hp⟩ := h.toggled b (has.mem_iff.mpr hb)
      refine ⟨n,hn,?_⟩
      rw [promoted,hp]
      cases s.promoted b <;> simp
    untouched := fun b hb => h.untouched b fun hm => hb (has.mem_iff.mp hm)
    added := fun b hb hp hp' i hi => by
      apply h.noBasePages b (has.mem_iff.mpr hb) hp hp'
      exact region_pageAddress (hv.tags b hb) hi
    removed := fun b hb hp v hr => h.noHugePage b (has.mem_iff.mpr hb) hp v hr }

end PccState

/-- In every reachable state the snapshot has no duplicates and the loop over it, in any
order, ends without a fault in the same promotions, with an empty promotion cache and
without a stale translation of a region that changed its page size. -/
theorem summarizePromotions_outcome (cfg : Config) (trace : List UInt64) :
    Throughout (PccState.pccTrackAccess cfg) promotionCacheInit trace fun _ t =>
      ∀ n, let s := { t with totalNumAccesses := n }
        s.promotionCache.getEntries = .ok s.entries ∧ s.entries.Nodup ∧
        (∃ s', s.summarizePromotions = .ok s' ∧ s.SummaryOutcome s') ∧
        ∀ order, order.Perm s.entries →
          ∃ s', PccState.summarizeLoop 0 order s = .ok s' ∧ s.SummaryOutcome s' := by
  refine (runTrace_valid cfg trace).mono fun _ t ht n => ?_
  have h := ht.withCount n
  refine ⟨PccState.getEntries_spec h.promotionCache,h.entries_nodup,?_,fun order ho => ?_⟩
  · obtain ⟨s',hr,hs⟩ := PccState.summarizePromotions_spec h
    exact ⟨s',hr,hs.outcome h (List.Perm.refl _)⟩
  · obtain ⟨s',hr,hs⟩ := PccState.summarizeLoop_spec order 0 h (ho.nodup_iff.mpr h.entries_nodup)
      (fun b hb => ho.mem_iff.mp hb) (by rw [ho.length_eq]; exact h.entries_length)
    exact ⟨s',hr,hs.outcome h ho⟩

end ElasticTranslations.Pcc
