import ElasticTranslations.Pcc.Runs

/-! Agreement of the TLB contents with the set of promoted regions. The summaries keep it; a
refill breaks it in exactly two places: the fall-through after a full miss on a promoted
region, and a hit of a 2 MiB lookup in the L2 TLB on a region that is not promoted. -/
namespace ElasticTranslations.Pcc
open Structures FunctionalCache

namespace PccState
variable {s s' s₁ : PccState} {v : UInt64}

/-- The L1 2M TLB only hits promoted regions, and no 4 KiB lookup hits one. -/
structure Agrees (s : PccState) : Prop where
  huge : ∀ v, s.l1Tlb2m.hits v = true → s.promoted (region v) = true
  base : ∀ v, s.promoted (region v) = true → s.l1Tlb4k.hits v = false ∧ s.l2Tlb.hits v = false

/-- The refill of an address goes to the L1 TLB of its page size, and only there. -/
def RefillsAgree (s : PccState) (v : UInt64) : Prop :=
  (s.outcome v = .miss → s.promoted (region v) = false) ∧
    (s.outcome v = .l2HugeHit → s.promoted (region v) = true)

lemma init_agrees : promotionCacheInit.Agrees :=
  ⟨fun v hv => absurd hv (by simp [new_hits,promotionCacheInit]),
    fun v hv => absurd hv (by simp [promoted,promotionCacheInit])⟩

/-- Summaries keep the agreement: what changes its page size is shot down. -/
lemma Counted.agrees (h : s.Counted s₁) (ha : s.Agrees) : s₁.Agrees := by
  obtain ⟨as,-,hs⟩ := h
  refine ⟨fun v hv => ?_,fun v hv => ?_⟩
  · have hp : s.promoted (region v) = true := by
      by_contra hp
      have hm : s.l1Tlb2m.hits v = false := Bool.eq_false_iff.mpr fun hm => hp (ha.huge v hm)
      exact Bool.false_ne_true ((hs.l1Tlb2m.hits hm).symm.trans hv)
    by_cases hb : region v ∈ as
    · have hn := (hs.noHugePage (region v) hb hp v rfl).1
      rw [l1Tlb2m_hits] at hn
      exact absurd (hn.symm.trans hv) Bool.false_ne_true
    · exact (hs.promoted_of_notMem hb).trans hp
  · by_cases hb : region v ∈ as
    · cases hp : s.promoted (region v) with
      | true => exact absurd ((hs.demoted hb hp).symm.trans hv) Bool.false_ne_true
      | false => exact hs.noBasePages (region v) hb hp hv v rfl
    · have hp : s.promoted (region v) = true := (hs.promoted_of_notMem hb).symm.trans hv
      exact ⟨hs.l1Tlb4k.hits (ha.base v hp).1,hs.l2Tlb.hits (ha.base v hp).2⟩

/-- Equal 4 KiB page numbers are in the same region. -/
lemma region_eq_of_page {v w : UInt64} (h : w.toNat/2^12 = v.toNat/2^12) : region w = region v := by
  rw [← UInt64.toNat_inj,region_toNat,region_toNat]
  omega

/-- A base page is only inserted for a region that is not promoted. -/
lemma Agrees.not_promoted (ha : s.Agrees) (hc : s.RefillsAgree v)
    (hn : 0 < s.refills4k v ∨ 0 < s.refillsL2 v) : s.promoted (region v) = false := by
  cases ho : s.outcome v with
  | miss => exact hc.1 ho
  | l2BaseHit =>
    have hh := (outcome_eq_l2BaseHit.mp ho).2.2
    by_contra hp
    exact absurd ((ha.base v (by simpa using hp)).2.symm.trans hh) Bool.false_ne_true
  | l1Hit => simp [refills4k,refillsL2,ho] at hn
  | l2HugeHit => simp [refills4k,refillsL2,ho] at hn

/-- A refill into the right TLB keeps the agreement. -/
lemma AccessStep.agrees (h : s.AccessStep v s') (ha : s.Agrees) (hc : s.RefillsAgree v) :
    s'.Agrees := by
  obtain ⟨out,h4,-⟩ := h.l1Tlb4k
  refine ⟨fun w hw => ?_,fun w hw => ?_⟩
  · rw [h.promoted]
    rcases h.l1Tlb2m.hits_subset hw with ⟨hn,hp⟩ | hw
    · have hr : region w = region v := by
        rw [l1Tlb2m_page,l1Tlb2m_page] at hp
        rw [← UInt64.toNat_inj,region_toNat,region_toNat,hp]
      rw [hr]
      cases ho : s.outcome v with
      | l2HugeHit => exact hc.2 ho
      | miss => simp [refills2m,ho,hc.1 ho] at hn
      | l1Hit => simp [refills2m,ho] at hn
      | l2BaseHit => simp [refills2m,ho] at hn
    · exact ha.huge w hw
  · rw [h.promoted] at hw
    have hbase := ha.base w hw
    refine ⟨Bool.eq_false_iff.mpr fun hh => ?_,Bool.eq_false_iff.mpr fun hh => ?_⟩
    · rcases h4.hits_subset hh with ⟨hn,hp⟩ | hh
      · rw [l1Tlb4k_page,l1Tlb4k_page] at hp
        rw [region_eq_of_page hp,ha.not_promoted hc (Or.inl hn)] at hw
        exact Bool.false_ne_true hw
      · exact absurd (hbase.1.symm.trans hh) Bool.false_ne_true
    · rcases h.l2Tlb.hits_subset hh with ⟨hn,hp⟩ | hh
      · have hv := ha.not_promoted hc (Or.inr hn)
        rw [hv,l2Tlb_page,l2Tlb_page] at hp
        rw [region_eq_of_page hp,hv] at hw
        exact Bool.false_ne_true hw
      · exact absurd (hbase.2.symm.trans hh) Bool.false_ne_true

/-- A refill into the wrong TLB breaks it at once. -/
lemma AccessStep.not_agrees (h : s.AccessStep v s') (hc : ¬ s.RefillsAgree v) : ¬ s'.Agrees := by
  intro ha
  simp only [RefillsAgree,not_and_or,Classical.not_imp,Bool.not_eq_false,Bool.not_eq_true] at hc
  rcases hc with ⟨ho,hp⟩ | ⟨ho,hp⟩
  · obtain ⟨out,h4,-⟩ := h.l1Tlb4k
    simp only [refills4k,ho,hp,if_true] at h4
    rw [← h.promoted] at hp
    exact absurd ((ha.base v hp).1.symm.trans h4.hits_self) Bool.false_ne_true
  · have h2 := h.l1Tlb2m
    simp only [refills2m,ho] at h2
    have hp' := ha.huge v h2.hits_self
    rw [h.promoted,hp] at hp'
    exact Bool.false_ne_true hp'

end PccState

/-- The TLBs agree with the promotions throughout a run exactly when no access misses all
lookups on a promoted region and none hits a 2 MiB lookup of the L2 TLB alone on a region
that is not promoted. -/
theorem agrees_iff (cfg : Config) (trace : List UInt64) :
    Throughout (PccState.pccTrackAccess cfg) promotionCacheInit trace (fun _ s => s.Agrees) ↔
      EachStep (PccState.pccTrackAccess cfg) promotionCacheInit trace
        fun _ s v => ∀ s₁, s.countAccess cfg = .ok s₁ → s₁.RefillsAgree v := by
  refine throughout_iff (I := fun _ s => s.Valid ∧ s.Agrees)
    ⟨PccState.init_valid,PccState.init_agrees⟩ (fun _ _ h => h.2) (fun _ s v h hc => ?_)
    fun _ s v h hc => ?_
  · obtain ⟨s₁,s',hr₁,hr',hcount,-,hs',hv⟩ := PccState.pccTrackAccess_spec h.1 cfg v
    exact ⟨s',hr',hv,hs'.agrees (hcount.agrees h.2) (hc s₁ hr₁)⟩
  · obtain ⟨s₁,s',hr₁,hr',-,-,hs',-⟩ := PccState.pccTrackAccess_spec h.1 cfg v
    refine ⟨s',hr',hs'.not_agrees fun hc₁ => hc fun t ht => ?_⟩
    obtain rfl : s₁ = t := by simpa [hr₁] using ht
    exact hc₁

/-- Page 1 answers the 2 MiB lookup of region 1, which is not promoted. -/
theorem not_agrees_after_two :
    ¬ ∀ cfg trace, Throughout (PccState.pccTrackAccess cfg) promotionCacheInit trace
      fun _ s => s.Agrees := by
  intro h
  obtain ⟨s,-,ha,ht⟩ := (h {} [4096,2097152]).meets
    (fun s => s.l1Tlb2m.hits 2097152 && !s.promoted (region 2097152)) (by decide +kernel)
  simp only [Bool.and_eq_true,Bool.not_eq_true'] at ht
  exact absurd (ht.2.symm.trans (ha.huge _ ht.1)) Bool.false_ne_true

end ElasticTranslations.Pcc
