import ElasticTranslations.Pcc.AccessSteps
import ElasticTranslations.Structures.Trace

/-! Whole calls of `pcc_track_access` and whole runs. A call is the counter step, which may
summarize, followed by one step of the TLB hierarchy and the promotion cache. -/
namespace ElasticTranslations.Pcc
open FunctionalCache

namespace PccState
variable {s s' : PccState} {v : UInt64}

/-- The access reaches the promotion cache: a full miss on a region with a reuse record. -/
def Consults (s : PccState) (v : UInt64) : Prop :=
  s.outcome v = .miss ∧ (s.reuseMap (region v)).isSome = true

instance : Decidable (s.Consults v) := inferInstanceAs (Decidable (_ ∧ _))

/-- The key under which the promotion cache is asked for the region of the address. -/
def consultedKey (s : PccState) (v : UInt64) : ℕ × UInt64 :=
  promotionCacheGeometry.key (region v*pageSize) (s.promoted (region v))

/-- A full miss that inserts into the promotion cache. -/
def fills (s : PccState) (v : UInt64) : Bool :=
  decide (s.outcome v = .miss) && s.fillsEntry (region v)

lemma consults_of_fills (h : s.fills v = true) : s.Consults v := by
  simp only [fills,fillsEntry,Bool.and_eq_true,decide_eq_true_eq] at h
  exact ⟨h.1,h.2.1⟩

lemma fills_miss (h : s.fills v = true) :
    s.promotionCache.hits (region v*pageSize) (s.promoted (region v)) = false := by
  simp only [fills,fillsEntry,Bool.and_eq_true,Bool.not_eq_true'] at h
  exact h.2.2

/-- A call of `pcc_track_access` from the TLB hierarchy on. The promotion cache takes the
out-parameters over from the L1 4K TLB. -/
structure AccessStep (s : PccState) (v : UInt64) (s' : PccState) : Prop where
  l1Tlb4k : ∃ out, Refills v false s.l1Tlb4k s.l14k (s.refills4k v) s'.l1Tlb4k out ∧
    (¬ s.Consults v → s'.promotionCache = s.promotionCache ∧ s'.l14k = out) ∧
    (s.Consults v → LookedUp (region v*pageSize) (s.promoted (region v)) s.promotionCache out
      (s.fills v) s'.promotionCache s'.l14k)
  l1Tlb2m : Refills v false s.l1Tlb2m s.l12m (s.refills2m v) s'.l1Tlb2m s'.l12m
  l2Tlb : Refills v (s.promoted (region v)) s.l2Tlb s.l2 (s.refillsL2 v) s'.l2Tlb s'.l2
  pccPromotions : s'.pccPromotions = s.pccPromotions
  totalNumAccesses : s'.totalNumAccesses = s.totalNumAccesses
  recorded : s.outcome v = .miss → (s'.reuseMap (region v)).isSome
  reuseMap_hit : s.outcome v ≠ .miss → s'.reuseMap = s.reuseMap
  reuseMap : ∀ b ≠ region v, s'.reuseMap b =
    if s.fills v ∧ s'.l14k.evictedAddr ≠ -1 ∧ b = resetRegion s'.l14k then some {}
    else s.reuseMap b

lemma AccessStep.promoted (h : s.AccessStep v s') (b : UInt64) :
    s'.promoted b = s.promoted b := by
  rw [PccState.promoted,h.pccPromotions]; rfl

theorem accessStep_spec (h : s.TlbsIntact) (hc : s.promotionCache.Intact) (v : UInt64) :
    ∃ s', (do
      let (miss,s₁) ← s.tlbLogic v (region v)
      if miss then s₁.missLogic (region v) else return s₁) = .ok s' ∧ s.AccessStep v s' := by
  obtain ⟨s₁,hr₁,hs₁⟩ := tlbLogic_spec h v
  by_cases ho : s.outcome v = .miss
  · obtain ⟨s',hr',hs',hrec⟩ := missLogic_spec (hs₁.promotionCache.symm ▸ hc) (region v)
    have hp : s₁.promoted (region v) = s.promoted (region v) := by
      rw [PccState.promoted,hs₁.pccPromotions]; rfl
    have hf : s₁.fillsEntry (region v) = s.fills v := by
      simp only [fills,ho,decide_true,Bool.true_and,fillsEntry]
      rw [hs₁.reuseMap,hs₁.promotionCache,hp]
    refine ⟨s',by simp [hr₁,ho,hr'],?_⟩
    exact {
      l1Tlb4k := by
        have hskip := hs'.skipped
        have hlook := hs'.promotionCache
        rw [hs₁.reuseMap,hs₁.promotionCache] at hskip hlook
        rw [hp,hf] at hlook
        refine ⟨s₁.l14k,hs'.l1Tlb4k ▸ hs₁.l1Tlb4k,fun hc => hskip ?_,fun hc => hlook hc.2⟩
        simpa [Consults,ho] using hc
      l1Tlb2m := by rw [hs'.l1Tlb2m,hs'.l12m]; exact hs₁.l1Tlb2m
      l2Tlb := by rw [hs'.l2Tlb,hs'.l2]; exact hs₁.l2Tlb
      pccPromotions := hs'.pccPromotions.trans hs₁.pccPromotions
      totalNumAccesses := hs'.totalNumAccesses.trans hs₁.totalNumAccesses
      recorded := fun _ => hrec
      reuseMap_hit := fun hn => absurd ho hn
      reuseMap := fun b hb => by
        have := hs'.reuseMap b hb
        rwa [hf,hs₁.reuseMap] at this }
  · have hf : s.fills v = false := by simp [fills,ho]
    refine ⟨s₁,by simp [hr₁,ho],?_⟩
    exact {
      l1Tlb4k := ⟨s₁.l14k,hs₁.l1Tlb4k,fun _ => ⟨hs₁.promotionCache,rfl⟩,
        fun hc => absurd hc.1 ho⟩
      l1Tlb2m := hs₁.l1Tlb2m
      l2Tlb := hs₁.l2Tlb
      pccPromotions := hs₁.pccPromotions
      totalNumAccesses := hs₁.totalNumAccesses
      recorded := fun hm => absurd hm ho
      reuseMap_hit := fun _ => hs₁.reuseMap
      reuseMap := fun b hb => by rw [hf,hs₁.reuseMap]; simp }

namespace AccessStep

/-- The promotion cache in the form that the TLBs have. -/
lemma promotionCache (h : s.AccessStep v s') (hv : s.Valid) : ∃ out out',
    Refills (region v*pageSize) (s.promoted (region v)) s.promotionCache out
      (if s.fills v then 1 else 0) s'.promotionCache out' := by
  obtain ⟨out,-,hskip,hlook⟩ := h.l1Tlb4k
  by_cases hc : s.Consults v
  · exact ⟨out,_,(hlook hc).refills⟩
  · have hf : s.fills v = false := Bool.eq_false_iff.mpr fun hf => hc (consults_of_fills hf)
    rw [hf,(hskip hc).1]
    exact ⟨out,out,.none (.refl hv.promotionCache)⟩

lemma promotionCache_valid (h : s.AccessStep v s') (hv : s.Valid) :
    s'.promotionCache.Intact ∧ s'.promotionCache.Exact := by
  obtain ⟨out,out',hp⟩ := h.promotionCache hv
  refine ⟨hp.intact,hp.exact (by split <;> simp) (fun hn => ?_) hv.promotionCacheExact⟩
  have hf : s.fills v = true := by
    by_contra hf
    simp [hf] at hn
  exact fills_miss hf

/-- An entry that was not there before has the tag of the accessed region. -/
lemma mem_entries (h : s.AccessStep v s') (hv : s.Valid) {b : UInt64} (hb : b ∈ s'.entries) :
    b ∈ s.entries ∨
      s.fills v ∧ b = if s.promoted (region v) then region v/512 else region v := by
  obtain ⟨hi,he⟩ := h.promotionCache_valid hv
  obtain ⟨out,out',hp⟩ := h.promotionCache hv
  rw [PccState.mem_entries hi he] at hb
  rw [PccState.mem_entries hv.promotionCache hv.promotionCacheExact]
  cases hf : s.fills v with
  | false =>
    simp only [hf] at hp
    exact Or.inl ((hp.touched.1.resident _).mp hb)
  | true =>
    apply (hp.resident_subset hb).symm.imp_right
    intro hk
    rw [promotionCache_key (region_lt v)] at hk
    exact ⟨rfl,congrArg Prod.snd hk⟩

/-- The TLB hierarchy and the promotion cache keep the invariant of the run. -/
theorem valid (h : s.AccessStep v s') (hv : s.Valid) : s'.Valid := by
  obtain ⟨hi,he⟩ := h.promotionCache_valid hv
  obtain ⟨out,h4,-⟩ := h.l1Tlb4k
  have h2 := s.refills2m_spec v
  have hl := s.refillsL2_spec v (s.promoted (region v))
  refine ⟨⟨h4.intact,h.l1Tlb2m.intact,h.l2Tlb.intact⟩,h.l1Tlb2m.exact h2.1 h2.2 hv.l1Tlb2mExact,
    h.l2Tlb.exact hl.1 hl.2 hv.l2TlbExact,hi,he,fun b hb => ?_⟩
  rcases h.mem_entries hv hb with hb | ⟨-,rfl⟩
  · exact hv.tags b hb
  · have := region_lt v
    split
    · simp only [UInt64.toNat_div,UInt64.reduceToNat]
      omega
    · exact this

end AccessStep

/-- A whole call. -/
theorem pccTrackAccess_spec (h : s.Valid) (cfg : Config) (v : UInt64) :
    ∃ s₁ s', s.countAccess cfg = .ok s₁ ∧ s.pccTrackAccess cfg v = .ok s' ∧ s.Counted s₁ ∧
      s₁.Valid ∧ s₁.AccessStep v s' ∧ s'.Valid := by
  obtain ⟨s₁,hr₁,as,has,hs₁⟩ := countAccess_spec h cfg
  obtain ⟨s',hr',hs'⟩ := accessStep_spec hs₁.valid.tlbs hs₁.valid.promotionCache v
  refine ⟨s₁,s',hr₁,?_,⟨as,has,hs₁⟩,hs₁.valid,hs',hs'.valid hs₁.valid⟩
  simp only [pccTrackAccess,hr₁,ok_bind]
  exact hr'

lemma init_valid : promotionCacheInit.Valid := by
  refine ⟨⟨new_intact,new_intact,new_intact⟩,new_exact,new_exact,new_intact,new_exact,?_⟩
  intro b hb
  exact absurd ((PccState.mem_entries new_intact new_exact).mp hb) (new_not_resident _)

end PccState

/-- No trace makes the simulator fail, and the invariant holds after every prefix. -/
theorem runTrace_valid (cfg : Config) (trace : List UInt64) :
    Structures.Throughout (PccState.pccTrackAccess cfg) promotionCacheInit trace
      fun _ s => s.Valid :=
  .of_invariant PccState.init_valid (fun _ _ v h => by
    obtain ⟨-,s',-,hr,-,-,-,hs'⟩ := PccState.pccTrackAccess_spec h cfg v
    exact ⟨s',hr,hs'⟩) trace

end ElasticTranslations.Pcc
