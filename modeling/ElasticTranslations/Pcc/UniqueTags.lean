import ElasticTranslations.Pcc.Runs

/-! Uniqueness of tags. It holds in three of the four caches in every run, and fails in the L1
4K TLB from the first access on: the refill after a full miss inserts the page twice. -/
namespace ElasticTranslations.Pcc
open Structures FunctionalCache

namespace CacheSet
variable {associativity policy : ℕ} {cs : CacheSet associativity policy}

/-- No tag is linked twice, and the map finds exactly the linked lines, each under its tag. -/
def UniqueTags (cs : CacheSet associativity policy) : Prop :=
  (cs.linked.map fun p => (cs.lines p).addr).Nodup ∧
    ∀ t p, cs.find t = some p ↔ p ∈ cs.linked ∧ (cs.lines p).addr = t

lemma Exact.uniqueTags (he : cs.Exact) (h : cs.Intact) : cs.UniqueTags := by
  refine ⟨List.Nodup.map_on (fun p hp q hq => he.addr_injective hp hq) h.order_nodup,
    fun t p => ⟨h.indexed t p,?_⟩⟩
  rintro ⟨hp,rfl⟩
  exact he p hp

/-- A set that takes the same tag twice while it has room links it twice. -/
lemma not_uniqueTags_of_twice {cs₁ cs₂ : CacheSet associativity policy} {p q : LinePtr}
    {t offset offset' : UInt64} {isLoad isLoad' : Bool} {out out' out₁ out₂ : EvictOut}
    (h : cs.Intact) (h₁ : Filled cs cs₁ p t offset isLoad out out₁)
    (h₂ : Filled cs₁ cs₂ q t offset' isLoad' out' out₂) (hroom : cs₁.freeEntries ≠ []) :
    ¬ cs₂.UniqueTags := by
  rintro ⟨hnd,-⟩
  have hp : p ∈ cs₁.linked := (h₁.mem_linked h).mpr (Or.inl rfl)
  have hqp : p ≠ q := fun he => (h₂.room hroom).1 (he ▸ hp)
  have hp₂ : p ∈ cs₂.linked := (h₂.mem_linked h₁.intact).mpr (Or.inr ⟨hp,hqp⟩)
  have hq₂ : q ∈ cs₂.linked := (h₂.mem_linked h₁.intact).mpr (Or.inl rfl)
  have hap : (cs₂.lines p).addr = t :=
    (congrArg LineData.addr (h₂.data_other hqp)).trans h₁.addr_self
  exact hqp (List.inj_on_of_nodup_map hnd hp₂ hq₂ (hap.trans h₂.addr_self.symm))

end CacheSet

def FunctionalCache.UniqueTags {g : Geometry} (c : FunctionalCache g) : Prop :=
  ∀ i, (c.sets i).UniqueTags

namespace PccState
variable {s s' : PccState} {v : UInt64}

/-- The three caches that are only filled after a miss in the same cache. -/
def SharedTagsUnique (s : PccState) : Prop :=
  s.l1Tlb2m.UniqueTags ∧ s.l2Tlb.UniqueTags ∧ s.promotionCache.UniqueTags

def UniqueTags (s : PccState) : Prop := s.l1Tlb4k.UniqueTags ∧ s.SharedTagsUnique

lemma Valid.sharedTagsUnique (h : s.Valid) : s.SharedTagsUnique :=
  ⟨fun i => (h.l1Tlb2mExact i).uniqueTags (h.tlbs.l1Tlb2m i),
    fun i => (h.l2TlbExact i).uniqueTags (h.tlbs.l2Tlb i),
    fun i => (h.promotionCacheExact i).uniqueTags (h.promotionCache i)⟩

lemma init_uniqueTags : promotionCacheInit.UniqueTags :=
  ⟨fun _ => CacheSet.new_exact.uniqueTags CacheSet.new_intact,init_valid.sharedTagsUnique⟩

/-- With an empty promotion cache a summary does nothing. -/
lemma countAccess_init (cfg : Config) :
    promotionCacheInit.countAccess cfg = .ok { promotionCacheInit with
      totalNumAccesses := promotionCacheInit.totalNumAccesses+1 } := by
  have h := init_valid.withCount (promotionCacheInit.totalNumAccesses+1)
  have he : entries { promotionCacheInit with
      totalNumAccesses := promotionCacheInit.totalNumAccesses+1 } = [] :=
    List.map_eq_nil_iff.mpr CacheSet.new_linked
  unfold countAccess
  dsimp only
  split
  · simp only [summarizePromotions,getEntries_spec h.promotionCache,he,ok_bind,summarizeLoop,
      pure_ok]
  · rfl

/-- The first access leaves its page twice in the L1 4K TLB. -/
lemma first_access (cfg : Config) (v : UInt64) :
    ∃ s', promotionCacheInit.pccTrackAccess cfg v = .ok s' ∧ ¬ s'.l1Tlb4k.UniqueTags := by
  obtain ⟨s₁,s',hr₁,hr',-,-,hs',-⟩ := pccTrackAccess_spec init_valid cfg v
  obtain rfl : _ = s₁ := by simpa [countAccess_init] using hr₁
  refine ⟨s',hr',fun hu => ?_⟩
  obtain ⟨out,h4,-⟩ := hs'.l1Tlb4k
  have hn : refills4k { promotionCacheInit with
      totalNumAccesses := promotionCacheInit.totalNumAccesses+1 } v = 2 := by
    have ho : outcome { promotionCacheInit with
        totalNumAccesses := promotionCacheInit.totalNumAccesses+1 } v = .miss :=
      outcome_eq_miss.mpr ⟨new_hits v false,new_hits v false,new_hits v false,new_hits v true⟩
    rw [refills4k,ho]
    rfl
  rw [hn] at h4
  cases h4 with
  | more h4 hi₂ =>
  cases h4 with
  | more h4 hi₁ =>
  obtain ⟨ht,-⟩ := h4.touched
  refine CacheSet.not_uniqueTags_of_twice (ht.intact _) hi₁.filled hi₂.filled ?_ (hu _)
  rw [hi₁.filled.freeEntries,(ht _).freeEntries]
  simp only [promotionCacheInit,new]
  decide +kernel

end PccState

/-- In every run three of the caches keep their tags unique; all four do so throughout
exactly when the trace is empty. -/
theorem uniqueTags_iff (cfg : Config) (trace : List UInt64) :
    Throughout (PccState.pccTrackAccess cfg) promotionCacheInit trace
        (fun _ s => s.SharedTagsUnique) ∧
      (Throughout (PccState.pccTrackAccess cfg) promotionCacheInit trace
        (fun _ s => s.UniqueTags) ↔ trace = []) := by
  refine ⟨(runTrace_valid cfg trace).mono fun _ _ h => h.sharedTagsUnique,fun h => ?_,?_⟩
  · cases trace with
    | nil => rfl
    | cons v trace =>
      obtain ⟨s,hr,hu⟩ := h [v] (by simp)
      obtain ⟨s',hr',hn⟩ := PccState.first_access cfg v
      obtain rfl : s' = s := by simpa [hr'] using hr
      exact absurd hu.1 hn
  · rintro rfl pre hp
    obtain rfl := List.prefix_nil.mp hp
    exact ⟨_,rfl,PccState.init_uniqueTags⟩

/-- One access is enough. -/
theorem not_uniqueTags_after_one :
    ¬ ∀ cfg trace, Throughout (PccState.pccTrackAccess cfg) promotionCacheInit trace
      fun _ s => s.UniqueTags := by
  intro h
  obtain ⟨s,hr,hu⟩ := h {} [4096] [4096] (List.prefix_refl _)
  obtain ⟨s',hr',hn⟩ := PccState.first_access {} 4096
  obtain rfl : s' = s := by simpa [hr'] using hr
  exact hn hu.1

end ElasticTranslations.Pcc
