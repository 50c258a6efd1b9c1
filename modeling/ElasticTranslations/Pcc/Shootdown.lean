import ElasticTranslations.Pcc.Regions

/-! Shooting translations down: a cache is probed and, on a hit, the line is evicted. Caches
only lose keys on the way, and no page of a newly promoted region is left in a 4 KiB lookup. -/
namespace ElasticTranslations.Pcc

namespace FunctionalCache
variable {g : Geometry} {c c' c'' : FunctionalCache g}

/-- Lookups and evictions happened, but no insertions. -/
structure Shrunk (c c' : FunctionalCache g) : Prop where
  intact : c'.Intact
  exact : c.Exact → c'.Exact
  lookup : ∀ k p, c'.lookup k = some p → c.lookup k = some p

lemma Shrunk.refl (h : c.Intact) : c.Shrunk c := ⟨h,id,fun _ _ => id⟩

lemma Shrunk.trans (h : c.Shrunk c') (h' : c'.Shrunk c'') : c.Shrunk c'' :=
  ⟨h'.intact,fun he => h'.exact (h.exact he),fun k p hp => h.lookup k p (h'.lookup k p hp)⟩

lemma Shrunk.resident (h : c.Shrunk c') {k : ℕ × UInt64} (hk : c'.resident k) : c.resident k := by
  obtain ⟨p,hp⟩ := Option.isSome_iff_exists.mp hk
  exact Option.isSome_iff_exists.mpr ⟨p,h.lookup k p hp⟩

lemma Shrunk.hits (h : c.Shrunk c') {a : UInt64} {f : Bool} (hm : c.hits a f = false) :
    c'.hits a f = false := by
  rw [← Bool.not_eq_true,hits_iff] at hm ⊢
  exact fun hk => hm (h.resident hk)

lemma Touched.shrunk (h : c.Touched c') : c.Shrunk c' :=
  ⟨h.intact,h.exact,fun k p hp => by rwa [h.lookup] at hp⟩

lemma Removed.shrunk {p : LinePtr} {a : UInt64} {f : Bool} (hr : c.Removed c' p a f)
    (h : c.Intact) (hp : c.lookup (g.key a f) = some p) : c.Shrunk c' := by
  refine ⟨hr.intact h,hr.exact h hp,fun k q hq => ?_⟩
  rw [hr.lookup] at hq
  split_ifs at hq
  exact hq

/-- A probe, and the eviction that follows a hit. -/
theorem shoot_spec [g.Sound] (h : c.Intact) (a : UInt64) (f : Bool) :
    ∃ c₁, c.access a true f = .ok (c.hits a f,c₁) ∧ c.Shrunk c₁ ∧
      c₁.hits a f = c.hits a f ∧ (c.hits a f = true →
        ∃ dirty c₂, c₁.evict a f = .ok (dirty,c₂) ∧ c.Shrunk c₂ ∧ c₂.hits a f = false) := by
  obtain ⟨c₁,hr,ht,-⟩ := access_spec h a true f
  refine ⟨c₁,hr,ht.shrunk,ht.hits a f,fun hhit => ?_⟩
  obtain ⟨p,hp⟩ := Option.isSome_iff_exists.mp hhit
  have hp₁ : c₁.lookup (g.key a f) = some p := by rw [ht.lookup,hp]
  obtain ⟨dirty,c₂,he,hrem⟩ := evict_spec ht.intact hp₁
  exact ⟨dirty,c₂,he,ht.shrunk.trans (hrem.shrunk ht.intact hp₁),by simp [hits,hrem.lookup]⟩

end FunctionalCache

namespace PccState
variable {s s' : PccState}

/-- The TLBs lost keys, and of everything else only dirty bits changed. -/
structure ShotDown (s s' : PccState) : Prop where
  l1Tlb4k : s.l1Tlb4k.Shrunk s'.l1Tlb4k
  l1Tlb2m : s.l1Tlb2m.Shrunk s'.l1Tlb2m
  l2Tlb : s.l2Tlb.Shrunk s'.l2Tlb
  promotionCache : s'.promotionCache = s.promotionCache
  pccPromotions : s'.pccPromotions = s.pccPromotions
  reuseMap : s'.reuseMap = s.reuseMap
  totalNumAccesses : s'.totalNumAccesses = s.totalNumAccesses
  evictedAddr : s'.l14k.evictedAddr = s.l14k.evictedAddr

/-- The three TLBs are in order. -/
structure TlbsIntact (s : PccState) : Prop where
  l1Tlb4k : s.l1Tlb4k.Intact
  l1Tlb2m : s.l1Tlb2m.Intact
  l2Tlb : s.l2Tlb.Intact

lemma ShotDown.refl (h : s.TlbsIntact) : s.ShotDown s :=
  ⟨.refl h.l1Tlb4k,.refl h.l1Tlb2m,.refl h.l2Tlb,rfl,rfl,rfl,rfl,rfl⟩

lemma ShotDown.intact (h : s.ShotDown s') : s'.TlbsIntact :=
  ⟨h.l1Tlb4k.intact,h.l1Tlb2m.intact,h.l2Tlb.intact⟩

lemma ShotDown.trans {s'' : PccState} (h : s.ShotDown s') (h' : s'.ShotDown s'') :
    s.ShotDown s'' where
  l1Tlb4k := h.l1Tlb4k.trans h'.l1Tlb4k
  l1Tlb2m := h.l1Tlb2m.trans h'.l1Tlb2m
  l2Tlb := h.l2Tlb.trans h'.l2Tlb
  promotionCache := h'.promotionCache.trans h.promotionCache
  pccPromotions := h'.pccPromotions.trans h.pccPromotions
  reuseMap := h'.reuseMap.trans h.reuseMap
  totalNumAccesses := h'.totalNumAccesses.trans h.totalNumAccesses
  evictedAddr := h'.evictedAddr.trans h.evictedAddr

lemma shootL14k_spec (h : s.TlbsIntact) (a : UInt64) :
    ∃ s', s.shootL14k a = .ok s' ∧ s.ShotDown s' ∧ s'.l1Tlb4k.hits a = false := by
  obtain ⟨c₁,hr,hs,hh,he⟩ := FunctionalCache.shoot_spec h.l1Tlb4k a false
  cases hhit : s.l1Tlb4k.hits a with
  | false =>
    refine ⟨{ s with l1Tlb4k := c₁ },by simp [shootL14k,hr,hhit],?_,hh.trans hhit⟩
    exact ⟨hs,.refl h.l1Tlb2m,.refl h.l2Tlb,rfl,rfl,rfl,rfl,rfl⟩
  | true =>
    obtain ⟨dirty,c₂,hr₂,hs₂,hm⟩ := he hhit
    refine ⟨{ s with l1Tlb4k := c₂, l14k := { s.l14k with dirtyEvict := dirty } },
      by simp [shootL14k,hr,hhit,hr₂],?_,hm⟩
    exact ⟨hs₂,.refl h.l1Tlb2m,.refl h.l2Tlb,rfl,rfl,rfl,rfl,rfl⟩

lemma shootL12m_spec (h : s.TlbsIntact) (a : UInt64) :
    ∃ s', s.shootL12m a = .ok s' ∧ s.ShotDown s' ∧ s'.l1Tlb2m.hits a true = false := by
  obtain ⟨c₁,hr,hs,hh,he⟩ := FunctionalCache.shoot_spec h.l1Tlb2m a true
  cases hhit : s.l1Tlb2m.hits a true with
  | false =>
    refine ⟨{ s with l1Tlb2m := c₁ },by simp [shootL12m,hr,hhit],?_,hh.trans hhit⟩
    exact ⟨.refl h.l1Tlb4k,hs,.refl h.l2Tlb,rfl,rfl,rfl,rfl,rfl⟩
  | true =>
    obtain ⟨dirty,c₂,hr₂,hs₂,hm⟩ := he hhit
    refine ⟨{ s with l1Tlb2m := c₂, l12m := { s.l12m with dirtyEvict := dirty } },
      by simp [shootL12m,hr,hhit,hr₂],?_,hm⟩
    exact ⟨.refl h.l1Tlb4k,hs₂,.refl h.l2Tlb,rfl,rfl,rfl,rfl,rfl⟩

lemma shootL2_spec (h : s.TlbsIntact) (a : UInt64) (f : Bool) :
    ∃ s', s.shootL2 a f = .ok s' ∧ s.ShotDown s' ∧ s'.l2Tlb.hits a f = false := by
  obtain ⟨c₁,hr,hs,hh,he⟩ := FunctionalCache.shoot_spec h.l2Tlb a f
  cases hhit : s.l2Tlb.hits a f with
  | false =>
    refine ⟨{ s with l2Tlb := c₁ },by simp [shootL2,hr,hhit],?_,hh.trans hhit⟩
    exact ⟨.refl h.l1Tlb4k,.refl h.l1Tlb2m,hs,rfl,rfl,rfl,rfl,rfl⟩
  | true =>
    obtain ⟨dirty,c₂,hr₂,hs₂,hm⟩ := he hhit
    refine ⟨{ s with l2Tlb := c₂, l2 := { s.l2 with dirtyEvict := dirty } },
      by simp [shootL2,hr,hhit,hr₂],?_,hm⟩
    exact ⟨.refl h.l1Tlb4k,.refl h.l1Tlb2m,hs₂,rfl,rfl,rfl,rfl,rfl⟩

lemma shootPage_spec (h : s.TlbsIntact) (base : UInt64) (i : ℕ) :
    ∃ s', shootPage base s i = .ok s' ∧ s.ShotDown s' ∧
      s'.l1Tlb4k.hits (pageAddress base i) = false ∧
      s'.l2Tlb.hits (pageAddress base i) = false := by
  obtain ⟨s₁,hr₁,hs₁,h4⟩ := shootL14k_spec h (pageAddress base i)
  obtain ⟨s₂,hr₂,hs₂,h2⟩ := shootL2_spec hs₁.intact (pageAddress base i) false
  refine ⟨s₂,?_,hs₁.trans hs₂,hs₂.l1Tlb4k.hits h4,h2⟩
  simp only [shootPage,hr₁,ok_bind,hr₂]

/-- The loop over the base pages: earlier pages stay absent. -/
lemma shootPages_spec (h : s.TlbsIntact) (base : UInt64) (pages : List ℕ) :
    ∃ s', pages.foldlM (shootPage base) s = .ok s' ∧ s.ShotDown s' ∧
      ∀ i ∈ pages, s'.l1Tlb4k.hits (pageAddress base i) = false ∧
        s'.l2Tlb.hits (pageAddress base i) = false := by
  induction pages generalizing s with
  | nil => exact ⟨s,rfl,.refl h,by simp⟩
  | cons i pages ih =>
    obtain ⟨s₁,hr₁,hs₁,h4,h2⟩ := shootPage_spec h base i
    obtain ⟨s',hr,hs,hpages⟩ := ih hs₁.intact
    refine ⟨s',by simp [List.foldlM_cons,hr₁,hr],hs₁.trans hs,?_⟩
    intro j hj
    rcases List.mem_cons.mp hj with rfl | hj
    · exact ⟨hs.l1Tlb4k.hits h4,hs.l2Tlb.hits h2⟩
    · exact hpages j hj

/-- No address of the region is found by a 4 KiB lookup. -/
def NoBasePages (s : PccState) (base : UInt64) : Prop :=
  ∀ v, region v = base → s.l1Tlb4k.hits v = false ∧ s.l2Tlb.hits v = false

/-- No address of the region is found by a 2 MiB lookup. -/
def NoHugePage (s : PccState) (base : UInt64) : Prop :=
  ∀ v, region v = base → s.l1Tlb2m.hits v true = false ∧ s.l2Tlb.hits v true = false

theorem promote_spec (h : s.TlbsIntact) (base : UInt64) :
    ∃ s', s.promote base = .ok s' ∧
      ShotDown { s with
        pccPromotions := Function.update s.pccPromotions base (some 0)
        reuseMap := Function.update s.reuseMap base none } s' ∧ s'.NoBasePages base := by
  obtain ⟨s',hr,hs,hpages⟩ := shootPages_spec (s := { s with
    pccPromotions := Function.update s.pccPromotions base (some 0)
    reuseMap := Function.update s.reuseMap base none }) ⟨h.l1Tlb4k,h.l1Tlb2m,h.l2Tlb⟩ base
    (List.range (hugePageSize/pageSize).toNat)
  refine ⟨s',hr,hs,fun v hv => ?_⟩
  obtain ⟨i,hi,hp⟩ := exists_page v
  rw [hv] at hp
  have hmem : i ∈ List.range (hugePageSize/pageSize).toNat := by
    rw [show (hugePageSize/pageSize).toNat = 512 by decide +kernel]
    exact List.mem_range.mpr hi
  have hk4 := (l1Tlb4kGeometry.key_eq_iff v (pageAddress base i) false false).mpr
    (by rw [l1Tlb4k_page,l1Tlb4k_page,hp])
  have hk2 := (l2TlbGeometry.key_eq_iff v (pageAddress base i) false false).mpr
    (by rw [l2Tlb_page,l2Tlb_page,hp])
  have hh := hpages i hmem
  simp only [FunctionalCache.hits] at hh ⊢
  rw [hk4,hk2]
  exact hh

/-- The index of an entry is below 512, so the address shot down is in its region. -/
theorem demote_spec (h : s.TlbsIntact) {base : UInt64} (hb : base.toNat < 2^43) {i : ℕ}
    (hi : i < 512) :
    ∃ s', s.demote i base = .ok s' ∧
      ShotDown { s with pccPromotions := Function.update s.pccPromotions base none } s' ∧
      s'.NoHugePage base := by
  obtain ⟨s₁,hr₁,hs₁,hm₁⟩ := shootL12m_spec (s := { s with
    pccPromotions := Function.update s.pccPromotions base none })
    ⟨h.l1Tlb4k,h.l1Tlb2m,h.l2Tlb⟩ (pageAddress base i)
  obtain ⟨s₂,hr₂,hs₂,hm₂⟩ := shootL2_spec hs₁.intact (pageAddress base i) true
  refine ⟨s₂,?_,hs₁.trans hs₂,fun v hv => ?_⟩
  · simp only [demote,hr₁,ok_bind,hr₂]
  · have hreg : (region v).toNat = (region (pageAddress base i)).toNat := by
      rw [hv,region_pageAddress hb hi]
    have hk1 := (l1Tlb2mGeometry.key_eq_iff v (pageAddress base i) true true).mpr
      (by rw [huge_page,huge_page,hreg])
    have hk2 := (l2TlbGeometry.key_eq_iff v (pageAddress base i) true true).mpr
      (by rw [huge_page,huge_page,hreg])
    have hm := hs₂.l1Tlb2m.hits hm₁
    simp only [FunctionalCache.hits] at hm hm₂ ⊢
    rw [hk1,hk2]
    exact ⟨hm,hm₂⟩

end PccState
end ElasticTranslations.Pcc
