import ElasticTranslations.Pcc.Shootdown

/-! `summarize_promotions`: the loop runs over a snapshot of the promotion cache and empties
the cache entry by entry while it promotes and demotes regions. -/
namespace ElasticTranslations.Pcc
namespace PccState
variable {s s' s'' : PccState}

/-- The tags of the resident lines of the promotion cache, in list order. -/
def entries (s : PccState) : List UInt64 :=
  (s.promotionCache.sets 0).linked.map fun p => ((s.promotionCache.sets 0).lines p).addr

/-- The invariant of a run that `summarize_promotions` needs: caches in order, every line of
the promotion cache found under its tag, and tags that are region numbers. -/
structure Valid (s : PccState) : Prop where
  tlbs : s.TlbsIntact
  l1Tlb2mExact : s.l1Tlb2m.Exact
  l2TlbExact : s.l2Tlb.Exact
  promotionCache : s.promotionCache.Intact
  promotionCacheExact : s.promotionCache.Exact
  tags : ∀ b ∈ s.entries, b.toNat < 2^43

lemma getEntries_spec (h : s.promotionCache.Intact) :
    s.promotionCache.getEntries = .ok s.entries := by
  have hc : promotionCacheGeometry.setCount = 1 := by decide +kernel
  rw [FunctionalCache.getEntries,FunctionalCache.getEntriesFrom_spec h,hc]
  simp [entries]

lemma mem_entries (hi : s.promotionCache.Intact) (he : s.promotionCache.Exact) {b : UInt64} :
    b ∈ s.entries ↔ s.promotionCache.resident (0,b) := by
  simp only [entries,List.mem_map]
  constructor
  · rintro ⟨p,hp,rfl⟩
    exact Option.isSome_iff_exists.mpr ⟨p,he 0 p hp⟩
  · intro hr
    obtain ⟨p,hp⟩ := Option.isSome_iff_exists.mp hr
    exact ⟨p,(hi 0).indexed b p hp⟩

namespace Valid

/-- Every entry occurs once in the snapshot. -/
lemma entries_nodup (h : s.Valid) : s.entries.Nodup := by
  refine List.Nodup.map_on ?_ (h.promotionCache 0).order_nodup
  intro p hp q hq he
  exact (h.promotionCacheExact 0).addr_injective hp hq he

/-- There are no more entries than lines, so their indices stay below the page count. -/
lemma entries_length (h : s.Valid) : 0 + s.entries.length ≤ 512 := by
  have hc := (h.promotionCache 0).count
  have ha : promotionCacheGeometry.associativity = 128 := by decide +kernel
  rw [entries,List.length_map]
  omega

/-- The lookup of an entry by its re-encoded address. -/
lemma lookup_entry (h : s.Valid) {b : UInt64} (hb : b ∈ s.entries) :
    ∃ p, s.promotionCache.lookup (promotionCacheGeometry.key (b*pageSize) false) = some p := by
  rw [promotionCache_key (h.tags b hb)]
  exact Option.isSome_iff_exists.mp
    ((mem_entries h.promotionCache h.promotionCacheExact).mp hb)

lemma getFreq_entry (h : s.Valid) {b : UInt64} (hb : b ∈ s.entries) :
    ∃ n, s.promotionCache.getFreq (b*pageSize) = .ok n := by
  obtain ⟨p,hp⟩ := h.lookup_entry hb
  exact ⟨_,FunctionalCache.getFreq_spec h.promotionCache hp⟩

end Valid

/-- What processing the entries `as` does. -/
structure Summarized (s : PccState) (as : List UInt64) (s' : PccState) : Prop where
  l1Tlb4k : s.l1Tlb4k.Shrunk s'.l1Tlb4k
  l1Tlb2m : s.l1Tlb2m.Shrunk s'.l1Tlb2m
  l2Tlb : s.l2Tlb.Shrunk s'.l2Tlb
  valid : s'.Valid
  entries : ∀ b, b ∈ s'.entries ↔ b ∈ s.entries ∧ b ∉ as
  freq : ∀ b ∈ s'.entries,
    s'.promotionCache.getFreq (b*pageSize) = s.promotionCache.getFreq (b*pageSize)
  offsets : ∀ p, ((s'.promotionCache.sets 0).lines p).offset =
    ((s.promotionCache.sets 0).lines p).offset
  toggled : ∀ b ∈ as, ∃ n, s.promotionCache.getFreq (b*pageSize) = .ok n ∧
    s'.pccPromotions b = if !s.promoted b && 0 < n then some 0 else none
  untouched : ∀ b ∉ as, s'.pccPromotions b = s.pccPromotions b
  reuseMap : ∀ b ∉ as, s'.reuseMap b = s.reuseMap b
  noBasePages : ∀ b ∈ as, s.promoted b = false → s'.promoted b = true → s'.NoBasePages b
  noHugePage : ∀ b ∈ as, s.promoted b = true → s'.NoHugePage b
  totalNumAccesses : s'.totalNumAccesses = s.totalNumAccesses
  evictedAddr : s'.l14k.evictedAddr = s.l14k.evictedAddr

lemma Summarized.refl (h : s.Valid) : s.Summarized [] s :=
  ⟨.refl h.tlbs.l1Tlb4k,.refl h.tlbs.l1Tlb2m,.refl h.tlbs.l2Tlb,h,by simp,fun _ _ => rfl,
    fun _ => rfl,by simp,fun _ _ => rfl,fun _ _ => rfl,by simp,by simp,rfl,rfl⟩

lemma Summarized.noBasePages_mono (h : s.Summarized as s') {b : UInt64} (hb : s.NoBasePages b) :
    s'.NoBasePages b :=
  fun v hv => ⟨h.l1Tlb4k.hits (hb v hv).1,h.l2Tlb.hits (hb v hv).2⟩

lemma Summarized.noHugePage_mono (h : s.Summarized as s') {b : UInt64} (hb : s.NoHugePage b) :
    s'.NoHugePage b :=
  fun v hv => ⟨h.l1Tlb2m.hits (hb v hv).1,h.l2Tlb.hits (hb v hv).2⟩

lemma Summarized.demoted (h : s.Summarized as s') {b : UInt64} (hb : b ∈ as)
    (hp : s.promoted b = true) : s'.promoted b = false := by
  obtain ⟨n,-,ht⟩ := h.toggled b hb
  simp [promoted,ht,show (s.pccPromotions b).isSome = true from hp]

lemma Summarized.promoted_of_notMem (h : s.Summarized as s') {b : UInt64} (hb : b ∉ as) :
    s'.promoted b = s.promoted b := by
  rw [promoted,h.untouched b hb]; rfl

/-- Entries are processed one after the other and each once. -/
lemma Summarized.cons {b : UInt64} {as : List UInt64} (hb : b ∉ as) (hs : b ∈ s.entries)
    (has : ∀ a ∈ as, a ∈ s'.entries) (h : s.Summarized [b] s') (h' : s'.Summarized as s'') :
    s.Summarized (b :: as) s'' where
  l1Tlb4k := h.l1Tlb4k.trans h'.l1Tlb4k
  l1Tlb2m := h.l1Tlb2m.trans h'.l1Tlb2m
  l2Tlb := h.l2Tlb.trans h'.l2Tlb
  valid := h'.valid
  entries a := by
    rw [h'.entries,h.entries,List.mem_singleton,List.mem_cons]
    tauto
  freq a ha := by
    rw [h'.freq a ha,h.freq a ((h'.entries a).mp ha).1]
  offsets p := (h'.offsets p).trans (h.offsets p)
  toggled a ha := by
    rcases List.mem_cons.mp ha with rfl | ha
    · obtain ⟨n,hn,hp⟩ := h.toggled a (by simp)
      exact ⟨n,hn,(h'.untouched a hb).trans hp⟩
    · have hab : a ≠ b := fun hab => hb (hab ▸ ha)
      obtain ⟨n,hn,hp⟩ := h'.toggled a ha
      refine ⟨n,(h.freq a (has a ha)).symm.trans hn,?_⟩
      rwa [promoted,h.untouched a (by simpa using hab)] at hp
  untouched a ha := by
    simp only [List.mem_cons,not_or] at ha
    rw [h'.untouched a ha.2,h.untouched a (by simpa using ha.1)]
  reuseMap a ha := by
    simp only [List.mem_cons,not_or] at ha
    rw [h'.reuseMap a ha.2,h.reuseMap a (by simpa using ha.1)]
  noBasePages a ha hp hp' := by
    rcases List.mem_cons.mp ha with rfl | ha
    · have hpa : s'.promoted a = true := by rwa [promoted,h'.untouched a hb] at hp'
      exact h'.noBasePages_mono (h.noBasePages a (by simp) hp hpa)
    · have hab : a ≠ b := fun hab => hb (hab ▸ ha)
      refine h'.noBasePages a ha ?_ hp'
      rwa [promoted,h.untouched a (by simpa using hab)]
  noHugePage a ha hp := by
    rcases List.mem_cons.mp ha with rfl | ha
    · exact h'.noHugePage_mono (h.noHugePage a (by simp) hp)
    · have hab : a ≠ b := fun hab => hb (hab ▸ ha)
      apply h'.noHugePage a ha
      rwa [promoted,h.untouched a (by simpa using hab)]
  totalNumAccesses := h'.totalNumAccesses.trans h.totalNumAccesses
  evictedAddr := h'.evictedAddr.trans h.evictedAddr

/-- The reuse table gets a record for the entry before anything else. -/
lemma touchReuse_eq (s : PccState) (b : UInt64) :
    s.touchReuse b =
      { s with reuseMap := Function.update s.reuseMap b (some ((s.reuseMap b).getD {})) } := by
  cases hr : s.reuseMap b with
  | none => simp [touchReuse,hr]
  | some r =>
    have hu : Function.update s.reuseMap b (some r) = s.reuseMap := by
      rw [← hr,Function.update_eq_self]
    simp [touchReuse,hr,hu]

lemma toggle_spec (h : s.TlbsIntact) {b : UInt64} (hb : b.toNat < 2^43) {i : ℕ} (hi : i < 512)
    (n : ℕ) :
    ∃ s' reuseMap, s.toggle i b n = .ok s' ∧
      ShotDown { s with
        pccPromotions := Function.update s.pccPromotions b
          (if !s.promoted b && 0 < n then some 0 else none)
        reuseMap := reuseMap } s' ∧
      (∀ a ≠ b, reuseMap a = s.reuseMap a) ∧
      (s.promoted b = false → 0 < n → s'.NoBasePages b) ∧
      (s.promoted b = true → s'.NoHugePage b) := by
  cases hp : s.promoted b with
  | true =>
    obtain ⟨s',hr,hs,hm⟩ := demote_spec h hb hi
    exact ⟨s',s.reuseMap,by simp [toggle,hp,hr],by simpa using hs,by simp,by simp,fun _ => hm⟩
  | false =>
    rcases Nat.eq_zero_or_pos n with rfl | hn
    · have hu : Function.update s.pccPromotions b none = s.pccPromotions := by
        rw [← Option.not_isSome_iff_eq_none.mp (Bool.not_eq_true _ ▸ hp),Function.update_eq_self]
      exact ⟨s,s.reuseMap,by simp [toggle,hp],by simpa [hu] using ShotDown.refl h,by simp,by simp,
        by simp⟩
    · obtain ⟨s',hr,hs,hm⟩ := promote_spec h b
      refine ⟨s',Function.update s.reuseMap b none,by simp [toggle,hp,hn,hr],?_,?_,fun _ _ => hm,
        by simp⟩
      · simpa [hn] using hs
      · intro a ha
        simp [ha]

/-- The eviction of an entry from the promotion cache. -/
lemma evictEntry_spec (h : s.Valid) {b : UInt64} (hb : b ∈ s.entries) :
    ∃ dirty c, s.promotionCache.evict (b*pageSize) = .ok (dirty,c) ∧ c.Intact ∧ c.Exact ∧
      (∀ u, c.lookup (0,u) = if u = b then none else s.promotionCache.lookup (0,u)) ∧
      ∀ p, ((c.sets 0).lines p).data = ((s.promotionCache.sets 0).lines p).data := by
  obtain ⟨p,hp⟩ := h.lookup_entry hb
  obtain ⟨dirty,c,hr,hrem⟩ := FunctionalCache.evict_spec h.promotionCache hp
  have hk := promotionCache_key (h.tags b hb) false
  refine ⟨dirty,c,hr,hrem.intact h.promotionCache,
    hrem.exact h.promotionCache hp h.promotionCacheExact,fun u => ?_,fun q => ?_⟩
  · rw [hrem.lookup,hk]
    simp
  · have hd := hrem.evicted.data q
    rw [hk] at hd
    exact hd

/-- Lines that are found as before are reported with the same frequency. -/
lemma getFreq_congr (h : s.Valid) {c : FunctionalCache promotionCacheGeometry} (hc : c.Intact)
    {b : UInt64} (hb : b ∈ s.entries) (hl : c.lookup (0,b) = s.promotionCache.lookup (0,b))
    (hd : ∀ p, ((c.sets 0).lines p).data = ((s.promotionCache.sets 0).lines p).data) :
    c.getFreq (b*pageSize) = s.promotionCache.getFreq (b*pageSize) := by
  have hk := promotionCache_key (h.tags b hb) false
  obtain ⟨p,hp⟩ := h.lookup_entry hb
  have hp' : c.lookup (promotionCacheGeometry.key (b*pageSize) false) = some p := by
    rw [hk] at hp ⊢
    exact hl.trans hp
  rw [FunctionalCache.getFreq_spec h.promotionCache hp,FunctionalCache.getFreq_spec hc hp',hk]
  exact congrArg (fun d => Except.ok d.freq) (hd p)

/-- One round of the loop. -/
theorem summarizeEntry_spec (h : s.Valid) {b : UInt64} (hb : b ∈ s.entries) {i : ℕ}
    (hi : i < 512) : ∃ s', s.summarizeEntry i b = .ok s' ∧ s.Summarized [b] s' := by
  obtain ⟨n,hn⟩ := h.getFreq_entry hb
  obtain ⟨s₁,reuse,hr₁,hs₁,hreuse,hbase,hhuge⟩ := toggle_spec (s := { s with
    reuseMap := Function.update s.reuseMap b (some ((s.reuseMap b).getD {})) })
    ⟨h.tlbs.l1Tlb4k,h.tlbs.l1Tlb2m,h.tlbs.l2Tlb⟩ (h.tags b hb) hi n
  obtain ⟨dirty,c,hr₂,hci,hce,hlook,hdata⟩ := evictEntry_spec h hb
  have hpc : s₁.promotionCache = s.promotionCache := hs₁.promotionCache
  have hmem : ∀ u, u ∈ PccState.entries { s₁ with
      promotionCache := c, l12m := { s₁.l12m with dirtyEvict := dirty } } ↔
        u ∈ s.entries ∧ u ∉ [b] := by
    intro u
    rw [mem_entries hci hce,mem_entries h.promotionCache h.promotionCacheExact,List.mem_singleton]
    simp only [FunctionalCache.resident,hlook]
    split_ifs with hu <;> simp [hu]
  have hpromo : ∀ u, s₁.pccPromotions u =
      if u = b then if !s.promoted b && 0 < n then some 0 else none else s.pccPromotions u := by
    intro u
    rw [hs₁.pccPromotions]
    simp only [Function.update_apply]
    rfl
  refine ⟨{ s₁ with promotionCache := c, l12m := { s₁.l12m with dirtyEvict := dirty } },?_,?_⟩
  · simp only [summarizeEntry,touchReuse_eq,hn,ok_bind,hr₁,hpc,hr₂,pure_ok]
  · exact {
      l1Tlb4k := hs₁.l1Tlb4k
      l1Tlb2m := hs₁.l1Tlb2m
      l2Tlb := hs₁.l2Tlb
      valid := ⟨⟨hs₁.l1Tlb4k.intact,hs₁.l1Tlb2m.intact,hs₁.l2Tlb.intact⟩,
        hs₁.l1Tlb2m.exact h.l1Tlb2mExact,hs₁.l2Tlb.exact h.l2TlbExact,hci,hce,
        fun u hu => h.tags u ((hmem u).mp hu).1⟩
      entries := hmem
      freq := fun u hu => by
        obtain ⟨hus,hub⟩ := (hmem u).mp hu
        exact getFreq_congr h hci hus (by rw [hlook,if_neg (by simpa using hub)]) hdata
      offsets := fun p => congrArg LineData.offset (hdata p)
      toggled := fun u hu => by
        obtain rfl : u = b := by simpa using hu
        exact ⟨n,hn,by rw [hpromo,if_pos rfl]⟩
      untouched := fun u hu => by rw [hpromo,if_neg (by simpa using hu)]
      reuseMap := fun u hu => by
        have hub : u ≠ b := by simpa using hu
        rw [hs₁.reuseMap]
        simpa [hub] using hreuse u hub
      noBasePages := fun u hu hp hp' => by
        obtain rfl : u = b := by simpa using hu
        have hn0 : 0 < n := by
          by_contra hn0
          simp [promoted,hpromo,hn0] at hp'
        exact hbase hp hn0
      noHugePage := fun u hu hp => by
        obtain rfl : u = b := by simpa using hu
        exact hhuge hp
      totalNumAccesses := hs₁.totalNumAccesses
      evictedAddr := hs₁.evictedAddr }

/-- The loop over a snapshot: what is left of it is still in the promotion cache. -/
theorem summarizeLoop_spec (as : List UInt64) (i : ℕ) (h : s.Valid) (hnd : as.Nodup)
    (has : ∀ b ∈ as, b ∈ s.entries) (hi : i + as.length ≤ 512) :
    ∃ s', summarizeLoop i as s = .ok s' ∧ s.Summarized as s' := by
  induction as generalizing i s with
  | nil => exact ⟨s,rfl,.refl h⟩
  | cons b as ih =>
    obtain ⟨hb,hnd⟩ := List.nodup_cons.mp hnd
    rw [List.length_cons] at hi
    obtain ⟨s₁,hr₁,hs₁⟩ := summarizeEntry_spec h (has b (by simp)) (i := i) (by omega)
    have has₁ : ∀ a ∈ as, a ∈ s₁.entries := by
      intro a ha
      have hab : a ≠ b := fun hab => hb (hab ▸ ha)
      exact (hs₁.entries a).mpr ⟨has a (by simp [ha]),by simpa using hab⟩
    obtain ⟨s',hr,hs⟩ := ih (i+1) hs₁.valid hnd has₁ (by omega)
    exact ⟨s',by simp only [summarizeLoop,hr₁,ok_bind,hr],hs₁.cons hb (has b (by simp)) has₁ hs⟩

/-- The counter step, with the summary if one is due. -/
def Counted (s s' : PccState) : Prop :=
  ∃ as, (as = [] ∨ as = s.entries) ∧
    Summarized { s with totalNumAccesses := s.totalNumAccesses+1 } as s'

/-- The invariant does not read the access counter. -/
lemma Valid.withCount (h : s.Valid) (n : UInt64) : Valid { s with totalNumAccesses := n } := by
  obtain ⟨⟨h4,h2,hl⟩,h2e,hle,hp,hpe,ht⟩ := h
  exact ⟨⟨h4,h2,hl⟩,h2e,hle,hp,hpe,ht⟩

/-- The snapshot is emptied completely. -/
theorem summarizePromotions_spec (h : s.Valid) :
    ∃ s', s.summarizePromotions = .ok s' ∧ s.Summarized s.entries s' := by
  obtain ⟨s',hr,hs⟩ :=
    summarizeLoop_spec s.entries 0 h h.entries_nodup (fun _ => id) h.entries_length
  exact ⟨s',by simp only [summarizePromotions,getEntries_spec h.promotionCache,ok_bind,hr],hs⟩

theorem countAccess_spec (h : s.Valid) (cfg : Config) :
    ∃ s', s.countAccess cfg = .ok s' ∧ s.Counted s' := by
  have h' := h.withCount (s.totalNumAccesses+1)
  unfold countAccess
  dsimp only
  split
  · obtain ⟨s',hr,hs⟩ := summarizePromotions_spec h'
    exact ⟨s',hr,s.entries,Or.inr rfl,hs⟩
  · exact ⟨_,rfl,[],Or.inl rfl,.refl h'⟩

end PccState
end ElasticTranslations.Pcc
