import ElasticTranslations.Pcc.Runs

/-! How faithfully the promotion cache identifies regions. A region goes in under a tag that
depends on the page size flag, while `summarize_promotions` reads tags and encodes addresses
for 4 KiB only, so a promoted region is kept as the region of 512 times smaller number. -/
namespace ElasticTranslations.Pcc
open Structures FunctionalCache

namespace PccState
variable {s s₁ s' : PccState} {v : UInt64}

/-- The line found under the key is reported as the region, and it is the line whose frequency
is read and that is evicted under the address that `summarize_promotions` makes of it. -/
def Identified (s : PccState) (k : ℕ × UInt64) (base : UInt64) : Prop :=
  ∃ p, s.promotionCache.lookup k = some p ∧
    ((s.promotionCache.sets k.1).lines p).addr = base ∧
    (∃ as, s.promotionCache.getEntries = .ok as ∧ base ∈ as) ∧
    s.promotionCache.getFreq (base*pageSize) =
      .ok ((s.promotionCache.sets k.1).lines p).freq ∧
    ∃ dirty c, s.promotionCache.evict (base*pageSize) = .ok (dirty,c) ∧
      (c.sets k.1).linked = (s.promotionCache.sets k.1).linked.erase p

/-- The region is not promoted, or is region 0, whose tag is 0 at both page sizes. -/
def KeepsNumber (s : PccState) (v : UInt64) : Prop :=
  s.Consults v → s.promoted (region v) = false ∨ region v = 0

/-- A call identifies the region it looks up, and regions that it promotes or demotes were
accessed before. -/
def Faithful (cfg : Config) (pre : List UInt64) (s : PccState) (v : UInt64) : Prop :=
  ∃ s₁ s', s.countAccess cfg = .ok s₁ ∧ s.pccTrackAccess cfg v = .ok s' ∧
    (s₁.Consults v → s'.Identified (s₁.consultedKey v) (region v)) ∧
    ∀ b, s.promoted b ≠ s'.promoted b → ∃ w ∈ pre ++ [v], region w = b

/-- Entries and promoted regions are regions of accessed addresses. -/
structure Accessed (pre : List UInt64) (s : PccState) : Prop where
  valid : s.Valid
  entries : ∀ b ∈ s.entries, ∃ w ∈ pre, region w = b
  promoted : ∀ b, s.promoted b = true → ∃ w ∈ pre, region w = b

lemma init_accessed : Accessed [] promotionCacheInit :=
  ⟨init_valid,fun b hb => absurd ((mem_entries new_intact new_exact).mp hb) (new_not_resident _),
    fun b hb => absurd hb (by simp [PccState.promoted,promotionCacheInit])⟩

lemma Accessed.counted {pre : List UInt64} (h : Accessed pre s) (hcount : s.Counted s₁) :
    Accessed pre s₁ := by
  obtain ⟨as,has,hs⟩ := hcount
  refine ⟨hs.valid,fun b hb => h.entries b ((hs.entries b).mp hb).1,fun b hb => ?_⟩
  by_cases hm : b ∈ as
  · rcases has with rfl | rfl
    · simp at hm
    · exact h.entries b hm
  · exact h.promoted b ((hs.promoted_of_notMem hm).symm.trans hb)

lemma consultedKey_eq (s : PccState) (v : UInt64) :
    s.consultedKey v = (0,if s.promoted (region v) then region v/512 else region v) :=
  promotionCache_key (region_lt v) _

lemma KeepsNumber.key_eq (hc : s.KeepsNumber v) (h : s.Consults v) :
    s.consultedKey v = (0,region v) := by
  rw [consultedKey_eq]
  rcases hc h with hp | hp
  · simp [hp]
  · simp [hp]

/-- After the access the promotion cache has a line under the key. -/
lemma AccessStep.consulted (h : s.AccessStep v s') (hc : s.Consults v) :
    s'.promotionCache.resident (s.consultedKey v) := by
  obtain ⟨out,-,-,hlook⟩ := h.l1Tlb4k
  have hp := (hlook hc).refills
  cases hf : s.fills v with
  | true =>
    simp only [hf,if_true] at hp
    exact hp.hits_self
  | false =>
    have hh : s.promotionCache.hits (region v*pageSize) (s.promoted (region v)) = true := by
      simpa [fills,fillsEntry,hc.1,hc.2] using hf
    simp only [hf] at hp
    exact (hp.touched.1.resident _).mpr hh

lemma identified (h : s.Valid) {b : UInt64} (hb : s.promotionCache.resident (0,b)) :
    s.Identified (0,b) b := by
  have hmem := (mem_entries h.promotionCache h.promotionCacheExact).mpr hb
  obtain ⟨p,hp⟩ := h.lookup_entry hmem
  have hkey := promotionCache_key (h.tags b hmem) false
  have hp₀ : s.promotionCache.lookup (0,b) = some p := hkey ▸ hp
  have hfreq := FunctionalCache.getFreq_spec h.promotionCache hp
  obtain ⟨dirty,c,hr,hrem⟩ := FunctionalCache.evict_spec h.promotionCache hp
  have hlinked := hrem.evicted.linked
  rw [hkey] at hfreq hlinked
  exact ⟨p,hp₀,((h.promotionCache 0).indexed b p hp₀).2,
    ⟨s.entries,getEntries_spec h.promotionCache,hmem⟩,hfreq,dirty,c,hr,hlinked⟩

lemma Accessed.step {cfg : Config} {pre : List UInt64} (h : Accessed pre s)
    (hr₁ : s.countAccess cfg = .ok s₁) (hr : s.pccTrackAccess cfg v = .ok s')
    (hcount : s.Counted s₁) (hs : s₁.AccessStep v s') (hv : s'.Valid) (hc : s₁.KeepsNumber v) :
    Faithful cfg pre s v ∧ Accessed (pre ++ [v]) s' := by
  have h₁ := h.counted hcount
  have hmono : ∀ {b}, (∃ w ∈ pre, region w = b) → ∃ w ∈ pre ++ [v], region w = b := by
    rintro b ⟨w,hw,hb⟩
    exact ⟨w,List.mem_append_left _ hw,hb⟩
  have hprom : ∀ b, s'.promoted b = true → ∃ w ∈ pre ++ [v], region w = b := fun b hb =>
    hmono (h₁.promoted b ((hs.promoted b).symm.trans hb))
  refine ⟨⟨s₁,s',hr₁,hr,fun hcon => ?_,fun b hb => ?_⟩,hv,fun b hb => ?_,hprom⟩
  · have hres := hs.consulted hcon
    rw [hc.key_eq hcon] at hres ⊢
    exact identified hv hres
  · cases hp : s.promoted b with
    | true => exact hmono (h.promoted b hp)
    | false => exact hprom b (by simpa [hp] using hb)
  · rcases hs.mem_entries h₁.valid hb with hb | ⟨hf,hb⟩
    · exact hmono (h₁.entries b hb)
    · have hkey := hc.key_eq (consults_of_fills hf)
      rw [consultedKey_eq,← hb] at hkey
      exact ⟨v,by simp,(congrArg Prod.snd hkey).symm⟩

/-- A promoted region other than 0 is reported under another number. -/
lemma not_faithful {cfg : Config} {pre : List UInt64} (hr₁ : s.countAccess cfg = .ok s₁)
    (hr : s.pccTrackAccess cfg v = .ok s') (hv : s'.Valid) (hc : ¬ s₁.KeepsNumber v) :
    ¬ Faithful cfg pre s v := by
  rintro ⟨t₁,t,ht₁,ht,hid,-⟩
  obtain rfl : s₁ = t₁ := by simpa [hr₁] using ht₁
  obtain rfl : s' = t := by simpa [hr] using ht
  simp only [KeepsNumber,Classical.not_imp,not_or,Bool.not_eq_false] at hc
  obtain ⟨hcon,hp,h0⟩ := hc
  obtain ⟨p,hl,ha,-⟩ := hid hcon
  rw [consultedKey_eq,hp,if_pos rfl] at hl ha
  have htag := ((hv.promotionCache 0).indexed _ p hl).2
  have he : region v/512 = region v := htag.symm.trans ha
  have hn := congrArg UInt64.toNat he
  simp only [UInt64.toNat_div,UInt64.reduceToNat] at hn
  have : (region v).toNat = 0 := by omega
  exact h0 (UInt64.toNat_inj.mp this)

end PccState

/-- In a run the promotion cache looks the region up under the key. -/
def LooksUp (cfg : Config) (trace : List UInt64) (base : UInt64) (k : ℕ × UInt64) : Prop :=
  ∃ pre v s s₁, pre ++ [v] <+: trace ∧ runTrace cfg pre = .ok s ∧ s.countAccess cfg = .ok s₁ ∧
    s₁.Consults v ∧ region v = base ∧ s₁.consultedKey v = k

/-- Every call of a run is faithful, and different regions are never looked up under the same
key, exactly when no call looks up a promoted region other than region 0. -/
theorem faithful_iff (cfg : Config) (trace : List UInt64) :
    (EachStep (PccState.pccTrackAccess cfg) promotionCacheInit trace (PccState.Faithful cfg) ∧
      ∀ base base' k, LooksUp cfg trace base k → LooksUp cfg trace base' k → base = base') ↔
    EachStep (PccState.pccTrackAccess cfg) promotionCacheInit trace
      fun _ s v => ∀ s₁, s.countAccess cfg = .ok s₁ → s₁.KeepsNumber v := by
  have hiff : EachStep (PccState.pccTrackAccess cfg) promotionCacheInit trace
      (PccState.Faithful cfg) ↔ EachStep (PccState.pccTrackAccess cfg) promotionCacheInit trace
        fun _ s v => ∀ s₁, s.countAccess cfg = .ok s₁ → s₁.KeepsNumber v := by
    refine eachStep_iff (I := PccState.Accessed) PccState.init_accessed
      (fun pre s v h hc => ?_) fun pre s v h hc => ?_
    · obtain ⟨s₁,s',hr₁,hr,hcount,-,hs,hv⟩ := PccState.pccTrackAccess_spec h.valid cfg v
      obtain ⟨hf,ha⟩ := h.step hr₁ hr hcount hs hv (hc s₁ hr₁)
      refine ⟨hf,fun t ht => ?_⟩
      obtain rfl : s' = t := by simpa [hr] using ht
      exact ha
    · obtain ⟨s₁,s',hr₁,hr,-,-,-,hv⟩ := PccState.pccTrackAccess_spec h.valid cfg v
      refine PccState.not_faithful hr₁ hr hv fun hc₁ => hc fun t ht => ?_
      obtain rfl : s₁ = t := by simpa [hr₁] using ht
      exact hc₁
  refine ⟨fun h => hiff.mp h.1,fun h => ⟨hiff.mpr h,?_⟩⟩
  have hkey : ∀ base k, LooksUp cfg trace base k → k = (0,base) := by
    rintro _ _ ⟨pre,v,s,s₁,hp,hs,hr₁,hcon,rfl,rfl⟩
    exact (h pre v hp s hs s₁ hr₁).key_eq hcon
  intro base base' k hb hb'
  simpa using (hkey base k hb).symm.trans (hkey base' k hb')

/-- Three pages of region 51208 are accessed and the region is promoted at the fourth access;
then its 2 MiB entries are pushed out of the TLBs and it is accessed again. -/
def promotedMissTrace : List UInt64 :=
  [0,4096,8192,12288].map (51208*hugePageSize + ·) ++
    [136,264,392,520,648,776].map (·*pageSize) ++ [136,264,392,520].map (·*hugePageSize)

/-- The region of the next access is looked up as region 100. -/
theorem not_faithful_of_promoted_miss :
    ¬ ∀ cfg trace, EachStep (PccState.pccTrackAccess cfg) promotionCacheInit trace
        (PccState.Faithful cfg) ∧
      ∀ base base' k, LooksUp cfg trace base k → LooksUp cfg trace base' k → base = base' := by
  intro h
  let cfg : Config := { accessInterval := 4 }
  let v : UInt64 := 51208*hugePageSize + 16384
  obtain ⟨s,hs,hv,ht⟩ := (runTrace_valid cfg promotedMissTrace).meets
    (fun s => match s.countAccess cfg with
      | .ok s₁ => decide (s₁.Consults v) && s₁.promoted (region v)
      | .error _ => false) (by decide +kernel)
  obtain ⟨s₁,s',hr₁,hr,-,-,-,hv'⟩ := PccState.pccTrackAccess_spec hv cfg v
  simp only [hr₁,Bool.and_eq_true,decide_eq_true_eq] at ht
  have hc : ¬ s₁.KeepsNumber v := fun hk =>
    (hk ht.1).elim (fun hp => by simp [ht.2] at hp) (by decide +kernel)
  exact PccState.not_faithful hr₁ hr hv' hc
    ((h cfg (promotedMissTrace ++ [v])).1 promotedMissTrace v (List.prefix_refl _) s hs)

end ElasticTranslations.Pcc
