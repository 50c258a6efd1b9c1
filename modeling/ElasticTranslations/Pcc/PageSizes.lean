import ElasticTranslations.Pcc.Runs

/-! Page sizes in the unified L2 TLB. Set index and tag depend on the page number alone, so a
4 KiB page and the 2 MiB page of the same number answer for each other. A run with its history
alongside keeps for every key the translation that was inserted under it last. -/
namespace ElasticTranslations.Pcc
open Structures FunctionalCache

/-- A page at one of the two sizes: page `v>>12` or page `v>>21`. -/
structure Translation where
  page : ℕ
  is2M : Bool
  deriving DecidableEq

def translation (v : UInt64) (is2M : Bool) : Translation :=
  ⟨if is2M then v.toNat/2^21 else v.toNat/2^12,is2M⟩

/-- The translation inserted under a key and not evicted since. -/
abbrev History := ℕ × UInt64 → Option Translation

/-- The history after an access, from the state `s₁` after the summary and the last state: a
full miss inserts the page of the address, at 2 MiB if its region is promoted, and keys that
have left the TLB are forgotten. -/
def nextHistory (s₁ s' : PccState) (owner : History) (v : UInt64) : History := fun k =>
  if s₁.outcome v = .miss ∧ k = l2TlbGeometry.key v (s₁.promoted (region v)) then
    some (translation v (s₁.promoted (region v)))
  else if (s'.l2Tlb.lookup k).isSome then owner k
  else none

def trackHistory (cfg : Config) (x : PccState × History) (v : UInt64) :
    Except Fault (PccState × History) := do
  let s₁ ← x.1.countAccess cfg
  let s' ← x.1.pccTrackAccess cfg v
  return (s',nextHistory s₁ s' x.2 v)

def historyInit : PccState × History := (promotionCacheInit,fun _ => none)

/-- A lookup only returns true for the translation that was inserted, at the same size, and an
eviction removes nothing else. -/
structure PageSound (x : PccState × History) : Prop where
  hits : ∀ v is2M, x.1.l2Tlb.hits v is2M = true →
    x.2 (l2TlbGeometry.key v is2M) = some (translation v is2M)
  evict : ∀ v is2M, x.1.l2Tlb.hits v is2M = true → ∃ dirty c,
    x.1.l2Tlb.evict v is2M = .ok (dirty,c) ∧
      ∀ k, x.1.l2Tlb.resident k → ¬ c.resident k → x.2 k = some (translation v is2M)

/-- The refills that do no harm: a base page whose number is no 2 MiB page number. -/
def RefillsUnaliased (s : PccState) (v : UInt64) : Prop :=
  s.outcome v = .miss → s.promoted (region v) = false ∧ 2^55 ≤ v.toNat

/-- Every resident key belongs to a base page beyond the 2 MiB page numbers. -/
structure Unaliased (x : PccState × History) : Prop where
  valid : x.1.Valid
  owner : ∀ k, x.1.l2Tlb.resident k →
    ∃ u : UInt64, 2^55 ≤ u.toNat ∧ k = l2TlbGeometry.key u false ∧
      x.2 k = some (translation u false)

lemma l2Tlb_key_eq_iff (v w : UInt64) (f f' : Bool) :
    l2TlbGeometry.key v f = l2TlbGeometry.key w f' ↔
      (translation v f).page = (translation w f').page := by
  have hpage : ∀ (v : UInt64) f, l2TlbGeometry.pageNumber v f = (translation v f).page := by
    intro v f
    cases f
    · exact l2Tlb_page v
    · rw [huge_page,region_toNat]; rfl
  rw [l2TlbGeometry.key_eq_iff,hpage,hpage]

lemma unaliased_init : Unaliased historyInit :=
  ⟨PccState.init_valid,fun k hk => absurd hk (new_not_resident k)⟩

/-- A hit is then a hit of the inserted base page. -/
lemma Unaliased.pageSound {x : PccState × History} (h : Unaliased x) : PageSound x := by
  have hits : ∀ v is2M, x.1.l2Tlb.hits v is2M = true →
      x.2 (l2TlbGeometry.key v is2M) = some (translation v is2M) := by
    intro v f hv
    obtain ⟨u,hu,hk,ho⟩ := h.owner _ hv
    rw [l2Tlb_key_eq_iff] at hk
    have hlt := v.toNat_lt
    cases f with
    | false => rw [ho,Option.some.injEq,translation,Translation.mk.injEq]; exact ⟨hk.symm,rfl⟩
    | true =>
      simp only [translation,if_true,Bool.false_eq_true,if_false] at hk
      omega
  refine ⟨hits,fun v f hv => ?_⟩
  obtain ⟨p,hp⟩ := Option.isSome_iff_exists.mp hv
  obtain ⟨dirty,c,hr,hrem⟩ := evict_spec h.valid.tlbs.l2Tlb hp
  refine ⟨dirty,c,hr,fun k hk hn => ?_⟩
  have hkey : k = l2TlbGeometry.key v f := by
    by_contra hkey
    exact hn ((hrem.resident k).mpr ⟨hk,hkey⟩)
  rw [hkey]
  exact hits v f hv

lemma trackHistory_spec {x : PccState × History} (h : x.1.Valid) (cfg : Config) (v : UInt64) :
    ∃ s₁ s', x.1.countAccess cfg = .ok s₁ ∧ x.1.Counted s₁ ∧ s₁.AccessStep v s' ∧ s'.Valid ∧
      x.1.pccTrackAccess cfg v = .ok s' ∧
      trackHistory cfg x v = .ok (s',nextHistory s₁ s' x.2 v) := by
  obtain ⟨s₁,s',hr₁,hr',hcount,-,hs',hv⟩ := PccState.pccTrackAccess_spec h cfg v
  exact ⟨s₁,s',hr₁,hcount,hs',hv,hr',by simp only [trackHistory,hr₁,hr',ok_bind,pure_ok]⟩

lemma Unaliased.step {x : PccState × History} {s₁ s' : PccState} {v : UInt64} (h : Unaliased x)
    (hcount : x.1.Counted s₁) (hs : s₁.AccessStep v s') (hv : s'.Valid)
    (hc : RefillsUnaliased s₁ v) : Unaliased (s',nextHistory s₁ s' x.2 v) := by
  obtain ⟨as,-,hsum⟩ := hcount
  refine ⟨hv,fun k hk => ?_⟩
  by_cases hins : s₁.outcome v = .miss ∧ k = l2TlbGeometry.key v (s₁.promoted (region v))
  · obtain ⟨hp,hlt⟩ := hc hins.1
    refine ⟨v,hlt,by rw [hins.2,hp],?_⟩
    simp only [nextHistory]
    rw [if_pos hins,hp]
  · have hk₁ : s₁.l2Tlb.resident k := by
      have h2 := hs.l2Tlb
      by_cases ho : s₁.outcome v = .miss
      · exact (h2.resident_subset hk).resolve_left fun he => hins ⟨ho,he⟩
      · have hn : s₁.refillsL2 v = 0 := by
          cases ho' : s₁.outcome v <;> simp_all [PccState.refillsL2]
        rw [hn] at h2
        exact (h2.touched.1.resident k).mp hk
    obtain ⟨u,hu,hku,ho⟩ := h.owner k (hsum.l2Tlb.resident hk₁)
    refine ⟨u,hu,hku,?_⟩
    have hk' : (s'.l2Tlb.lookup k).isSome = true := hk
    simp only [nextHistory]
    rw [if_neg hins,if_pos hk',ho]

/-- Any other refill answers a lookup of the other page size at once. -/
lemma PccState.AccessStep.not_pageSound {s₁ s' : PccState} {v : UInt64} {owner : History}
    (hs : s₁.AccessStep v s') (hc : ¬ RefillsUnaliased s₁ v) :
    ¬ PageSound (s',nextHistory s₁ s' owner v) := by
  intro hsound
  simp only [RefillsUnaliased,Classical.not_imp] at hc
  obtain ⟨ho,hc⟩ := hc
  have hlt := v.toNat_lt
  have hself : s'.l2Tlb.hits v (s₁.promoted (region v)) = true := by
    have h2 := hs.l2Tlb
    simp only [refillsL2,ho] at h2
    exact h2.hits_self
  -- an address whose page of the other size has the same number
  have hother : ∃ w f, f ≠ s₁.promoted (region v) ∧
      (translation w f).page = (translation v (s₁.promoted (region v))).page := by
    cases hp : s₁.promoted (region v) with
    | true =>
      refine ⟨UInt64.ofNat (v.toNat/2^21*2^12),false,by simp,?_⟩
      simp only [translation,UInt64.toNat_ofNat',if_true,Bool.false_eq_true,if_false]
      omega
    | false =>
      have hv : ¬ 2^55 ≤ v.toNat := fun hv => hc ⟨hp,hv⟩
      refine ⟨UInt64.ofNat (v.toNat/2^12*2^21),true,by simp,?_⟩
      simp only [translation,UInt64.toNat_ofNat',if_true,Bool.false_eq_true,if_false]
      omega
  obtain ⟨w,f,hf,hpage⟩ := hother
  have hk := (l2Tlb_key_eq_iff w v f (s₁.promoted (region v))).mpr hpage
  have hw := hsound.hits w f (by rw [FunctionalCache.hits,hk]; exact hself)
  simp only [nextHistory,hk,ho,true_and,if_true,Option.some.injEq] at hw
  exact hf (congrArg Translation.is2M hw).symm

/-- The history is carried along the run of the simulator. -/
lemma trackHistory_run (cfg : Config) (trace : List UInt64) :
    Throughout (trackHistory cfg) historyInit trace
      fun pre x => x.1.Valid ∧ runTrace cfg pre = .ok x.1 := by
  refine .of_invariant ⟨PccState.init_valid,rfl⟩ (fun pre x v h => ?_) trace
  obtain ⟨s₁,s',-,-,-,hv,hr,hr'⟩ := trackHistory_spec h.1 cfg v
  exact ⟨_,hr',hv,(foldlM_snoc_ok h.2 v).trans hr⟩

/-- Lookups and evictions in the L2 TLB respect the page size throughout a run exactly when
every access that misses all lookups is to a region that is not promoted and to an address
of at least 2^55. -/
theorem pageSound_iff (cfg : Config) (trace : List UInt64) :
    Throughout (trackHistory cfg) historyInit trace
        (fun pre x => runTrace cfg pre = .ok x.1) ∧
      (Throughout (trackHistory cfg) historyInit trace (fun _ x => PageSound x) ↔
        EachStep (PccState.pccTrackAccess cfg) promotionCacheInit trace
          fun _ s v => ∀ s₁, s.countAccess cfg = .ok s₁ → RefillsUnaliased s₁ v) := by
  have hrun := (trackHistory_run cfg trace).mono fun _ _ h => h.2
  refine ⟨hrun,?_⟩
  rw [← eachStep_project Prod.fst hrun]
  refine throughout_iff (I := fun _ x => Unaliased x) unaliased_init (fun _ _ h => h.pageSound)
    (fun _ x v h hc => ?_) fun _ x v h hc => ?_
  · obtain ⟨s₁,s',hr₁,hcount,hs',hv,-,hr⟩ := trackHistory_spec h.valid cfg v
    exact ⟨_,hr,h.step hcount hs' hv (hc s₁ hr₁)⟩
  · obtain ⟨s₁,s',hr₁,-,hs',-,-,hr⟩ := trackHistory_spec h.valid cfg v
    refine ⟨_,hr,hs'.not_pageSound fun hc₁ => hc fun t ht => ?_⟩
    obtain rfl : s₁ = t := by simpa [hr₁] using ht
    exact hc₁

/-- After an access to page 1 at 4 KiB, page 1 at 2 MiB hits. -/
theorem not_pageSound_after_one :
    ¬ ∀ cfg trace, Throughout (trackHistory cfg) historyInit trace fun _ x => PageSound x := by
  intro h
  obtain ⟨x,-,hx,ht⟩ := (h {} [4096]).meets
    (fun x => x.1.l2Tlb.hits 2097152 true &&
      decide (x.2 (l2TlbGeometry.key 2097152 true) = some ⟨1,false⟩)) (by decide +kernel)
  simp only [Bool.and_eq_true,decide_eq_true_eq] at ht
  have hw := hx.hits _ _ ht.1
  rw [ht.2,Option.some.injEq] at hw
  exact absurd (congrArg Translation.is2M hw) Bool.false_ne_true

end ElasticTranslations.Pcc
