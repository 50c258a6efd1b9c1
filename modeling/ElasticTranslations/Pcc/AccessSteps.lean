import ElasticTranslations.Pcc.Summary

/-! What one call of `pcc_track_access` does to each cache: a lookup, followed by a number of
insertions of the same key that depends on where the address was found. -/
namespace ElasticTranslations.Pcc

namespace FunctionalCache
/-- Lookups, then `n` insertions of the address, with the out-parameters alongside. -/
inductive Refills {g : Geometry} (a : UInt64) (f : Bool) (c : FunctionalCache g) (out : EvictOut) :
    ℕ → FunctionalCache g → EvictOut → Prop
  | none {c' : FunctionalCache g} : c.Touched c' → Refills a f c out 0 c' out
  | more {n : ℕ} {c₁ c' : FunctionalCache g} {out₁ evicted : EvictOut} {p : LinePtr} :
      Refills a f c out n c₁ out₁ →
      c₁.Inserted c' p a true f ⟨false,-1,out₁.evictedOffset⟩ evicted →
      Refills a f c out (n+1) c' (reported g a f out₁ evicted)

variable {g : Geometry} {c c' : FunctionalCache g} {a : UInt64} {f : Bool} {n : ℕ}
  {out out' : EvictOut}

namespace Refills

lemma touched (h : Refills a f c out 0 c' out') : c.Touched c' ∧ out' = out := by
  cases h with
  | none ht => exact ⟨ht,rfl⟩

lemma intact (h : Refills a f c out n c' out') : c'.Intact := by
  induction h with
  | none ht => exact ht.intact
  | more _ hi ih => exact hi.intact ih

lemma resident_subset (h : Refills a f c out n c' out') {k : ℕ × UInt64} (hk : c'.resident k) :
    k = g.key a f ∨ c.resident k := by
  induction h with
  | none ht => exact Or.inr ((ht.resident k).mp hk)
  | more _ hi ih => exact (hi.resident_subset hk).elim Or.inl ih

/-- What is found afterwards was found before, unless it is an inserted key. -/
lemma hits_subset [g.Sound] (h : Refills a f c out n c' out') {b : UInt64} {f' : Bool}
    (hb : c'.hits b f' = true) :
    0 < n ∧ g.pageNumber b f' = g.pageNumber a f ∨ c.hits b f' = true := by
  cases h with
  | none ht => exact Or.inr (by rwa [ht.hits] at hb)
  | more h₁ hi =>
    rw [← g.key_eq_iff]
    exact ((h₁.more hi).resident_subset hb).imp_left fun hk => ⟨Nat.succ_pos _,hk⟩

lemma hits_self (h : Refills a f c out (n+1) c' out') : c'.hits a f = true := by
  cases h with
  | more _ hi => exact hi.hits_self

/-- A single insertion keeps the map exact if the key was absent. -/
lemma exact (h : Refills a f c out n c' out') (hn : n ≤ 1) (hm : n = 1 → c.hits a f = false)
    (he : c.Exact) : c'.Exact := by
  cases h with
  | none ht => exact ht.exact he
  | @more m _ _ _ _ _ h₁ hi =>
    obtain rfl : m = 0 := by omega
    obtain ⟨ht,-⟩ := h₁.touched
    exact hi.exact ht.intact (ht.exact he) ((ht.hits a f).trans (hm rfl))

end Refills

/-- A lookup followed by an insertion. -/
lemma Refills.insert [g.Sound] {c₁ : FunctionalCache g} {out₁ : EvictOut}
    (h : Refills a f c out n c₁ out₁) :
    ∃ c' out', FunctionalCache.insert c₁ a true out₁ f = .ok (out',c') ∧
      Refills a f c out (n+1) c' out' := by
  obtain ⟨c',p,evicted,hr,hi⟩ := insert_spec h.intact a true f out₁
  exact ⟨c',_,hr,h.more hi⟩

lemma Refills.access [g.Sound] (hc : c.Intact) (a : UInt64) (f : Bool) (out : EvictOut) :
    ∃ c', FunctionalCache.access c a true f = .ok (c.hits a f,c') ∧
      Refills a f c out 0 c' out := by
  obtain ⟨c',hr,ht,-⟩ := access_spec hc a true f
  exact ⟨c',hr,.none ht⟩

/-- A single lookup that is followed by an insertion of the same key if it missed. -/
inductive LookedUp {g : Geometry} (a : UInt64) (f : Bool) (c : FunctionalCache g)
    (out : EvictOut) : Bool → FunctionalCache g → EvictOut → Prop
  | hit {c' : FunctionalCache g} : c.Touched c' → OffsetsFrom a f c c' →
      LookedUp a f c out false c' out
  | fill {c₁ c' : FunctionalCache g} {p : LinePtr} {evicted : EvictOut} : c.Touched c₁ →
      OffsetsFrom a f c c₁ → c₁.Inserted c' p a true f ⟨false,-1,out.evictedOffset⟩ evicted →
      LookedUp a f c out true c' (reported g a f out evicted)

lemma LookedUp.refills {filled : Bool} (h : LookedUp a f c out filled c' out') :
    Refills a f c out (if filled then 1 else 0) c' out' := by
  cases h with
  | hit ht _ => exact .none ht
  | fill ht _ hi => exact (Refills.none ht).more hi

lemma LookedUp.offsets {filled : Bool} (h : LookedUp a f c out filled c' out') :
    OffsetsFrom a f c c' := by
  cases h with
  | hit _ ho => exact ho
  | fill _ ho hi => exact ho.trans hi.offsetsFrom

end FunctionalCache
open FunctionalCache

/-- Where the TLB hierarchy finds an address. -/
inductive Outcome
  | l1Hit
  | l2BaseHit
  | l2HugeHit
  | miss
  deriving DecidableEq

namespace PccState
variable {s s' : PccState} {v : UInt64}

def outcome (s : PccState) (v : UInt64) : Outcome :=
  if s.l1Tlb4k.hits v || s.l1Tlb2m.hits v then .l1Hit
  else if s.l2Tlb.hits v then .l2BaseHit
  else if s.l2Tlb.hits v true then .l2HugeHit
  else .miss

/-- Insertions into the L1 4K TLB. A miss on a region that is not promoted inserts twice. -/
def refills4k (s : PccState) (v : UInt64) : ℕ :=
  match s.outcome v with
  | .l2BaseHit => 1
  | .miss => if s.promoted (region v) then 1 else 2
  | _ => 0

def refills2m (s : PccState) (v : UInt64) : ℕ :=
  match s.outcome v with
  | .l2HugeHit => 1
  | .miss => if s.promoted (region v) then 1 else 0
  | _ => 0

def refillsL2 (s : PccState) (v : UInt64) : ℕ :=
  match s.outcome v with
  | .miss => 1
  | _ => 0

lemma outcome_eq_miss : s.outcome v = .miss ↔ s.l1Tlb4k.hits v = false ∧
    s.l1Tlb2m.hits v = false ∧ s.l2Tlb.hits v = false ∧ s.l2Tlb.hits v true = false := by
  unfold outcome
  cases s.l1Tlb4k.hits v <;> cases s.l1Tlb2m.hits v <;> cases s.l2Tlb.hits v <;>
    cases s.l2Tlb.hits v true <;> simp

lemma outcome_eq_l2HugeHit : s.outcome v = .l2HugeHit ↔ s.l1Tlb4k.hits v = false ∧
    s.l1Tlb2m.hits v = false ∧ s.l2Tlb.hits v = false ∧ s.l2Tlb.hits v true = true := by
  unfold outcome
  cases s.l1Tlb4k.hits v <;> cases s.l1Tlb2m.hits v <;> cases s.l2Tlb.hits v <;>
    cases s.l2Tlb.hits v true <;> simp

lemma outcome_eq_l2BaseHit : s.outcome v = .l2BaseHit ↔ s.l1Tlb4k.hits v = false ∧
    s.l1Tlb2m.hits v = false ∧ s.l2Tlb.hits v = true := by
  unfold outcome
  cases s.l1Tlb4k.hits v <;> cases s.l1Tlb2m.hits v <;> cases s.l2Tlb.hits v <;>
    cases s.l2Tlb.hits v true <;> simp

/-- The L1 2M TLB is refilled at most once and only after a miss in it. -/
lemma refills2m_spec (s : PccState) (v : UInt64) :
    s.refills2m v ≤ 1 ∧ (s.refills2m v = 1 → s.l1Tlb2m.hits v = false) := by
  unfold refills2m
  cases ho : s.outcome v with
  | l1Hit => simp
  | l2BaseHit => simp
  | l2HugeHit => simpa using (outcome_eq_l2HugeHit.mp ho).2.1
  | miss =>
    have hm := (outcome_eq_miss.mp ho).2.1
    cases s.promoted (region v) <;> simp [hm]

/-- The L2 TLB is refilled at most once and only after a miss in both page sizes. -/
lemma refillsL2_spec (s : PccState) (v : UInt64) (f : Bool) :
    s.refillsL2 v ≤ 1 ∧ (s.refillsL2 v = 1 → s.l2Tlb.hits v f = false) := by
  unfold refillsL2
  cases ho : s.outcome v with
  | l1Hit => simp
  | l2BaseHit => simp
  | l2HugeHit => simp
  | miss =>
    obtain ⟨-,-,hb,hh⟩ := outcome_eq_miss.mp ho
    cases f <;> simp [hb,hh]

structure TlbStep (s : PccState) (v : UInt64) (s' : PccState) : Prop where
  l1Tlb4k : Refills v false s.l1Tlb4k s.l14k (s.refills4k v) s'.l1Tlb4k s'.l14k
  l1Tlb2m : Refills v false s.l1Tlb2m s.l12m (s.refills2m v) s'.l1Tlb2m s'.l12m
  l2Tlb : Refills v (s.promoted (region v)) s.l2Tlb s.l2 (s.refillsL2 v) s'.l2Tlb s'.l2
  promotionCache : s'.promotionCache = s.promotionCache
  pccPromotions : s'.pccPromotions = s.pccPromotions
  reuseMap : s'.reuseMap = s.reuseMap
  totalNumAccesses : s'.totalNumAccesses = s.totalNumAccesses

/-- The refills after a miss, in caches that have only been looked up. -/
lemma refillMiss_spec {v : UInt64} (ho : s.outcome v = .miss) {c4 c2 cl}
    (hc4 : Refills v false s.l1Tlb4k s.l14k 0 c4 s.l14k)
    (hc2 : Refills v false s.l1Tlb2m s.l12m 0 c2 s.l12m)
    (hcl : Refills v (s.promoted (region v)) s.l2Tlb s.l2 0 cl s.l2) :
    ∃ s', refillMiss { s with l1Tlb4k := c4, l1Tlb2m := c2, l2Tlb := cl } v (region v) = .ok s' ∧
      s.TlbStep v s' := by
  obtain ⟨dl,outl,hil,hdl⟩ := hcl.insert
  obtain ⟨d4,out4,hi4,hd4⟩ := hc4.insert
  cases hp : s.promoted (region v) with
  | true =>
    obtain ⟨d2,out2,hi2,hd2⟩ := hc2.insert
    refine ⟨{ s with
      l1Tlb4k := d4
      l1Tlb2m := d2
      l2Tlb := dl
      l14k := out4
      l12m := out2
      l2 := outl },?_,?_⟩
    · have hp' : (s.pccPromotions (region v)).isSome = _ := hp
      rw [hp] at hil
      simp [refillMiss,promoted,hp',insertL2,hil,insertL12m,hi2,insertL14k,hi4]
    · exact ⟨by simpa [refills4k,ho,hp] using hd4,by simpa [refills2m,ho,hp] using hd2,
        by simpa [refillsL2,ho] using hdl,rfl,rfl,rfl,rfl⟩
  | false =>
    obtain ⟨e4,oute,he4,hde⟩ := hd4.insert
    refine ⟨{ s with l1Tlb4k := e4, l1Tlb2m := c2, l2Tlb := dl, l14k := oute, l2 := outl },?_,?_⟩
    · have hp' : (s.pccPromotions (region v)).isSome = _ := hp
      rw [hp] at hil
      simp [refillMiss,promoted,hp',insertL2,hil,insertL14k,hi4,he4]
    · exact ⟨by simpa [refills4k,ho,hp] using hde,by simpa [refills2m,ho,hp] using hc2,
        by simpa [refillsL2,ho] using hdl,rfl,rfl,rfl,rfl⟩

theorem tlbLogic_spec (h : s.TlbsIntact) (v : UInt64) :
    ∃ s', s.tlbLogic v (region v) = .ok (decide (s.outcome v = .miss),s') ∧ s.TlbStep v s' := by
  obtain ⟨c4,hr4,hc4⟩ := Refills.access h.l1Tlb4k v false s.l14k
  obtain ⟨c2,hr2,hc2⟩ := Refills.access h.l1Tlb2m v false s.l12m
  cases h4 : s.l1Tlb4k.hits v with
  | true =>
    have ho : s.outcome v = .l1Hit := by simp [outcome,h4]
    refine ⟨{ s with l1Tlb4k := c4, l1Tlb2m := c2 },by simp [tlbLogic,hr4,hr2,h4,ho],?_⟩
    exact ⟨by simpa [refills4k,ho] using hc4,by simpa [refills2m,ho] using hc2,
      by simpa [refillsL2,ho] using .none (.refl h.l2Tlb),rfl,rfl,rfl,rfl⟩
  | false =>
  cases h2 : s.l1Tlb2m.hits v with
  | true =>
    have ho : s.outcome v = .l1Hit := by simp [outcome,h2]
    refine ⟨{ s with l1Tlb4k := c4, l1Tlb2m := c2 },by simp [tlbLogic,hr4,hr2,h2,ho],?_⟩
    exact ⟨by simpa [refills4k,ho] using hc4,by simpa [refills2m,ho] using hc2,
      by simpa [refillsL2,ho] using .none (.refl h.l2Tlb),rfl,rfl,rfl,rfl⟩
  | false =>
  obtain ⟨cb,hrb,hcb⟩ := Refills.access h.l2Tlb v false s.l2
  obtain ⟨htb,-⟩ := hcb.touched
  cases hb : s.l2Tlb.hits v with
  | true =>
    have ho : s.outcome v = .l2BaseHit := by simp [outcome,h4,h2,hb]
    obtain ⟨d4,out4,hi4,hd4⟩ := hc4.insert
    refine ⟨{ s with l1Tlb4k := d4, l1Tlb2m := c2, l2Tlb := cb, l14k := out4 },
      by simp [tlbLogic,insertL14k,hr4,hr2,h4,h2,hrb,hb,hi4,ho],?_⟩
    exact ⟨by simpa [refills4k,ho] using hd4,by simpa [refills2m,ho] using hc2,
      by simpa [refillsL2,ho] using .none htb,rfl,rfl,rfl,rfl⟩
  | false =>
  obtain ⟨ch,hrh,hch⟩ := Refills.access htb.intact v true s.l2
  have hth := htb.trans hch.touched.1
  rw [htb.hits] at hrh
  cases hh : s.l2Tlb.hits v true with
  | true =>
    have ho : s.outcome v = .l2HugeHit := by simp [outcome,h4,h2,hb,hh]
    obtain ⟨d2,out2,hi2,hd2⟩ := hc2.insert
    refine ⟨{ s with l1Tlb4k := c4, l1Tlb2m := d2, l2Tlb := ch, l12m := out2 },
      by simp [tlbLogic,insertL12m,hr4,hr2,h4,h2,hrb,hb,hrh,hh,hi2,ho],?_⟩
    exact ⟨by simpa [refills4k,ho] using hc4,by simpa [refills2m,ho] using hd2,
      by simpa [refillsL2,ho] using .none hth,rfl,rfl,rfl,rfl⟩
  | false =>
  have ho : s.outcome v = .miss := by simp [outcome,h4,h2,hb,hh]
  obtain ⟨s',hs',hstep⟩ := refillMiss_spec ho hc4 hc2 (.none hth)
  exact ⟨s',by simp [tlbLogic,hr4,hr2,h4,h2,hrb,hb,hrh,hh,ho,hs'],hstep⟩

lemma trackReuse_eq (s : PccState) (base : UInt64) :
    ∃ r, s.trackReuse base = s.setReuse base r := by
  by_cases h : ((s.reuseMap base).getD {}).lastAccess = 0
  · exact ⟨_,if_pos h⟩
  · exact ⟨_,if_neg h⟩

/-- A miss on a region with a reuse record that the promotion cache does not know. -/
def fillsEntry (s : PccState) (base : UInt64) : Bool :=
  (s.reuseMap base).isSome && !s.promotionCache.hits (base*pageSize) (s.promoted base)

/-- The region whose record is reset, computed from the shared out-parameters. -/
def resetRegion (out : EvictOut) : UInt64 :=
  (out.evictedAddr.toUInt64*pageSize + out.evictedOffset)/pageSize

structure MissStep (s : PccState) (base : UInt64) (s' : PccState) : Prop where
  l1Tlb4k : s'.l1Tlb4k = s.l1Tlb4k
  l1Tlb2m : s'.l1Tlb2m = s.l1Tlb2m
  l2Tlb : s'.l2Tlb = s.l2Tlb
  l12m : s'.l12m = s.l12m
  l2 : s'.l2 = s.l2
  pccPromotions : s'.pccPromotions = s.pccPromotions
  totalNumAccesses : s'.totalNumAccesses = s.totalNumAccesses
  skipped : s.reuseMap base = none → s'.promotionCache = s.promotionCache ∧ s'.l14k = s.l14k
  promotionCache : (s.reuseMap base).isSome → LookedUp (base*pageSize) (s.promoted base)
    s.promotionCache s.l14k (s.fillsEntry base) s'.promotionCache s'.l14k
  reuseMap : ∀ b ≠ base, s'.reuseMap b =
    if s.fillsEntry base ∧ s'.l14k.evictedAddr ≠ -1 ∧ b = resetRegion s'.l14k then some {}
    else s.reuseMap b

lemma MissStep.setReuse {base : UInt64} (h : s.MissStep base s') (r : ReuseRecord) :
    s.MissStep base (s'.setReuse base r) :=
  ⟨h.l1Tlb4k,h.l1Tlb2m,h.l2Tlb,h.l12m,h.l2,h.pccPromotions,h.totalNumAccesses,h.skipped,
    h.promotionCache,fun b hb => (Function.update_of_ne hb _ _).trans (h.reuseMap b hb)⟩

lemma promotionCacheLogic_spec (h : s.promotionCache.Intact) (base : UInt64)
    (hr : (s.reuseMap base).isSome = true) :
    ∃ s', s.promotionCacheLogic base = .ok s' ∧ s.MissStep base s' := by
  have hskip : s.reuseMap base = none → False := fun hn => by simp [hn] at hr
  obtain ⟨c,ha,ht,ho⟩ := access_spec h (base*pageSize) true (s.promoted base)
  cases hh : s.promotionCache.hits (base*pageSize) (s.promoted base) with
  | true =>
    have hf : s.fillsEntry base = false := by simp [fillsEntry,hh]
    refine ⟨{ s with promotionCache := c },by simp [promotionCacheLogic,ha,hh],
      ⟨rfl,rfl,rfl,rfl,rfl,rfl,rfl,fun hn => (hskip hn).elim,fun _ => ?_,fun b _ => by simp [hf]⟩⟩
    rw [hf]
    exact .hit ht ho
  | false =>
    have hf : s.fillsEntry base = true := by simp [fillsEntry,hr,hh]
    obtain ⟨d,p,evicted,hi,hd⟩ :=
      insert_spec ht.intact (base*pageSize) true (s.promoted base) s.l14k
    have hl : LookedUp (base*pageSize) (s.promoted base) s.promotionCache s.l14k true d _ :=
      .fill ht ho hd
    generalize reported promotionCacheGeometry (base*pageSize) (s.promoted base) s.l14k evicted =
      out at hi hl
    let s₁ : PccState := { s with
      num2mbPtw :=
        if s.promoted base && ((s.reuseMap base).getD {}).lastAccess != 0 then s.num2mbPtw+1
        else s.num2mbPtw
      promotionCache := d
      l14k := out }
    by_cases he : out.evictedAddr = -1
    · refine ⟨s₁,by simp [s₁,promotionCacheLogic,ha,hh,hi,he],
        ⟨rfl,rfl,rfl,rfl,rfl,rfl,rfl,fun hn => (hskip hn).elim,fun _ => hf ▸ hl,fun b _ => ?_⟩⟩
      simp [s₁,he]
    · refine ⟨s₁.setReuse (resetRegion out) {},by simp [s₁,promotionCacheLogic,ha,hh,hi,he]; rfl,
        ⟨rfl,rfl,rfl,rfl,rfl,rfl,rfl,fun hn => (hskip hn).elim,fun _ => hf ▸ hl,fun b _ => ?_⟩⟩
      simp [s₁,hf,he,setReuse,Function.update_apply]

theorem missLogic_spec (h : s.promotionCache.Intact) (base : UInt64) :
    ∃ s', s.missLogic base = .ok s' ∧ s.MissStep base s' ∧ (s'.reuseMap base).isSome := by
  cases hr : s.reuseMap base with
  | none =>
    have hf : s.fillsEntry base = false := by simp [fillsEntry,hr]
    have hs : s.MissStep base s :=
      ⟨rfl,rfl,rfl,rfl,rfl,rfl,rfl,fun _ => ⟨rfl,rfl⟩,fun hn => by simp [hr] at hn,
        fun b _ => by simp [hf]⟩
    exact ⟨s.setReuse base {},by simp [missLogic,hr],hs.setReuse {},by simp [setReuse]⟩
  | some r =>
    obtain ⟨s₁,hr₁,hs₁⟩ := promotionCacheLogic_spec h base (by rw [hr]; rfl)
    obtain ⟨r',ht⟩ := trackReuse_eq s₁ base
    exact ⟨s₁.setReuse base r',by simp [missLogic,hr,hr₁,ht],hs₁.setReuse r',by simp [setReuse]⟩

end PccState
end ElasticTranslations.Pcc
