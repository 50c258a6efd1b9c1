import ElasticTranslations.Pcc.PromotionKeys

/-! The frame of the reuse table. A call writes the record of the accessed region and resets
that of an evicted entry; but whether something was evicted is read off an out-parameter that
the L1 4K TLB shares and that insertions without an eviction leave alone. -/
namespace ElasticTranslations.Pcc
open Structures FunctionalCache

/-- What a run remembers beside the state: the region for which each tag of the promotion
cache was inserted last, and the regions that have missed in both TLB levels. -/
structure ReuseHistory where
  insertedFor : UInt64 → Option UInt64
  missed : List UInt64

def ReuseHistory.next (h : ReuseHistory) (s₁ : PccState) (v : UInt64) : ReuseHistory where
  insertedFor :=
    if s₁.fills v then Function.update h.insertedFor (s₁.consultedKey v).2 (some (region v))
    else h.insertedFor
  missed := if s₁.outcome v = .miss then region v :: h.missed else h.missed

def trackReuseHistory (cfg : Config) (x : PccState × ReuseHistory) (v : UInt64) :
    Except Fault (PccState × ReuseHistory) := do
  let s₁ ← x.1.countAccess cfg
  let s' ← x.1.pccTrackAccess cfg v
  return (s',x.2.next s₁ v)

def reuseHistoryInit : PccState × ReuseHistory := (promotionCacheInit,⟨fun _ => none,[]⟩)

namespace PccState

/-- The call evicted an entry that had been inserted for the region. -/
def EvictedFor (h : ReuseHistory) (s₁ s' : PccState) (q : UInt64) : Prop :=
  ∃ t ∈ s₁.entries, t ∉ s'.entries ∧ h.insertedFor t = some q

/-- The effect of a call on the reuse table after the summary, in state `s₁`: only the records
of the accessed region and of the evicted entry change, only accessed regions have one, and
a region enters the promotion cache after an earlier miss. -/
structure ReuseFrame (pre : List UInt64) (h : ReuseHistory) (s₁ s' : PccState) (v : UInt64) :
    Prop where
  reset : ∀ q ≠ region v, EvictedFor h s₁ s' q → s'.reuseMap q = some {}
  frame : ∀ q ≠ region v, ¬ EvictedFor h s₁ s' q → s'.reuseMap q = s₁.reuseMap q
  accessed : ∀ q, (s'.reuseMap q).isSome → ∃ w ∈ pre ++ [v], region w = q
  secondMiss : s₁.fills v = true → region v ∈ h.missed

def Framed (cfg : Config) (pre : List UInt64) (x : PccState × ReuseHistory) (v : UInt64) : Prop :=
  ∃ s₁ s', x.1.countAccess cfg = .ok s₁ ∧ x.1.pccTrackAccess cfg v = .ok s' ∧
    ReuseFrame pre x.2 s₁ s' v

/-- The region that is looked up keeps its number, and a call that inserts into the promotion
cache either finds it full or reaches it with nothing evicted so far: the out-parameter still
has its first value and the set of the L1 4K TLB has room for the refills of this call. -/
def ResetsRightly (s : PccState) (v : UInt64) : Prop :=
  s.KeepsNumber v ∧ (s.fills v = true → (s.promotionCache.sets 0).freeEntries = [] ∨
    s.l14k.evictedAddr = -1 ∧
      s.refills4k v ≤ (s.l1Tlb4k.sets (l1Tlb4kGeometry.key v false).1).freeEntries.length)

instance (s : PccState) (v : UInt64) : Decidable (s.KeepsNumber v) :=
  inferInstanceAs (Decidable (_ → _))

instance (s : PccState) (v : UInt64) : Decidable (s.ResetsRightly v) :=
  inferInstanceAs (Decidable (_ ∧ _))

/-- The invariant of the runs that meet the condition. -/
structure ReuseTracked (pre : List UInt64) (x : PccState × ReuseHistory) : Prop where
  valid : x.1.Valid
  offsets : ∀ p, ((x.1.promotionCache.sets 0).lines p).offset = 0
  insertedFor : ∀ t ∈ x.1.entries, x.2.insertedFor t = some t
  entries : ∀ t ∈ x.1.entries, t ∈ x.2.missed
  records : ∀ q, (x.1.reuseMap q).isSome → q ∈ x.2.missed
  missed : ∀ q ∈ x.2.missed, ∃ w ∈ pre, region w = q

end PccState

namespace FunctionalCache
variable {g : Geometry} {c c' : FunctionalCache g} {a : UInt64} {f : Bool} {n : ℕ}
  {out out' : EvictOut}

/-- While the set has room the evicted address is left alone. -/
lemma Refills.evictedAddr (h : Refills a f c out n c' out')
    (hn : n ≤ (c.sets (g.key a f).1).freeEntries.length) :
    out'.evictedAddr = out.evictedAddr ∧ (c'.sets (g.key a f).1).freeEntries.length + n =
      (c.sets (g.key a f).1).freeEntries.length := by
  induction h with
  | none ht => exact ⟨rfl,by rw [(ht _).freeEntries]; rfl⟩
  | @more m c₁ _ _ _ _ _ hi ih =>
    obtain ⟨ho,hl⟩ := ih (by omega)
    have hne : (c₁.sets (g.key a f).1).freeEntries ≠ [] := List.ne_nil_of_length_pos (by omega)
    obtain ⟨-,rfl⟩ := hi.filled.room hne
    refine ⟨by simpa [reported] using ho,?_⟩
    rw [hi.filled.freeEntries,List.length_tail]
    omega

lemma LookedUp.room (h : LookedUp a f c out true c' out')
    (hroom : (c.sets (g.key a f).1).freeEntries ≠ []) :
    out'.evictedAddr = out.evictedAddr ∧ ∀ k, c.resident k → c'.resident k := by
  cases h with
  | fill ht _ hi =>
    obtain ⟨hp,rfl⟩ := hi.filled.room (by rwa [(ht _).freeEntries])
    refine ⟨by simp [reported],fun k hk => ?_⟩
    rw [← ht.resident] at hk
    by_cases hs : k.1 = (g.key a f).1
    · simp only [resident,lookup,hs] at hk ⊢
      rw [hi.filled.find]
      split_ifs
      · rfl
      · rename_i hm
        exact absurd hm.1 hp
      · exact hk
    · simpa [resident,lookup,hi.others _ hs] using hk

/-- A full set evicts one line; its tag and offset go to the out-parameters. -/
lemma LookedUp.full (h : LookedUp a f c out true c' out')
    (hfull : (c.sets (g.key a f).1).freeEntries = []) :
    ∃ c₁ p, c.Touched c₁ ∧ OffsetsFrom a f c c₁ ∧ p ∈ (c.sets (g.key a f).1).linked ∧
      out' = reported g a f out ⟨((c₁.sets (g.key a f).1).lines p).dirty,
        ((c.sets (g.key a f).1).lines p).addr.toInt64,
        ((c₁.sets (g.key a f).1).lines p).offset⟩ ∧
      ∀ u, u ≠ g.tagOf a f → c'.lookup ((g.key a f).1,u) =
        if u = ((c.sets (g.key a f).1).lines p).addr then none
        else c.lookup ((g.key a f).1,u) := by
  cases h with
  | @fill c₁ _ p _ ht ho hi =>
    obtain ⟨hp,rfl⟩ := hi.filled.full (by rwa [(ht _).freeEntries])
    refine ⟨c₁,p,ht,ho,(ht _).linked.mem_iff.mp hp,by rw [(ht _).addr],fun u hu => ?_⟩
    simp only [lookup]
    rw [hi.filled.find,if_neg hu,(ht _).addr,(ht _).find]
    simp [hp]

end FunctionalCache

namespace PccState
variable {s s₁ s' : PccState} {v : UInt64} {hist : ReuseHistory} {pre : List UInt64}

lemma setid_promotionCache (a : UInt64) (f : Bool) : promotionCacheGeometry.setidOf a f = 0 := by
  have hl : promotionCacheGeometry.logSetCount = 0 := by decide +kernel
  rw [← UInt64.toNat_inj,Geometry.setidOf_toNat,hl]
  simp [Nat.mod_one]

/-- The base pages of a region start at offset 0, and so does region 0 as a huge page. -/
lemma KeepsNumber.offset (hc : s.KeepsNumber v) (hcon : s.Consults v) :
    promotionCacheGeometry.offsetOf (region v*pageSize) (s.promoted (region v)) = 0 := by
  rcases hc hcon with hp | h0
  · rw [hp]
    exact promotionCache_offset (region_lt v)
  · rw [h0,← UInt64.toNat_inj,Geometry.offsetOf_toNat]
    simp

/-- An entry leaves the out-parameters with its own number as the region to reset. -/
lemma resetRegion_entry {t : UInt64} (ht : t.toNat < 2^43) (a : UInt64) (f dirty : Bool)
    (out : EvictOut) :
    (reported promotionCacheGeometry a f out ⟨dirty,t.toInt64,0⟩).evictedAddr ≠ -1 ∧
      resetRegion (reported promotionCacheGeometry a f out ⟨dirty,t.toInt64,0⟩) = t := by
  have hne : t.toInt64 ≠ -1 := by
    intro he
    have := congrArg Int64.toUInt64 he
    rw [UInt64.toUInt64_toInt64] at this
    rw [this] at ht
    exact absurd ht (by decide)
  have hs : UInt64.ofNat promotionCacheGeometry.setCount = 1 := by decide +kernel
  have ha : (reported promotionCacheGeometry a f out ⟨dirty,t.toInt64,0⟩).evictedAddr =
      t.toInt64 := by
    simp [reported,hne,hs,setid_promotionCache]
  refine ⟨by rwa [ha],?_⟩
  rw [resetRegion,ha,← UInt64.toNat_inj]
  simp only [reported,UInt64.toUInt64_toInt64,UInt64.add_zero,UInt64.toNat_div,
    entryAddress_toNat ht]
  simp [pageSize]

section Reset
variable (h : s.AccessStep v s') (hv : s.Valid)
  (hz : ∀ p, ((s.promotionCache.sets 0).lines p).offset = 0) (hc : s.ResetsRightly v)
include h hv hz hc

/-- A full promotion cache loses an entry, and the record of that one is reset. -/
lemma AccessStep.reset_iff_full (hf : s.fills v = true)
    (hfull : (s.promotionCache.sets 0).freeEntries = []) (q : UInt64) :
    (s'.l14k.evictedAddr ≠ -1 ∧ q = resetRegion s'.l14k) ↔
      s.promotionCache.resident (0,q) ∧ ¬s'.promotionCache.resident (0,q) := by
  have hcon := consults_of_fills hf
  have hk := promotionCache_key (region_lt v) (s.promoted (region v))
  obtain ⟨out,-,-,hlook⟩ := h.l1Tlb4k
  have hlook := hlook hcon
  rw [hf] at hlook
  obtain ⟨c₁,p,-,ho,hp,hout,hfind⟩ := hlook.full (by rwa [hk])
  have hz₁ : ((c₁.sets 0).lines p).offset = 0 := by
    rcases ho 0 p with he | he
    · rw [he,hz]
    · rw [he,hc.1.offset hcon]
  rw [hk] at hp hout
  rw [hz₁] at hout
  have hres : s.promotionCache.resident (0,((s.promotionCache.sets 0).lines p).addr) :=
    Option.isSome_iff_exists.mpr ⟨p,hv.promotionCacheExact 0 p hp⟩
  have ht := hv.tags _ ((PccState.mem_entries hv.promotionCache hv.promotionCacheExact).mpr hres)
  obtain ⟨hne,hreset⟩ := resetRegion_entry ht (region v*pageSize) (s.promoted (region v))
    ((c₁.sets 0).lines p).dirty out
  have hmiss : ¬ s.promotionCache.resident
      (0,promotionCacheGeometry.tagOf (region v*pageSize) (s.promoted (region v))) := by
    have hh := fills_miss hf
    rw [← Bool.not_eq_true,hits_iff,hk] at hh
    rwa [show promotionCacheGeometry.tagOf (region v*pageSize) (s.promoted (region v)) = _ from
      congrArg Prod.snd hk]
  rw [hout,hreset]
  simp only [hne,ne_eq,not_false_eq_true,true_and]
  constructor
  · rintro rfl
    refine ⟨hres,fun hr => ?_⟩
    have hl := hfind _ fun he => hmiss (he ▸ hres)
    rw [hk] at hl
    simp [resident,hl] at hr
  · rintro ⟨hq,hq'⟩
    have hl := hfind q fun he => hmiss (he ▸ hq)
    rw [hk] at hl
    by_contra hne
    simp only [resident,hl,hne,if_false] at hq'
    exact hq' hq

/-- Under the condition the record that is reset is that of the entry that left. -/
lemma AccessStep.reset_iff (hv' : s'.Valid) (q : UInt64) :
    (s.fills v = true ∧ s'.l14k.evictedAddr ≠ -1 ∧ q = resetRegion s'.l14k) ↔
      q ∈ s.entries ∧ q ∉ s'.entries := by
  rw [PccState.mem_entries hv.promotionCache hv.promotionCacheExact,
    PccState.mem_entries hv'.promotionCache hv'.promotionCacheExact]
  cases hf : s.fills v with
  | false =>
    obtain ⟨out,out',hp⟩ := h.promotionCache hv
    simp only [hf] at hp
    simp [hp.touched.1.resident]
  | true =>
    by_cases hfull : (s.promotionCache.sets 0).freeEntries = []
    · rw [← h.reset_iff_full hv hz hc hf hfull q]
      simp
    · have hk := promotionCache_key (region_lt v) (s.promoted (region v))
      obtain ⟨out,h4,-,hlook⟩ := h.l1Tlb4k
      have hlook := hlook (consults_of_fills hf)
      rw [hf] at hlook
      obtain ⟨haddr,hroom⟩ := (hc.2 hf).resolve_left hfull
      obtain ⟨he,hres⟩ := hlook.room (by rwa [hk])
      rw [he,(h4.evictedAddr hroom).1,haddr]
      simp only [ne_eq,not_true_eq_false,false_and,and_false,false_iff,not_and,not_not]
      exact hres _

end Reset

lemma init_reuseTracked : ReuseTracked [] reuseHistoryInit := by
  have he : promotionCacheInit.entries = [] := List.map_eq_nil_iff.mpr CacheSet.new_linked
  refine ⟨init_valid,fun p => ?_,?_,?_,?_,?_⟩
  · cases p <;> rfl
  · simp [reuseHistoryInit,he]
  · simp [reuseHistoryInit,he]
  · simp [reuseHistoryInit,promotionCacheInit]
  · simp [reuseHistoryInit]

/-- The records that a summary creates are those of entries. -/
lemma ReuseTracked.counted (h : ReuseTracked pre (s,hist)) (hcount : s.Counted s₁) :
    ReuseTracked pre (s₁,hist) := by
  obtain ⟨as,has,hs⟩ := hcount
  have hsub : ∀ t ∈ s₁.entries, t ∈ s.entries := fun t ht => ((hs.entries t).mp ht).1
  refine ⟨hs.valid,fun p => (hs.offsets p).trans (h.offsets p),
    fun t ht => h.insertedFor t (hsub t ht),fun t ht => h.entries t (hsub t ht),fun q hq => ?_,
    h.missed⟩
  by_cases hm : q ∈ as
  · rcases has with rfl | rfl
    · simp at hm
    · exact h.entries q hm
  · exact h.records q (hs.reuseMap q hm ▸ hq)

lemma ReuseTracked.missed_next (h : ReuseTracked pre (s₁,hist)) (v : UInt64) :
    (∀ q ∈ hist.missed, q ∈ (hist.next s₁ v).missed) ∧
      (s₁.outcome v = .miss → region v ∈ (hist.next s₁ v).missed) ∧
      ∀ q ∈ (hist.next s₁ v).missed, ∃ w ∈ pre ++ [v], region w = q := by
  have hmono : ∀ q ∈ hist.missed, ∃ w ∈ pre ++ [v], region w = q := fun q hq => by
    obtain ⟨w,hw,hr⟩ := h.missed q hq
    exact ⟨w,List.mem_append_left _ hw,hr⟩
  by_cases ho : s₁.outcome v = .miss
  · simp only [ReuseHistory.next,ho,if_true,List.mem_cons]
    refine ⟨fun q hq => Or.inr hq,fun _ => Or.inl trivial,?_⟩
    rintro q (rfl | hq)
    · exact ⟨v,by simp,rfl⟩
    · exact hmono q hq
  · simp only [ReuseHistory.next,ho,if_false]
    exact ⟨fun q hq => hq,fun hm => hm.elim,hmono⟩

/-- A call under the condition has the frame and keeps the invariant. -/
theorem ReuseTracked.step (h : ReuseTracked pre (s₁,hist)) (hs : s₁.AccessStep v s')
    (hv' : s'.Valid) (hc : s₁.ResetsRightly v) :
    ReuseFrame pre hist s₁ s' v ∧ ReuseTracked (pre ++ [v]) (s',hist.next s₁ v) := by
  obtain ⟨hmono,hmiss,hacc⟩ := h.missed_next v
  have hreset := hs.reset_iff h.valid h.offsets hc hv'
  have hev : ∀ q, EvictedFor hist s₁ s' q ↔ q ∈ s₁.entries ∧ q ∉ s'.entries := by
    intro q
    constructor
    · rintro ⟨t,ht,ht',hq⟩
      obtain rfl : t = q := Option.some.inj ((h.insertedFor t ht).symm.trans hq)
      exact ⟨ht,ht'⟩
    · rintro ⟨hq,hq'⟩
      exact ⟨q,hq,hq',h.insertedFor q hq⟩
  have hrec : ∀ q, (s'.reuseMap q).isSome → q ∈ (hist.next s₁ v).missed := by
    intro q hq
    by_cases hqv : q = region v
    · by_cases ho : s₁.outcome v = .miss
      · exact hqv ▸ hmiss ho
      · rw [hs.reuseMap_hit ho] at hq
        exact hmono q (h.records q hq)
    · rw [hs.reuseMap q hqv] at hq
      split_ifs at hq with hq'
      · exact hmono q (h.entries q ((hreset q).mp hq').1)
      · exact hmono q (h.records q hq)
  have hentry : ∀ t ∈ s'.entries, t ∈ s₁.entries ∨ s₁.fills v = true ∧ t = region v := by
    intro t ht
    refine (hs.mem_entries h.valid ht).imp_right fun hf => ⟨hf.1,?_⟩
    have hkey := hc.1.key_eq (consults_of_fills hf.1)
    rw [consultedKey_eq,← hf.2] at hkey
    exact congrArg Prod.snd hkey
  refine ⟨⟨fun q hqv hq => ?_,fun q hqv hq => ?_,fun q hq => hacc q (hrec q hq),fun hf => ?_⟩,
    hv',fun p => ?_,fun t ht => ?_,fun t ht => ?_,hrec,hacc⟩
  · rw [hs.reuseMap q hqv,if_pos ((hreset q).mpr ((hev q).mp hq))]
  · rw [hs.reuseMap q hqv,if_neg fun hr => hq ((hev q).mpr ((hreset q).mp hr))]
  · exact h.records _ (consults_of_fills hf).2
  · obtain ⟨out,-,hskip,hlook⟩ := hs.l1Tlb4k
    by_cases hcon : s₁.Consults v
    · rcases (hlook hcon).offsets 0 p with ho | ho
      · exact ho.trans (h.offsets p)
      · exact ho.trans (hc.1.offset hcon)
    · simp only [(hskip hcon).1]
      exact h.offsets p
  · by_cases hf : s₁.fills v = true
    · have hkey := hc.1.key_eq (consults_of_fills hf)
      simp only [ReuseHistory.next,hf,if_true,hkey,Function.update_apply]
      split_ifs with ht'
      · rw [ht']
      · exact h.insertedFor t ((hentry t ht).resolve_right fun h => ht' h.2)
    · simp only [ReuseHistory.next,hf]
      exact h.insertedFor t ((hentry t ht).resolve_right fun h => hf h.1)
  · rcases hentry t ht with ht | ⟨hf,rfl⟩
    · exact hmono t (h.entries t ht)
    · exact hmiss (consults_of_fills hf).1

end PccState

lemma trackReuseHistory_spec {x : PccState × ReuseHistory} (h : x.1.Valid) (cfg : Config)
    (v : UInt64) :
    ∃ s₁ s', x.1.countAccess cfg = .ok s₁ ∧ x.1.Counted s₁ ∧ s₁.AccessStep v s' ∧ s'.Valid ∧
      x.1.pccTrackAccess cfg v = .ok s' ∧
      trackReuseHistory cfg x v = .ok (s',x.2.next s₁ v) := by
  obtain ⟨s₁,s',hr₁,hr',hcount,-,hs',hv⟩ := PccState.pccTrackAccess_spec h cfg v
  exact ⟨s₁,s',hr₁,hcount,hs',hv,hr',by simp only [trackReuseHistory,hr₁,hr',ok_bind,pure_ok]⟩

lemma trackReuseHistory_run (cfg : Config) (trace : List UInt64) :
    Throughout (trackReuseHistory cfg) reuseHistoryInit trace
      fun pre x => x.1.Valid ∧ runTrace cfg pre = .ok x.1 := by
  refine .of_invariant ⟨PccState.init_valid,rfl⟩ (fun pre x v h => ?_) trace
  obtain ⟨s₁,s',-,-,-,hv,hr,hr'⟩ := trackReuseHistory_spec h.1 cfg v
  exact ⟨_,hr',hv,(foldlM_snoc_ok h.2 v).trans hr⟩

/-- In a run whose calls all reset rightly, every call has the frame. -/
theorem framed_of_resetsRightly (cfg : Config) (trace : List UInt64)
    (h : EachStep (PccState.pccTrackAccess cfg) promotionCacheInit trace
      fun _ s v => ∀ s₁, s.countAccess cfg = .ok s₁ → s₁.ResetsRightly v) :
    Throughout (trackReuseHistory cfg) reuseHistoryInit trace
        (fun pre x => runTrace cfg pre = .ok x.1) ∧
      EachStep (trackReuseHistory cfg) reuseHistoryInit trace (PccState.Framed cfg) := by
  have hrun := (trackReuseHistory_run cfg trace).mono fun _ _ h => h.2
  refine ⟨hrun,?_⟩
  have hstep : ∀ pre (x : PccState × ReuseHistory) v, PccState.ReuseTracked pre x →
      (∀ s₁, x.1.countAccess cfg = .ok s₁ → s₁.ResetsRightly v) →
        PccState.Framed cfg pre x v ∧
          ∃ x', trackReuseHistory cfg x v = .ok x' ∧ PccState.ReuseTracked (pre ++ [v]) x' := by
    intro pre x v hx hc
    obtain ⟨s₁,s',hr₁,hcount,hs,hv,hr,hr'⟩ := trackReuseHistory_spec hx.valid cfg v
    obtain ⟨hframe,hx'⟩ := (hx.counted hcount).step hs hv (hc s₁ hr₁)
    exact ⟨⟨s₁,s',hr₁,hr,hframe⟩,_,hr',hx'⟩
  rw [← eachStep_project Prod.fst hrun] at h
  intro pre v hp x hx
  obtain ⟨y,hy,hinv⟩ := Throughout.of_steps PccState.init_reuseTracked
    (fun pre x v hx hc => (hstep pre x v hx hc).2) h pre ((List.prefix_append pre [v]).trans hp)
  obtain rfl : y = x := by simpa [hy] using hx
  exact (hstep pre y v hinv (h pre v hp y hy)).1

/-- Two accesses to region 1, of which the second fills the promotion cache. -/
theorem framed_two_accesses :
    EachStep (trackReuseHistory {}) reuseHistoryInit [2097152,2101248] (PccState.Framed {}) := by
  have htest : stepsMeet (PccState.pccTrackAccess {}) (fun s v => match s.countAccess {} with
      | .ok s₁ => decide (s₁.ResetsRightly v)
      | .error _ => true) promotionCacheInit [2097152,2101248] = true := by decide +kernel
  refine (framed_of_resetsRightly {} [2097152,2101248] ?_).2
  refine (EachStep.of_stepsMeet _ htest).mono fun pre s v ht s₁ hr₁ => ?_
  simpa [hr₁] using ht

/-- Page 512, pushed out of the L1 4K TLB, leaves a record for region 512. -/
theorem not_framed_after_three :
    ¬ ∀ cfg trace, EachStep (trackReuseHistory cfg) reuseHistoryInit trace
      (PccState.Framed cfg) := by
  intro h
  obtain ⟨x,hx,⟨hv,-⟩,ht⟩ := (trackReuseHistory_run {} [2097152,4259840]).meets
    (fun x => match x.1.pccTrackAccess {} 2228224 with
      | .ok s' => (s'.reuseMap 512).isSome
      | .error _ => false) (by decide +kernel)
  obtain ⟨s₁,s',-,hr,hframe⟩ :=
    h {} [2097152,4259840,2228224] [2097152,4259840] 2228224 (List.prefix_refl _) x hx
  simp only [hr] at ht
  obtain ⟨w,hw,hreg⟩ := hframe.accessed 512 ht
  have hall : ([2097152,4259840,2228224] : List UInt64).all (fun w => region w != 512) = true := by
    decide +kernel
  exact bne_iff_ne.mp (List.all_eq_true.mp hall w hw) hreg

end ElasticTranslations.Pcc
