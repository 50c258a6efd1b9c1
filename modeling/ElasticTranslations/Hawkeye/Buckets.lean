import ElasticTranslations.Hawkeye.PromotionScan
import ElasticTranslations.Hawkeye.Runs
import ElasticTranslations.Structures.Buckets
import Mathlib.Tactic.NormNum

/-! Where the buckets hold a region. `change_bucket` clamps the bucket that a region moves
to, but looks for it under the unclamped quotient of its stored average, so the buckets stay
in order exactly as long as the averages of covered regions stay within the ten buckets. -/
namespace ElasticTranslations.Hawkeye
open Structures

/-- The stored averages whose quotient is the index of a bucket. -/
lemma trunc_inBuckets (ema : ℚ) :
    0 ≤ trunc (ema/bucketSize) ∧ trunc (ema/bucketSize) < numBuckets ↔ -50 < ema ∧ ema < 500 := by
  rw [trunc_nonneg_iff,trunc_lt_iff _ (by decide),lt_div_iff₀ (by decide),div_lt_iff₀ (by decide)]
  norm_num [bucketSize,numBuckets]

/-- An index of `buckets` from any integer. -/
def clamp (i : ℤ) : ℕ := (max 0 (min ((numBuckets : ℤ)-1) i)).toNat

/-- The truncated quotient, clamped to the buckets. -/
def home (ema : ℚ) : ℕ := clamp (trunc (ema/bucketSize))

lemma home_of_inBuckets {ema : ℚ} (h : -50 < ema ∧ ema < 500) :
    trunc (ema/bucketSize) = home ema := by
  have hb := (trunc_inBuckets ema).mpr h
  unfold home clamp
  omega

namespace Regions

/-- Once in that bucket and in no other. -/
def Placed (s : Regions) (base : UInt64) (b : ℕ) : Prop := OnlyIn numBuckets s.buckets base b

/-- Every region with an average is in its bucket, and no other region is in any. -/
def Sorted (s : Regions) : Prop := ∀ base, match s.ema base with
  | some ema => s.Placed base (home ema)
  | none => ∀ j < numBuckets, base ∉ s.buckets j

lemma sorted_init : Sorted {} := fun _ _ _ => List.not_mem_nil

lemma bucketAt_clamp (i : ℤ) :
    bucketAt (if (if i < 0 then 0 else i) > (numBuckets : ℤ)-1 then (numBuckets : ℤ)-1
      else if i < 0 then 0 else i) = .ok (clamp i) := by
  have heq : (if (if i < 0 then 0 else i) > (numBuckets : ℤ)-1 then (numBuckets : ℤ)-1
      else if i < 0 then 0 else i) = max 0 (min ((numBuckets : ℤ)-1) i) := by
    unfold numBuckets
    split <;> split at * <;> omega
  rw [heq,bucketAt,if_pos (by unfold numBuckets; omega)]
  rfl

lemma changeBucket_eq (s : Regions) (base : UInt64) {old : ℤ} (new : ℤ)
    (hold : 0 ≤ old ∧ old < numBuckets) : s.changeBucket base old new =
      .ok { s with buckets := moved s.buckets base old.toNat (clamp new) } := by
  have hat : bucketAt old = .ok old.toNat := if_pos hold
  simp only [changeBucket,hat,bucketAt_clamp]
  rfl

lemma changeBucket_fault (s : Regions) (base : UInt64) {old : ℤ} (new : ℤ)
    (hold : ¬ (0 ≤ old ∧ old < numBuckets)) :
    s.changeBucket base old new = .error .bucketIndex := by
  simp only [changeBucket,bucketAt,if_neg hold]
  rfl

/-- The stored average of a region, if any, names a bucket. -/
def NamesBucket (s : Regions) (base : UInt64) : Prop :=
  ∀ ema, s.ema base = some ema → -50 < ema ∧ ema < 500

lemma readEma_index {s : Regions} {base : UInt64} (h : s.NamesBucket base) :
    0 ≤ trunc (s.readEma base/bucketSize) ∧ trunc (s.readEma base/bucketSize) < numBuckets := by
  rw [trunc_inBuckets,readEma]
  cases he : s.ema base with
  | none => exact ⟨by norm_num,by norm_num⟩
  | some ema => exact h ema he

/-- Before a region moves it is at most in the bucket that its average names. -/
lemma Sorted.count_le {s : Regions} (hs : s.Sorted) {base : UInt64} (h : s.NamesBucket base)
    {j : ℕ} (hj : j < numBuckets) : (s.buckets j).count base ≤
      if j = (trunc (s.readEma base/bucketSize)).toNat then 1 else 0 := by
  have hplace := hs base
  unfold readEma
  cases he : s.ema base with
  | none =>
    simp only [he] at hplace
    rw [List.count_eq_zero_of_not_mem (hplace j hj)]
    exact Nat.zero_le _
  | some ema =>
    simp only [he] at hplace
    rw [Option.getD_some,home_of_inBuckets (h ema he),Int.toNat_natCast,hplace j hj]

/-- One round of the update of the averages. -/
lemma updateRegion_spec {s : Regions} (hs : s.Sorted)
    (entry : UInt64 × BitVec numBasePages) (h : s.NamesBucket entry.1) :
    ∃ s', s.updateRegion entry = .ok s' ∧ s'.Sorted ∧
      s'.ema = Function.update s.ema entry.1 (some (s.nextEma entry.1 entry.2.cpop.toNat)) := by
  obtain ⟨base,bits⟩ := entry
  refine ⟨_,changeBucket_eq _ base _ (readEma_index h),fun base' => ?_,rfl⟩
  by_cases hb : base' = base
  · subst hb
    have hema : (s.setEma base' (s.nextEma base' bits.cpop.toNat)).ema base' =
        some (s.nextEma base' bits.cpop.toNat) := Function.update_self _ _ _
    simp only [hema,readEma]
    exact onlyIn_moved (fun j hj => hs.count_le h hj) (home (s.nextEma base' bits.cpop.toNat))
  · have hold := hs base'
    have hema : (s.setEma base (s.nextEma base bits.cpop.toNat)).ema base' = s.ema base' :=
      Function.update_of_ne hb _ _
    simp only [hema]
    cases he : s.ema base' with
    | none =>
      simp only [he] at hold ⊢
      intro j hj
      rw [← List.count_eq_zero,count_moved_of_ne hb]
      exact List.count_eq_zero_of_not_mem (hold j hj)
    | some ema =>
      simp only [he] at hold ⊢
      exact OnlyIn.moved_of_ne hold hb _ _

lemma updateRegion_fault {s : Regions} {entry : UInt64 × BitVec numBasePages}
    (h : ¬ s.NamesBucket entry.1) : s.updateRegion entry = .error .bucketIndex := by
  obtain ⟨ema,hema⟩ := not_forall.mp h
  obtain ⟨he,hout⟩ := Classical.not_imp.mp hema
  refine changeBucket_fault _ _ _ fun hin => hout ?_
  rwa [trunc_inBuckets,readEma,he] at hin

/-- The loop over the entries of `coverage`, whatever their order. -/
lemma updateRegions_spec {s : Regions} (hs : s.Sorted)
    {entries : List (UInt64 × BitVec numBasePages)} (hnodup : (entries.map Prod.fst).Nodup)
    (h : ∀ entry ∈ entries, s.NamesBucket entry.1) :
    ∃ s', s.updateRegions entries = .ok s' ∧ s'.Sorted ∧
      (∀ entry ∈ entries, s'.ema entry.1 ≠ none) ∧
      ∀ base, base ∉ entries.map Prod.fst → s'.ema base = s.ema base := by
  induction entries generalizing s with
  | nil => exact ⟨s,rfl,hs,by simp,fun _ _ => rfl⟩
  | cons entry entries ih =>
    obtain ⟨hout,hnodup⟩ := List.nodup_cons.mp hnodup
    obtain ⟨s₁,hstep,hs₁,hema⟩ := updateRegion_spec hs entry (h entry (by simp))
    have hother : ∀ base, base ≠ entry.1 → s₁.ema base = s.ema base := fun base hb => by
      rw [hema,Function.update_of_ne hb]
    have hrest : ∀ e ∈ entries, s₁.NamesBucket e.1 := fun e he => by
      have hne : e.1 ≠ entry.1 := fun heq => hout (heq ▸ List.mem_map_of_mem he)
      unfold NamesBucket
      rw [hother e.1 hne]
      exact h e (by simp [he])
    obtain ⟨s',hloop,hs',hin,hkeep⟩ := ih hs₁ hnodup hrest
    refine ⟨s',?_,hs',fun e he => ?_,fun base hb => ?_⟩
    · rw [updateRegions,List.foldlM_cons,hstep]
      exact hloop
    · rcases List.mem_cons.mp he with rfl | he
      · rw [hkeep _ hout,hema,Function.update_self]
        exact Option.some_ne_none _
      · exact hin e he
    · rw [List.map_cons,List.mem_cons,not_or] at hb
      rw [hkeep base hb.2,hother base hb.1]

/-- An average outside the buckets is met, at the latest, when its own region is updated. -/
lemma updateRegions_fault {s : Regions} (hs : s.Sorted)
    {entries : List (UInt64 × BitVec numBasePages)} (hnodup : (entries.map Prod.fst).Nodup)
    {entry : UInt64 × BitVec numBasePages} (hmem : entry ∈ entries)
    (h : ¬ s.NamesBucket entry.1) : s.updateRegions entries = .error .bucketIndex := by
  induction entries generalizing s with
  | nil => simp at hmem
  | cons first entries ih =>
    obtain ⟨hout,hnodup⟩ := List.nodup_cons.mp hnodup
    rw [updateRegions,List.foldlM_cons]
    by_cases hfirst : s.NamesBucket first.1
    · have hne : entry ≠ first := by rintro rfl; exact h hfirst
      have hmem' := (List.mem_cons.mp hmem).resolve_left hne
      obtain ⟨s₁,hstep,hs₁,hema⟩ := updateRegion_spec hs first hfirst
      have hkey : entry.1 ≠ first.1 := fun heq => hout (heq ▸ List.mem_map_of_mem hmem')
      rw [hstep]
      refine ih hs₁ hnodup hmem' ?_
      unfold NamesBucket
      rwa [hema,Function.update_of_ne hkey]
    · rw [updateRegion_fault hfirst]
      rfl

/-- A scan that goes through leaves averages and buckets alone, and none uses an index
outside the buckets. -/
def Keeps (s : Regions) (r : Except Fault (List UInt64 × Regions)) : Prop :=
  r ≠ .error .bucketIndex ∧
    ∀ visited s', r = .ok (visited,s') → s'.ema = s.ema ∧ s'.buckets = s.buckets

lemma visit_ema {s : Regions} (hs : s.Sorted) {base : UInt64} {b : ℕ} (hb : b < numBuckets)
    (hmem : base ∈ s.buckets b) : (s.visit base).2.ema = s.ema := by
  have hplace := hs base
  have htouch : s.touchEma base = s := by
    unfold touchEma
    cases he : s.ema base with
    | none =>
      simp only [he] at hplace
      exact absurd hmem (hplace b hb)
    | some ema => rfl
  simp only [visit,htouch]
  split <;> rfl

lemma Sorted.congr {s s' : Regions} (hs : s.Sorted) (hema : s'.ema = s.ema)
    (hbuckets : s'.buckets = s.buckets) : s'.Sorted := by
  unfold Sorted Placed
  rw [hema,hbuckets]
  exact hs

lemma keeps_ok {s s' : Regions} (visited : List UInt64) (hema : s'.ema = s.ema)
    (hbuckets : s'.buckets = s.buckets) : s.Keeps (.ok (visited,s')) := by
  refine ⟨by simp,fun visited' t h => ?_⟩
  obtain ⟨-,rfl⟩ : visited = visited' ∧ s' = t := by simpa using h
  exact ⟨hema,hbuckets⟩

lemma keeps_error (s : Regions) {fault : Fault} (h : fault ≠ .bucketIndex) :
    s.Keeps (.error fault) := ⟨by simpa using h,by simp⟩

lemma Keeps.cons {s s' : Regions} {r : Except Fault (List UInt64 × Regions)} (h : s'.Keeps r)
    (hema : s'.ema = s.ema) (hbuckets : s'.buckets = s.buckets) (base : UInt64) :
    s.Keeps ((fun r => (base :: r.1,r.2)) <$> r) := by
  cases r with
  | error fault => exact keeps_error s fun hf => h.1 (by rw [hf])
  | ok p =>
    obtain ⟨he,hb⟩ := h.2 p.1 p.2 rfl
    exact keeps_ok _ (he.trans hema) (hb.trans hbuckets)

lemma promotionLoop_keeps (fuel : ℕ) {s : Regions} (hs : s.Sorted) {b : ℕ} (idx n : ℕ)
    (hb : b < numBuckets) : s.Keeps (promotionLoop fuel s (b+1) idx n) := by
  induction fuel generalizing s b idx n with
  | zero => exact keeps_error s (by decide)
  | succ fuel ih =>
    by_cases hn : maxNumPromotions ≤ n
    · rw [promotionLoop,if_pos hn]
      exact keeps_ok [] rfl rfl
    · have hread := readAt_eq s idx hb
      cases hat : (s.buckets b)[idx]? with
      | none =>
        rw [hat] at hread
        rw [promotionLoop,if_neg hn,hread]
        exact keeps_error s (by decide)
      | some base =>
        rw [hat] at hread
        have hema := visit_ema hs hb (List.mem_of_getElem? hat)
        have hbuckets := visit_buckets s base
        rw [promotionLoop_succ fuel s hn hread]
        rcases skipEmpty_spec (s.visit base).2 (b+1) (idx+1) with
          ⟨-,hzero⟩ | ⟨c,i,he,hc,-,-⟩
        · rw [if_pos hzero]
          exact keeps_ok _ hema hbuckets
        · rw [he,if_neg (by omega)]
          exact (ih (hs.congr hema hbuckets) _ _ (by omega)).cons hema hbuckets base

lemma promotionScan_keeps {s : Regions} (hs : s.Sorted) : s.Keeps s.promotionScan :=
  promotionLoop_keeps _ hs 0 0 (b := numBuckets-1) (by decide)

/-- Every region of coverage is once in the bucket of its average, and in no other. -/
def InHome (s : Regions) (c : Coverage) : Prop :=
  ∀ base, c.get? base ≠ none → ∃ ema, s.ema base = some ema ∧ s.Placed base (home ema)

lemma Sorted.inHome {s : Regions} (hs : s.Sorted) {c : Coverage}
    (h : ∀ base, c.get? base ≠ none → s.ema base ≠ none) : s.InHome c := by
  intro base hb
  obtain ⟨ema,he⟩ := Option.ne_none_iff_exists'.mp (h base hb)
  have hplace := hs base
  simp only [he] at hplace
  exact ⟨ema,he,hplace⟩

lemma InHome.congr {s s' : Regions} {c : Coverage} (h : s.InHome c) (hema : s'.ema = s.ema)
    (hbuckets : s'.buckets = s.buckets) : s'.InHome c := by
  unfold InHome Placed
  rw [hema,hbuckets]
  exact h

/-- A summary in any order of the coverage map, if the averages it meets name buckets. -/
lemma summarize_spec {s : Regions} (hs : s.Sorted) (c : Coverage) (it : Iteration)
    (h : ∀ base, c.get? base ≠ none → s.NamesBucket base) :
    ∃ r, s.updateRegions (it.visit c.entries) = .ok r ∧ r.Sorted ∧ r.InHome c ∧
      (∀ base, c.get? base = none → r.ema base = s.ema base) ∧
      r.Keeps (s.summarize (it.visit c.entries)) := by
  have hperm := it.perm c.entries
  have hkeys : ∀ base, base ∈ (it.visit c.entries).map Prod.fst ↔ c.get? base ≠ none := by
    intro base
    rw [(hperm.map Prod.fst).mem_iff,c.mem_keys]
  have hnodup := ((hperm.map Prod.fst).nodup_iff).mpr c.nodup
  obtain ⟨r,hok,hr,hin,hkeep⟩ := updateRegions_spec hs hnodup
    fun entry he => h entry.1 ((hkeys entry.1).mp (List.mem_map_of_mem he))
  refine ⟨r,hok,hr,hr.inHome fun base hb => ?_,fun base hb => ?_,?_⟩
  · obtain ⟨entry,he,rfl⟩ := List.mem_map.mp ((hkeys base).mpr hb)
    exact hin entry he
  · exact hkeep base fun hm => (hkeys base).mp hm hb
  · rw [summarize,hok]
    exact promotionScan_keeps hr

lemma updateRegions_out {s : Regions} (hs : s.Sorted) (c : Coverage) (it : Iteration)
    {base : UInt64} (hb : c.get? base ≠ none) (h : ¬ s.NamesBucket base) :
    s.updateRegions (it.visit c.entries) = .error .bucketIndex := by
  have hperm := it.perm c.entries
  obtain ⟨entry,he,rfl⟩ := List.mem_map.mp ((c.mem_keys base).mpr hb)
  exact updateRegions_fault hs (((hperm.map Prod.fst).nodup_iff).mpr c.nodup)
    (hperm.mem_iff.mpr he) h

end Regions

variable {cfg : Pcc.Config}

/-- The buckets after an access: no index outside them was used, and a summary puts every
region of coverage into its bucket, before the promotion scan and at the end of the call. -/
structure BucketsExact (cfg : Pcc.Config) (s : HawkeyeState) (a : Access) : Prop where
  index : hawkeyeTrackAccess cfg s a ≠ .error .bucketIndex
  updated : ∀ c t, s.tracker.trackAccess cfg a.vaddr = .ok (some c,t) →
    ∃ r, s.regions.updateRegions (a.iteration.visit c.entries) = .ok r ∧ r.InHome c
  completed : ∀ c t s', s.tracker.trackAccess cfg a.vaddr = .ok (some c,t) →
    hawkeyeTrackAccess cfg s a = .ok s' → s'.regions.InHome c

/-- When the access completes a window, the stored averages name buckets. -/
def EmasInBuckets (cfg : Pcc.Config) (s : HawkeyeState) : Prop :=
  s.tracker.SummaryDue cfg → ∀ base, s.regions.NamesBucket base

/-- The buckets are in order, and only regions of coverage have averages. -/
structure Consistent (s : HawkeyeState) : Prop where
  sorted : s.regions.Sorted
  known : ∀ base, s.regions.ema base ≠ none → s.tracker.coverage.get? base ≠ none

lemma consistent_init : Consistent {} := ⟨Regions.sorted_init,fun _ h => absurd rfl h⟩

lemma bucketsExact_notDue {s : HawkeyeState} (hs : Consistent s) (a : Access)
    (h : ¬ s.tracker.SummaryDue cfg) : BucketsExact cfg s a ∧
      ∀ s', hawkeyeTrackAccess cfg s a = .ok s' → Consistent s' := by
  have heq := hawkeyeTrackAccess_eq cfg s a
  obtain ⟨t,hok,hkeep⟩ := Tracker.trackAccess_notDue h a.vaddr
  rw [hok] at heq
  refine ⟨⟨by simp [heq],by simp [hok],by simp [hok]⟩,fun s' hs' => ?_⟩
  obtain rfl := Except.ok.inj (heq.symm.trans hs')
  exact ⟨hs.sorted,fun base hb => hkeep base (hs.known base hb)⟩

lemma bucketsExact_due {s : HawkeyeState} (hs : Consistent s) (a : Access)
    (h : s.tracker.SummaryDue cfg) (hnames : ∀ base, s.regions.NamesBucket base) :
    BucketsExact cfg s a ∧ ∀ s', hawkeyeTrackAccess cfg s a = .ok s' → Consistent s' := by
  have htrack := Tracker.trackAccess_due h a.vaddr
  have heq := hawkeyeTrackAccess_eq cfg s a
  rw [htrack] at heq
  obtain ⟨r,hr,hrs,hhome,hother,hindex,hkeep⟩ := Regions.summarize_spec hs.sorted
    (s.tracker.coverage.touch a.vaddr) a.iteration fun base _ => hnames base
  have hdone : ∀ s', hawkeyeTrackAccess cfg s a = .ok s' →
      s'.tracker.coverage = (s.tracker.coverage.touch a.vaddr).clear ∧
      s'.regions.ema = r.ema ∧ s'.regions.buckets = r.buckets := by
    intro s' hs'
    obtain ⟨p,hp,rfl⟩ := map_eq_ok (heq.symm.trans hs')
    exact ⟨rfl,hkeep p.1 p.2 hp⟩
  refine ⟨⟨fun hf => hindex (map_eq_error (heq.symm.trans hf)),fun c t hc => ?_,
    fun c t s' hc hs' => ?_⟩,fun s' hs' => ?_⟩
  · obtain ⟨rfl,rfl⟩ : s.tracker.coverage.touch a.vaddr = c ∧ _ = t := by simpa [htrack] using hc
    exact ⟨r,hr,hhome⟩
  · obtain ⟨rfl,rfl⟩ : s.tracker.coverage.touch a.vaddr = c ∧ _ = t := by simpa [htrack] using hc
    exact hhome.congr (hdone s' hs').2.1 (hdone s' hs').2.2
  · obtain ⟨hcov,hema,hbuckets⟩ := hdone s' hs'
    refine ⟨hrs.congr hema hbuckets,fun base hb => ?_⟩
    rw [hcov]
    refine Coverage.clear_keeps fun hnone => ?_
    rw [hema,hother base hnone] at hb
    exact Coverage.touch_keeps a.vaddr (hs.known base hb) hnone

/-- The first summary that meets a stored average outside the buckets uses it as an index. -/
lemma not_bucketsExact {s : HawkeyeState} (hs : Consistent s) (a : Access)
    (h : ¬ EmasInBuckets cfg s) : ¬ BucketsExact cfg s a := by
  obtain ⟨hdue,hout⟩ := Classical.not_imp.mp h
  obtain ⟨base,hbase⟩ := not_forall.mp hout
  have hema : s.regions.ema base ≠ none := fun he => hbase fun ema h' => by simp [he] at h'
  intro hexact
  obtain ⟨r,hr,-⟩ := hexact.updated _ _ (Tracker.trackAccess_due hdue a.vaddr)
  rw [Regions.updateRegions_out hs.sorted _ a.iteration
    (Coverage.touch_keeps a.vaddr (hs.known base hema)) hbase] at hr
  cases hr

theorem bucketsExact_iff (cfg : Pcc.Config) (trace : List Access) :
    EachStep (hawkeyeTrackAccess cfg) {} trace (fun _ s a => BucketsExact cfg s a) ↔
      EachStep (hawkeyeTrackAccess cfg) {} trace (fun _ s _ => EmasInBuckets cfg s) := by
  apply eachStep_iff (I := fun _ s => Consistent s)
  · exact consistent_init
  · intro _ s a hs h
    by_cases hdue : s.tracker.SummaryDue cfg
    · exact bucketsExact_due hs a hdue (h hdue)
    · exact bucketsExact_notDue hs a hdue
  · exact fun _ s a hs h => not_bucketsExact hs a h

/-- The map is iterated in the order of insertion. -/
def insertionOrder : Iteration := ⟨id,fun _ => .refl _⟩

/-- Access `i` of a trace over the first 500 pages. -/
def pageAccess (i : ℕ) : Access := ⟨UInt64.ofNat (i % 500)*4096,insertionOrder⟩

/-- After one window on 500 pages of a region its average is 500, and the second summary
looks for it in `buckets[10]`. -/
theorem not_bucketsExact_of_fullRegion : ¬ ∀ (cfg : Pcc.Config) (trace : List Access),
    EachStep (hawkeyeTrackAccess cfg) {} trace (fun _ s a => BucketsExact cfg s a) := by
  intro h
  have hrun := h ⟨1,500,by decide,by decide⟩ ((List.range 1500).map pageAccess)
  obtain ⟨s,hs,htest⟩ := exists_of_endsWith (hawkeyeTrackAccess ⟨1,500,by decide,by decide⟩) {}
    ((List.range 1499).map pageAccess) (fun s => match hawkeyeTrackAccess
      ⟨1,500,by decide,by decide⟩ s (pageAccess 1499) with
      | .error .bucketIndex => true
      | _ => false) (by decide +kernel)
  have hpre : ∀ n, (List.range n).map pageAccess ++ [pageAccess n] <+:
      (List.range (n+1)).map pageAccess := fun n => by
    simp [List.range_succ]
  refine (hrun _ _ (hpre 1499) s hs).index ?_
  split at htest
  · assumption
  · cases htest

end ElasticTranslations.Hawkeye
