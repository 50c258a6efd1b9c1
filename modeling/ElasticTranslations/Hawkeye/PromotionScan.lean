import ElasticTranslations.Hawkeye.Regions
import ElasticTranslations.Structures.Buckets
import Mathlib.Tactic.Common

/-! The loop at the end of `summarize`. Its cursor passes empty buckets only after the first
read, so it starts with an element of bucket 9 whether there is one or not. -/
namespace ElasticTranslations.Hawkeye
open Structures

namespace Regions

/-- The regions of the buckets from the highest bucket down, by position in each. -/
def scanOrder (s : Regions) : List UInt64 := ((List.range numBuckets).reverse.map s.buckets).flatten

/-- A region that was not promoted yet. -/
def fresh (s : Regions) (base : UInt64) : Bool := (s.hawkeyePromotions base).isNone

/-- What is left of the scan order from the cursor on. -/
def remaining (s : Regions) : ℕ → ℕ → List UInt64
  | 0,_ => []
  | b+1,idx => (s.buckets b).drop idx ++ remaining s b 0

lemma remaining_start (s : Regions) (b : ℕ) :
    s.remaining b 0 = ((List.range b).reverse.map s.buckets).flatten := by
  induction b with
  | zero => rfl
  | succ b ih => simp [remaining,ih,List.range_succ]

lemma remaining_congr {s s' : Regions} (h : s'.buckets = s.buckets) (b idx : ℕ) :
    s'.remaining b idx = s.remaining b idx := by
  induction b generalizing idx with
  | zero => rfl
  | succ b ih => rw [remaining,remaining,h,ih]

lemma remaining_read (s : Regions) {b idx : ℕ} (h : idx < (s.buckets b).length) :
    s.remaining (b+1) idx = (s.buckets b)[idx] :: s.remaining (b+1) (idx+1) := by
  rw [remaining,remaining,List.drop_eq_getElem_cons h]
  rfl

/-- The cursor is passed on to the next element, if any is left. -/
lemma skipEmpty_spec (s : Regions) (cursor idx : ℕ) :
    (s.remaining cursor idx = [] ∧ (s.skipEmpty cursor idx).1 = 0) ∨
    ∃ b i, s.skipEmpty cursor idx = (b+1,i) ∧ b < cursor ∧ i < (s.buckets b).length ∧
      s.remaining (b+1) i = s.remaining cursor idx := by
  induction cursor generalizing idx with
  | zero => exact .inl ⟨rfl,rfl⟩
  | succ b ih =>
    by_cases hend : (s.buckets b).length ≤ idx
    · have hrest : s.remaining (b+1) idx = s.remaining b 0 := by
        rw [remaining,List.drop_eq_nil_of_le hend,List.nil_append]
      rw [skipEmpty,if_pos hend,hrest]
      rcases ih 0 with hdone | ⟨c,i,he,hc,hi,hr⟩
      · exact .inl hdone
      · exact .inr ⟨c,i,he,by omega,hi,hr⟩
    · rw [skipEmpty,if_neg hend]
      exact .inr ⟨b,idx,rfl,by omega,by omega,rfl⟩

lemma readAt_eq (s : Regions) {b : ℕ} (idx : ℕ) (hb : b < numBuckets) :
    s.readAt (b+1) idx = match (s.buckets b)[idx]? with
      | some base => .ok base
      | none => .error .elementIndex := by
  have hat : bucketAt ((b+1 : ℕ) - 1 : ℤ) = .ok b := by
    rw [bucketAt,if_pos (by omega)]
    simp [pure,Except.pure]
  rw [readAt,hat]
  rfl

lemma touchEma_promotions (s : Regions) (base : UInt64) :
    (s.touchEma base).hawkeyePromotions = s.hawkeyePromotions := by
  unfold touchEma
  split <;> rfl

lemma touchEma_buckets (s : Regions) (base : UInt64) :
    (s.touchEma base).buckets = s.buckets := by
  unfold touchEma
  split <;> rfl

/-- The counter of a region after a visit. -/
def counted : Option UInt16 → UInt16
  | none => 0
  | some n => n+1

lemma visit_fst (s : Regions) (base : UInt64) : (s.visit base).1 = !s.fresh base := by
  simp only [visit,fresh,touchEma_promotions]
  cases s.hawkeyePromotions base <;> rfl

lemma visit_buckets (s : Regions) (base : UInt64) : (s.visit base).2.buckets = s.buckets := by
  rw [← touchEma_buckets s base]
  simp only [visit]
  split <;> rfl

lemma visit_promotions (s : Regions) (base : UInt64) : (s.visit base).2.hawkeyePromotions =
    Function.update s.hawkeyePromotions base (some (counted (s.hawkeyePromotions base))) := by
  simp only [visit,touchEma_promotions]
  cases s.hawkeyePromotions base <;> rfl

lemma visit_fresh (s : Regions) {base base' : UInt64} (h : base' ≠ base) :
    (s.visit base).2.fresh base' = s.fresh base' := by
  rw [fresh,fresh,visit_promotions,Function.update_of_ne h]

/-- The regions visited one after another. -/
def visitAll (s : Regions) (visited : List UInt64) : Regions :=
  visited.foldl (fun s base => (s.visit base).2) s

lemma visitAll_promotions (s : Regions) {visited : List UInt64} (h : visited.Nodup)
    (base : UInt64) : (s.visitAll visited).hawkeyePromotions base =
      if base ∈ visited then some (counted (s.hawkeyePromotions base))
      else s.hawkeyePromotions base := by
  induction visited generalizing s with
  | nil => rfl
  | cons x visited ih =>
    obtain ⟨hx,hnodup⟩ := List.nodup_cons.mp h
    have hstep := ih (s.visit x).2 hnodup
    rw [visit_promotions] at hstep
    by_cases hb : base = x
    · subst hb
      simpa [hx,visitAll] using hstep
    · simpa [hb,visitAll] using hstep

/-- One round of the loop, up to the recursive call. -/
lemma promotionLoop_succ (fuel : ℕ) (s : Regions) {cursor idx n : ℕ} {base : UInt64}
    (hn : ¬ maxNumPromotions ≤ n) (hread : s.readAt cursor idx = .ok base) :
    promotionLoop (fuel+1) s cursor idx n =
      if ((s.visit base).2.skipEmpty cursor (idx+1)).1 = 0 then .ok ([base],(s.visit base).2)
      else (fun r => (base :: r.1,r.2)) <$> promotionLoop fuel (s.visit base).2
        ((s.visit base).2.skipEmpty cursor (idx+1)).1 ((s.visit base).2.skipEmpty cursor (idx+1)).2
        (if s.fresh base then n+1 else n) := by
  have hrepeat := visit_fst s base
  have hread' : s.readAt cursor idx = pure base := hread
  rw [promotionLoop,if_neg hn,hread',pure_bind]
  generalize s.visit base = v at hrepeat ⊢
  obtain ⟨repeated,s'⟩ := v
  obtain rfl : repeated = !s.fresh base := hrepeat
  change (if (s'.skipEmpty cursor (idx+1)).1 = 0 then _ else _) = _
  by_cases hend : (s'.skipEmpty cursor (idx+1)).1 = 0
  · rw [if_pos hend,if_pos hend]
    rfl
  · rw [if_neg hend,if_neg hend]
    cases s.fresh base <;> rfl

/-- The loop from a cursor at an element is the bounded scan of what is left. -/
theorem promotionLoop_eq (fuel : ℕ) (s : Regions) {b : ℕ} (idx n : ℕ) (hb : b < numBuckets)
    (hidx : idx < (s.buckets b).length) (hnodup : (s.remaining (b+1) idx).Nodup)
    (hfuel : (s.remaining (b+1) idx).length < fuel) :
    promotionLoop fuel s (b+1) idx n =
      .ok (throughNth s.fresh (maxNumPromotions-n) (s.remaining (b+1) idx),
        s.visitAll (throughNth s.fresh (maxNumPromotions-n) (s.remaining (b+1) idx))) := by
  induction fuel generalizing s b idx n with
  | zero => omega
  | succ fuel ih =>
    by_cases hn : maxNumPromotions ≤ n
    · rw [Nat.sub_eq_zero_of_le hn,throughNth_zero,promotionLoop,if_pos hn]
      rfl
    obtain ⟨k,hk⟩ : ∃ k, maxNumPromotions - n = k+1 := ⟨maxNumPromotions-n-1,by omega⟩
    have hread : s.readAt (b+1) idx = .ok (s.buckets b)[idx] := by
      rw [readAt_eq s idx hb,List.getElem?_eq_getElem hidx]
    rw [promotionLoop_succ fuel s hn hread,hk]
    rw [remaining_read s hidx] at hnodup hfuel ⊢
    generalize (s.buckets b)[idx] = x at *
    obtain ⟨hx,hnodup⟩ := List.nodup_cons.mp hnodup
    have hrest : (s.visit x).2.remaining (b+1) (idx+1) = s.remaining (b+1) (idx+1) :=
      remaining_congr (visit_buckets s x) _ _
    have hcount : maxNumPromotions - (if s.fresh x then n+1 else n) =
        if s.fresh x then k else k+1 := by
      split <;> omega
    rcases skipEmpty_spec (s.visit x).2 (b+1) (idx+1) with ⟨hnil,hzero⟩ | ⟨c,i,he,hc,hi,hr⟩
    · -- the last element of the scan
      rw [hrest] at hnil
      rw [if_pos hzero,hnil,throughNth,throughNth_nil]
      rfl
    · rw [hrest] at hr
      rw [he,if_neg (by omega),ih _ _ _ (by omega) hi (by rwa [hr])
        (by rw [hr]; simpa using hfuel),hr,hcount,throughNth]
      have hfresh : throughNth (s.visit x).2.fresh (if s.fresh x then k else k+1)
          (s.remaining (b+1) (idx+1)) =
          throughNth s.fresh (if s.fresh x then k else k+1) (s.remaining (b+1) (idx+1)) :=
        throughNth_congr (fun y hy => visit_fresh s (by rintro rfl; exact hx hy)) _
      rw [hfresh]
      rfl

lemma length_scanOrder (s : Regions) : s.scanOrder.length + 1 = s.scanFuel := by
  rw [scanOrder,scanFuel,List.length_flatten,List.map_map]
  simp [Function.comp_def,List.sum_reverse]

/-- The scan as `summarize` means it. -/
structure ScansRightly (s : Regions) (visited : List UInt64) (s' : Regions) : Prop where
  /-- The regions visited are those of the scan order up to the last one to be promoted. -/
  order : visited = throughNth s.fresh maxNumPromotions s.scanOrder
  once : visited.Nodup
  added : visited.filter s.fresh = (s.scanOrder.filter s.fresh).take maxNumPromotions
  promotions : ∀ base, s'.hawkeyePromotions base = match s.hawkeyePromotions base with
    | none => if base ∈ (s.scanOrder.filter s.fresh).take maxNumPromotions then some 0 else none
    | some n => if base ∈ visited then some (n+1) else some n

lemma scansRightly_visitAll {s : Regions} (hnodup : s.scanOrder.Nodup) :
    ScansRightly s (throughNth s.fresh maxNumPromotions s.scanOrder)
      (s.visitAll (throughNth s.fresh maxNumPromotions s.scanOrder)) := by
  have hadded := filter_throughNth s.fresh maxNumPromotions s.scanOrder
  have honce := (throughNth_initial s.fresh maxNumPromotions s.scanOrder).sublist.nodup hnodup
  refine ⟨rfl,honce,hadded,fun base => ?_⟩
  rw [visitAll_promotions s honce,← hadded]
  cases hp : s.hawkeyePromotions base with
  | none => simp [counted,List.mem_filter,fresh,hp]
  | some n => rfl

/-- The first read is beyond the end of an empty bucket. -/
lemma promotionScan_empty {s : Regions} (h : s.buckets (numBuckets-1) = []) :
    s.promotionScan = .error .elementIndex := by
  have hread : s.readAt numBuckets 0 = .error .elementIndex := by
    rw [show numBuckets = (numBuckets-1)+1 by decide,readAt_eq s 0 (by decide),h]
    rfl
  rw [promotionScan,scanFuel,promotionLoop,if_neg (by decide),hread]
  rfl

theorem promotionScan_iff (s : Regions) (hnodup : s.scanOrder.Nodup) :
    (∃ visited s', s.promotionScan = .ok (visited,s') ∧ ScansRightly s visited s') ↔
      s.buckets (numBuckets-1) ≠ [] := by
  constructor
  · rintro ⟨visited,s',hscan,-⟩ hempty
    rw [promotionScan_empty hempty] at hscan
    cases hscan
  · intro hne
    have horder : s.remaining (numBuckets-1+1) 0 = s.scanOrder := remaining_start s numBuckets
    have hloop := promotionLoop_eq s.scanFuel s (b := numBuckets-1) 0 0 (by decide)
      (List.length_pos_of_ne_nil hne) (by rwa [horder])
      (by rw [horder,← length_scanOrder]; omega)
    rw [horder] at hloop
    exact ⟨_,_,hloop,scansRightly_visitAll hnodup⟩

/-- One region, in bucket 0. -/
theorem not_promotionScan_lowBucket : ¬ ∀ s : Regions, s.scanOrder ≠ [] → s.scanOrder.Nodup →
    ∃ visited s', s.promotionScan = .ok (visited,s') ∧ ScansRightly s visited s' := by
  intro h
  obtain ⟨visited,s',hscan,-⟩ :=
    h { buckets := fun b => if b = 0 then [1] else [] } (by decide) (by decide)
  rw [promotionScan_empty (by decide)] at hscan
  cases hscan

theorem promotionScan_highBucket :
    ∃ visited s', promotionScan { buckets := fun b => if b = 9 then [1,2] else [] } =
        .ok (visited,s') ∧
      ScansRightly { buckets := fun b => if b = 9 then [1,2] else [] } visited s' :=
  (promotionScan_iff { buckets := fun b => if b = 9 then [1,2] else [] } (by decide)).mpr
    (by decide)

end Regions
end ElasticTranslations.Hawkeye
