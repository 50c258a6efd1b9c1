import ElasticTranslations.Hawkeye.Tracker
import ElasticTranslations.Structures.Numbers

/-! The regions of the Hawkeye simulator: a moving average of the coverage of each, buckets
of regions by that average, and the promotions chosen from the highest buckets down. The
averages are exact rationals in place of `double`, converted to `int` toward zero. -/
namespace ElasticTranslations.Hawkeye
open Structures

def alpha : ℚ := 19/10

/-- The globals that `summarize` writes. The array `buckets` has the indices below
`numBuckets`. -/
structure Regions where
  ema : UInt64 → Option ℚ := fun _ => none
  buckets : ℕ → List UInt64 := fun _ => []
  hawkeyePromotions : UInt64 → Option UInt16 := fun _ => none

/-- An index into `buckets`. -/
def bucketAt (i : ℤ) : Except Fault ℕ :=
  if 0 ≤ i ∧ i < numBuckets then return i.toNat else throw .bucketIndex

namespace Regions

/-- `change_bucket`. Only the new bucket is clamped. -/
def changeBucket (s : Regions) (base : UInt64) (oldBucket newBucket : ℤ) :
    Except Fault Regions := do
  let newBucket := if newBucket < 0 then 0 else newBucket
  let newBucket := if newBucket > (numBuckets : ℤ)-1 then (numBuckets : ℤ)-1 else newBucket
  let old ← bucketAt oldBucket
  let buckets := Function.update s.buckets old ((s.buckets old).erase base)
  let new ← bucketAt newBucket
  return { s with buckets := Function.update buckets new (buckets new ++ [base]) }

/-- The average after a window; the first one is the coverage. -/
def nextEma (s : Regions) (base : UInt64) (accCov : ℚ) : ℚ :=
  match s.ema base with
  | some ema => alpha*ema + (1-alpha)*accCov
  | none => accCov

def setEma (s : Regions) (base : UInt64) (ema : ℚ) : Regions :=
  { s with ema := Function.update s.ema base (some ema) }

/-- `ema[base]` as an rvalue, which reads zero where it makes the entry. -/
def readEma (s : Regions) (base : UInt64) : ℚ := (s.ema base).getD 0

/-- One round of the loop over `coverage`. -/
def updateRegion (s : Regions) (entry : UInt64 × BitVec numBasePages) : Except Fault Regions :=
  let base := entry.1
  let accCov : ℚ := entry.2.cpop.toNat
  let accEma := s.nextEma base accCov
  let oldBucket := trunc (s.readEma base/bucketSize)
  let s := s.setEma base accEma
  let newBucket := trunc (s.readEma base/bucketSize)
  s.changeBucket base oldBucket newBucket

def updateRegions (s : Regions) (entries : List (UInt64 × BitVec numBasePages)) :
    Except Fault Regions :=
  entries.foldlM updateRegion s

/-- `buckets[bucket_idx][idx]`. The cursor is `bucket_idx+1`, zero for the value -1. -/
def readAt (s : Regions) (cursor idx : ℕ) : Except Fault UInt64 := do
  let b ← bucketAt ((cursor : ℤ)-1)
  match (s.buckets b)[idx]? with
  | some base => return base
  | none => throw .elementIndex

/-- The inner loop: past the end of a bucket to the first element of a lower one. -/
def skipEmpty (s : Regions) : ℕ → ℕ → ℕ × ℕ
  | 0,idx => (0,idx)
  | b+1,idx => if (s.buckets b).length ≤ idx then skipEmpty s b 0 else (b+1,idx)

/-- The printed line reads `ema[base]`. -/
def touchEma (s : Regions) (base : UInt64) : Regions :=
  match s.ema base with
  | some _ => s
  | none => s.setEma base 0

/-- `repeat_promotion` and the counters after a region is visited. -/
def visit (s : Regions) (base : UInt64) : Bool × Regions :=
  let s := s.touchEma base
  match s.hawkeyePromotions base with
  | none => (false,{ s with
      hawkeyePromotions := Function.update s.hawkeyePromotions base (some 0) })
  | some n => (true,{ s with
      hawkeyePromotions := Function.update s.hawkeyePromotions base (some (n+1)) })

/-- The loop at the end of `summarize`, with the regions it prints. -/
def promotionLoop : ℕ → Regions → ℕ → ℕ → ℕ → Except Fault (List UInt64 × Regions)
  | 0,_,_,_,_ => throw .unterminated
  | fuel+1,s,cursor,idx,numPromotions =>
    if maxNumPromotions ≤ numPromotions then return ([],s) else do
    let base ← s.readAt cursor idx
    let (repeatPromotion,s) := s.visit base
    let (cursor,idx) := s.skipEmpty cursor (idx+1)
    if cursor = 0 then return ([base],s)
    else
      let numPromotions := if repeatPromotion then numPromotions else numPromotions+1
      let (visited,s) ← promotionLoop fuel s cursor idx numPromotions
      return (base :: visited,s)

/-- Every round visits an element of the buckets. -/
def scanFuel (s : Regions) : ℕ := ((List.range numBuckets).map fun b => (s.buckets b).length).sum+1

def promotionScan (s : Regions) : Except Fault (List UInt64 × Regions) :=
  promotionLoop s.scanFuel s numBuckets 0 0

/-- `summarize` over the entries of `coverage` in the order of iteration. -/
def summarize (s : Regions) (entries : List (UInt64 × BitVec numBasePages)) :
    Except Fault (List UInt64 × Regions) := do
  let s ← s.updateRegions entries
  s.promotionScan

end Regions

/-- An order in which a hash map may be iterated. -/
structure Iteration where
  visit : List (UInt64 × BitVec numBasePages) → List (UInt64 × BitVec numBasePages)
  perm : ∀ entries, (visit entries).Perm entries

/-- An access of the trace and the order of the iteration, should it be summarized. -/
structure Access where
  vaddr : UInt64
  iteration : Iteration

structure HawkeyeState where
  tracker : Tracker := {}
  regions : Regions := {}

def hawkeyeTrackAccess (cfg : Pcc.Config) (s : HawkeyeState) (a : Access) :
    Except Fault HawkeyeState := do
  let (due,tracker) ← s.tracker.trackAccess cfg a.vaddr
  match due with
  | none => return { s with tracker := tracker }
  | some coverage =>
    let (_,regions) ← s.regions.summarize (a.iteration.visit coverage.entries)
    return ⟨tracker,regions⟩

end ElasticTranslations.Hawkeye
