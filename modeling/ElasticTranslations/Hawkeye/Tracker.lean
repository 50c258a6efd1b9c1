import ElasticTranslations.Pcc.TrackAccess
import ElasticTranslations.Structures.Dict

/-! The sampling of accesses in the Hawkeye simulator: coverage bits of the base pages
touched in one interval, then a gap in which accesses are only counted. -/
namespace ElasticTranslations.Hawkeye
open Structures

/-- Steps that leave the language: a vector of `buckets` or an element of one that does not
exist, a coverage bit beyond the bitset. -/
inductive Fault where
  | bucketIndex
  | elementIndex
  | bitIndex
  | unterminated
  deriving DecidableEq

def numBuckets : ℕ := 10
def bucketSize : ℕ := 50
def numBasePages : ℕ := 512
def maxNumPromotions : ℕ := 8

/-- The global `coverage`, in some order of its entries. -/
abbrev Coverage := Dict UInt64 (BitVec numBasePages)

namespace Coverage

def clear (c : Coverage) : Coverage := c.mapValues fun _ => 0

/-- The bits of a region, none if it has no entry. -/
def bits (c : Coverage) (base : UInt64) : BitVec numBasePages := (c.get? base).getD 0

/-- `coverage[base].set(offset, true)`, with the entry made first where there is none. -/
def mark (c : Coverage) (base offset : UInt64) : Except Fault Coverage :=
  if offset.toNat < numBasePages then
    return c.set base (c.bits base ||| BitVec.twoPow numBasePages offset.toNat)
  else throw .bitIndex

end Coverage

/-- The globals that `hawkeye_track_access` itself reads and writes. -/
structure Tracker where
  tracking : Bool := true
  currNumAccesses : UInt64 := 0
  totalNumAccesses : UInt64 := 0
  coverage : Coverage := .empty

namespace Tracker
open Pcc (Config pageSize hugePageSize)

def countAccess (t : Tracker) : Tracker := { t with
  currNumAccesses := t.currNumAccesses+1
  totalNumAccesses := t.totalNumAccesses+1 }

/-- An access in the gap between two windows. A remainder by zero is the dividend, as on AArch64. -/
def skipAccess (cfg : Config) (t : Tracker) : Tracker :=
  if t.currNumAccesses % (cfg.factor.toUInt64*cfg.accessInterval) = 0 then
    { t with tracking := true, currNumAccesses := 0 }
  else t

/-- `hawkeye_track_access` without the body of `summarize`, which writes none of these
globals: the coverage is what `summarize` is called with, if it is called. -/
def trackAccess (cfg : Config) (t : Tracker) (vaddr : UInt64) :
    Except Fault (Option Coverage × Tracker) := do
  let t := t.countAccess
  if !t.tracking then return (none,t.skipAccess cfg)
  else
    let page := vaddr/pageSize
    let base := vaddr/hugePageSize
    let offset := page - base*(hugePageSize/pageSize)
    let coverage ← t.coverage.mark base offset
    if t.currNumAccesses % cfg.accessInterval = 0 then
      return (some coverage,
        { t with coverage := coverage.clear, tracking := false, currNumAccesses := 0 })
    else return (none,{ t with coverage := coverage })

/-- The accesses one after another, every call of `summarize` returning. -/
def step (cfg : Config) (t : Tracker) (vaddr : UInt64) : Except Fault Tracker :=
  Prod.snd <$> t.trackAccess cfg vaddr

end Tracker
end ElasticTranslations.Hawkeye
