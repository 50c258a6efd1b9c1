import ElasticTranslations.Pcc.FunctionalCache

/-! The promotion candidate cache simulator: two L1 TLBs, a unified L2 TLB, the promotion
cache, the reuse table and the set of promoted regions, driven by one virtual address at
a time. Printing is left out. -/
namespace ElasticTranslations.Pcc

def l1Tlb4kEntries : ℕ := 64
def l1Tlb2mEntries : ℕ := 32
def l2TlbEntries : ℕ := 1024
def l1Assoc : ℕ := 4
def l2Assoc : ℕ := 6
def promotionCacheSize : ℕ := 128
def evictionPolicy : ℕ := 2
def alpha : Float := 1.9

def l1Tlb4kGeometry : Geometry :=
  .ofSize (l1Tlb4kEntries*pageSize.toNat) l1Assoc pageSize.toNat 0
def l1Tlb2mGeometry : Geometry :=
  .ofSize (l1Tlb2mEntries*hugePageSize.toNat) l1Assoc hugePageSize.toNat 0
def l2TlbGeometry : Geometry :=
  .ofSize (l2TlbEntries*pageSize.toNat) l2Assoc pageSize.toNat 0
def promotionCacheGeometry : Geometry :=
  .ofSize (promotionCacheSize*pageSize.toNat) promotionCacheSize pageSize.toNat evictionPolicy

/-- The two globals that set how often promotions are summarized. Their product is taken
modulo 2^64. -/
structure Config where
  factor : UInt32 := 30
  accessInterval : UInt64 := 100000
  factor_pos : 1 ≤ factor.toNat := by decide
  accessInterval_pos : 1 ≤ accessInterval.toNat := by decide

/-- The tuple stored in `reuse_map`: last access, sum of squares, number of data points and
mean. The default is the record that `operator[]` creates. -/
structure ReuseRecord where
  lastAccess : UInt64 := 0
  sumSq : Float := 0
  numDataPts : UInt64 := 0
  ema : Float := 0

/-- The globals of the simulator. The out-parameters of the three TLBs are kept together;
the promotion cache writes to those of the L1 4K TLB. -/
structure PccState where
  totalNumAccesses : UInt64
  num2mbPtw : UInt64
  reuseMap : UInt64 → Option ReuseRecord
  pccPromotions : UInt64 → Option UInt16
  l1Tlb4k : FunctionalCache l1Tlb4kGeometry
  l1Tlb2m : FunctionalCache l1Tlb2mGeometry
  l2Tlb : FunctionalCache l2TlbGeometry
  promotionCache : FunctionalCache promotionCacheGeometry
  l14k : EvictOut
  l12m : EvictOut
  l2 : EvictOut

/-- The globals before the first access, after `promotion_cache_init`. -/
def promotionCacheInit : PccState where
  totalNumAccesses := 0
  num2mbPtw := 0
  reuseMap _ := none
  pccPromotions _ := none
  l1Tlb4k := .new _
  l1Tlb2m := .new _
  l2Tlb := .new _
  promotionCache := .new _
  l14k := {}
  l12m := {}
  l2 := {}

/-- The address of base page `i` of a region, `addr` in `summarize_promotions`. -/
def pageAddress (base : UInt64) (i : ℕ) : UInt64 := base*hugePageSize + UInt64.ofNat i*pageSize

namespace PccState

/-- `pcc_promotions.find(base) != pcc_promotions.end()`. -/
def promoted (s : PccState) (base : UInt64) : Bool := (s.pccPromotions base).isSome

/-- The side effect of `reuse_map[base]` as an rvalue. -/
def touchReuse (s : PccState) (base : UInt64) : PccState :=
  match s.reuseMap base with
  | some _ => s
  | none => { s with reuseMap := Function.update s.reuseMap base (some {}) }

def setReuse (s : PccState) (base : UInt64) (r : ReuseRecord) : PccState :=
  { s with reuseMap := Function.update s.reuseMap base (some r) }

def insertL14k (s : PccState) (vaddr : UInt64) : Except Fault PccState := do
  let (out,c) ← s.l1Tlb4k.insert vaddr true s.l14k
  return { s with l1Tlb4k := c, l14k := out }

def insertL12m (s : PccState) (vaddr : UInt64) : Except Fault PccState := do
  let (out,c) ← s.l1Tlb2m.insert vaddr true s.l12m
  return { s with l1Tlb2m := c, l12m := out }

def insertL2 (s : PccState) (vaddr : UInt64) (is2M : Bool) : Except Fault PccState := do
  let (out,c) ← s.l2Tlb.insert vaddr true s.l2 is2M
  return { s with l2Tlb := c, l2 := out }

/-- Probe the L1 4K TLB and evict on a hit. -/
def shootL14k (s : PccState) (addr : UInt64) : Except Fault PccState := do
  let (res,c) ← s.l1Tlb4k.access addr true
  if res then
    let (dirty,c) ← c.evict addr
    return { s with l1Tlb4k := c, l14k := { s.l14k with dirtyEvict := dirty } }
  else return { s with l1Tlb4k := c }

def shootL12m (s : PccState) (addr : UInt64) : Except Fault PccState := do
  let (res,c) ← s.l1Tlb2m.access addr true true
  if res then
    let (dirty,c) ← c.evict addr true
    return { s with l1Tlb2m := c, l12m := { s.l12m with dirtyEvict := dirty } }
  else return { s with l1Tlb2m := c }

def shootL2 (s : PccState) (addr : UInt64) (is2M : Bool) : Except Fault PccState := do
  let (res,c) ← s.l2Tlb.access addr true is2M
  if res then
    let (dirty,c) ← c.evict addr is2M
    return { s with l2Tlb := c, l2 := { s.l2 with dirtyEvict := dirty } }
  else return { s with l2Tlb := c }

/-- One round of the loop over the base pages of a newly promoted region. -/
def shootPage (base : UInt64) (s : PccState) (i : ℕ) : Except Fault PccState := do
  let s ← s.shootL14k (pageAddress base i)
  s.shootL2 (pageAddress base i) false

def promote (s : PccState) (base : UInt64) : Except Fault PccState :=
  let s := { s with
    pccPromotions := Function.update s.pccPromotions base (some 0)
    reuseMap := Function.update s.reuseMap base none }
  (List.range (hugePageSize/pageSize).toNat).foldlM (shootPage base) s

/-- The address shot down uses the index of the entry in the snapshot. -/
def demote (s : PccState) (i : ℕ) (base : UInt64) : Except Fault PccState := do
  let s := { s with pccPromotions := Function.update s.pccPromotions base none }
  let s ← s.shootL12m (pageAddress base i)
  s.shootL2 (pageAddress base i) true

/-- Promote a region that is not promoted and was hit, demote a promoted one. -/
def toggle (s : PccState) (i : ℕ) (base : UInt64) (cacheFreq : ℕ) : Except Fault PccState :=
  if !s.promoted base && 0 < cacheFreq then s.promote base
  else if s.promoted base then s.demote i base
  else return s

/-- One round of the loop of `summarize_promotions`. -/
def summarizeEntry (s : PccState) (i : ℕ) (base : UInt64) : Except Fault PccState := do
  let s := s.touchReuse base
  let cacheFreq ← s.promotionCache.getFreq (base*pageSize)
  let s ← s.toggle i base cacheFreq
  let (dirty,c) ← s.promotionCache.evict (base*pageSize)
  return { s with promotionCache := c, l12m := { s.l12m with dirtyEvict := dirty } }

def summarizeLoop : ℕ → List UInt64 → PccState → Except Fault PccState
  | _,[],s => return s
  | i,base :: addresses,s => do
    let s ← s.summarizeEntry i base
    summarizeLoop (i+1) addresses s

def summarizePromotions (s : PccState) : Except Fault PccState := do
  let addresses ← s.promotionCache.getEntries
  summarizeLoop 0 addresses s

/-- The calls of `summarize_promotions` at the start of `pcc_track_access`. A remainder by
zero is the dividend, as on AArch64. -/
def summaryDue (cfg : Config) (n : UInt64) : Bool :=
  let period := cfg.factor.toUInt64*cfg.accessInterval
  (1 < cfg.factor && n % period == cfg.accessInterval) || n % period == 0

def countAccess (cfg : Config) (s : PccState) : Except Fault PccState :=
  let s := { s with totalNumAccesses := s.totalNumAccesses+1 }
  if summaryDue cfg s.totalNumAccesses then s.summarizePromotions else return s

/-- The refills after a miss in both page sizes of the L2 TLB. The insertion into the L1
4K TLB at the end is reached from both branches. -/
def refillMiss (s : PccState) (vaddr base : UInt64) : Except Fault PccState := do
  let is2m := s.promoted base
  let s ← s.insertL2 vaddr is2m
  let s ← if is2m then s.insertL12m vaddr else s.insertL14k vaddr
  s.insertL14k vaddr

/-- The TLB hierarchy. The flag is false when `pcc_track_access` returns from inside. -/
def tlbLogic (s : PccState) (vaddr base : UInt64) : Except Fault (Bool × PccState) := do
  let (l14kHit,c) ← s.l1Tlb4k.access vaddr true
  let s := { s with l1Tlb4k := c }
  let (l12mHit,c) ← s.l1Tlb2m.access vaddr true
  let s := { s with l1Tlb2m := c }
  if !l14kHit && !l12mHit then
    let (l2Hit,c) ← s.l2Tlb.access vaddr true false
    let s := { s with l2Tlb := c }
    if !l2Hit then
      let (l2Hit,c) ← s.l2Tlb.access vaddr true true
      let s := { s with l2Tlb := c }
      if !l2Hit then
        let s ← s.refillMiss vaddr base
        return (true,s)
      else
        let s ← s.insertL12m vaddr
        return (false,s)
    else
      let s ← s.insertL14k vaddr
      return (false,s)
  else return (false,s)

/-- The promotion cache logic of a region that has a reuse record. -/
def promotionCacheLogic (s : PccState) (base : UInt64) : Except Fault PccState := do
  let is2m := s.promoted base
  let (res,c) ← s.promotionCache.access (base*pageSize) true is2m
  let s := { s with promotionCache := c }
  if !res then
    let s := { s with num2mbPtw :=
      if is2m && ((s.reuseMap base).getD {}).lastAccess != 0 then s.num2mbPtw+1
      else s.num2mbPtw }
    let (out,c) ← s.promotionCache.insert (base*pageSize) true s.l14k is2m
    let s := { s with promotionCache := c, l14k := out }
    if s.l14k.evictedAddr != -1 then
      let evictedAddr := (s.l14k.evictedAddr.toUInt64*pageSize + s.l14k.evictedOffset)/pageSize
      return s.setReuse evictedAddr {}
    else return s
  else return s

/-- The statistics compiled in with `TRACK_REUSE`. -/
def trackReuse (s : PccState) (base : UInt64) : PccState :=
  let r := (s.reuseMap base).getD {}
  if r.lastAccess = 0 then s.setReuse base { r with lastAccess := s.totalNumAccesses }
  else
    let reuseDist := s.totalNumAccesses - r.lastAccess
    let dist := reuseDist.toFloat
    let ema := if r.ema == 0 then dist else r.ema*alpha + dist*(1-alpha)
    s.setReuse base {
      lastAccess := s.totalNumAccesses
      sumSq := r.sumSq + Float.pow (ema-dist) 2
      numDataPts := r.numDataPts+1
      ema := ema }

/-- The part of `pcc_track_access` after a miss in both TLB levels. -/
def missLogic (s : PccState) (base : UInt64) : Except Fault PccState :=
  match s.reuseMap base with
  | none => return s.setReuse base {}
  | some _ => do
    let s ← s.promotionCacheLogic base
    return s.trackReuse base

def pccTrackAccess (cfg : Config) (s : PccState) (vaddr : UInt64) : Except Fault PccState := do
  let s ← s.countAccess cfg
  let base := vaddr/hugePageSize
  let (miss,s) ← s.tlbLogic vaddr base
  if miss then s.missLogic base else return s

end PccState

/-- The loop of `main` over the addresses of a trace. -/
def runTrace (cfg : Config) (trace : List UInt64) : Except Fault PccState :=
  trace.foldlM (PccState.pccTrackAccess cfg) promotionCacheInit

end ElasticTranslations.Pcc
