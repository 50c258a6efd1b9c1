import ElasticTranslations.Pcc.CacheSet

/-! The set-associative cache of the simulator: an address is cut into page offset, set
index and tag by bit-field extraction, where the page size is that of the cache or, with
`is2M`, 2 MiB. -/
namespace ElasticTranslations.Pcc

def pageSize : UInt64 := 4096
def hugePageSize : UInt64 := 2097152

/-- `extract`: the bits `min` to `max` of an address, both inclusive. As on AArch64 and
x86-64, a 64-bit shift uses its amount modulo 64. -/
def extract (max min : ℤ) (address : UInt64) : UInt64 :=
  let maxmask := ((1 : UInt64) <<< UInt64.ofInt (max+1)) - 1
  let minmask := ((1 : UInt64) <<< UInt64.ofInt min) - 1
  let mask := maxmask - minmask
  let val := address &&& mask
  val >>> UInt64.ofInt min

/-- The fields of `FunctionalCache` and of its sets that only the constructors set. -/
structure Geometry where
  lineCount : ℕ
  setCount : ℕ
  logSetCount : ℕ
  cacheLineSize : ℕ
  logLineSize : ℕ
  associativity : ℕ
  policy : ℕ

/-- The constructor's arithmetic; `log2` truncates to an integer. -/
def Geometry.ofSize (size assoc lineSize evictionPolicy : ℕ) : Geometry where
  lineCount := size/lineSize
  setCount := size/lineSize/assoc
  logSetCount := Nat.log2 (size/lineSize/assoc)
  cacheLineSize := lineSize
  logLineSize := Nat.log2 lineSize
  associativity := assoc
  policy := evictionPolicy

namespace Geometry

def logPofs (g : Geometry) (is2M : Bool) : ℤ :=
  if is2M then Nat.log2 hugePageSize.toNat else g.logLineSize

def offsetOf (g : Geometry) (address : UInt64) (is2M : Bool) : UInt64 :=
  extract (g.logPofs is2M-1) 0 address

def setidOf (g : Geometry) (address : UInt64) (is2M : Bool) : UInt64 :=
  extract (g.logSetCount+g.logPofs is2M-1) (g.logPofs is2M) address

def tagOf (g : Geometry) (address : UInt64) (is2M : Bool) : UInt64 :=
  extract 63 (g.logSetCount+g.logPofs is2M) address

end Geometry

/-- `FunctionalCache`. The vector `sets` has `setCount` elements. -/
structure FunctionalCache (g : Geometry) where
  sets : ℕ → CacheSet g.associativity g.policy

namespace FunctionalCache
variable {g : Geometry}

def new (g : Geometry) : FunctionalCache g where
  sets _ := CacheSet.new g.associativity g.policy

/-- `sets.at(setid)`. -/
def setAt (c : FunctionalCache g) (setid : UInt64) :
    Except Fault (CacheSet g.associativity g.policy) :=
  if setid.toNat < g.setCount then .ok (c.sets setid.toNat) else .error .outOfRange

def putSet (c : FunctionalCache g) (setid : UInt64) (cs : CacheSet g.associativity g.policy) :
    FunctionalCache g :=
  ⟨Function.update c.sets setid.toNat cs⟩

def access (c : FunctionalCache g) (address : UInt64) (isLoad : Bool) (is2M : Bool := false) :
    Except Fault (Bool × FunctionalCache g) := do
  let cs ← c.setAt (g.setidOf address is2M)
  let (res,cs) ← cs.access (g.tagOf address is2M) (g.offsetOf address is2M) isLoad
  return (res,c.putSet (g.setidOf address is2M) cs)

/-- The out-parameters are `out` on entry. The set index is added to the evicted tag
multiplied by the set count, and the address is left alone when nothing was evicted. -/
def insert (c : FunctionalCache g) (address : UInt64) (isLoad : Bool) (out : EvictOut)
    (is2M : Bool := false) : Except Fault (EvictOut × FunctionalCache g) := do
  let setid := g.setidOf address is2M
  let cs ← c.setAt setid
  let (evicted,cs) ← cs.insert (g.tagOf address is2M) (g.offsetOf address is2M) isLoad
    ⟨false,-1,out.evictedOffset⟩
  let evictedAddr :=
    if evicted.evictedAddr = -1 then out.evictedAddr
    else (evicted.evictedAddr.toUInt64*UInt64.ofNat g.setCount + setid).toInt64
  return (⟨evicted.dirtyEvict,evictedAddr,evicted.evictedOffset⟩,c.putSet setid cs)

/-- Returns the value written to `*dirtyEvict`. -/
def evict (c : FunctionalCache g) (address : UInt64) (is2M : Bool := false) :
    Except Fault (Bool × FunctionalCache g) := do
  let cs ← c.setAt (g.setidOf address is2M)
  let (dirty,cs) ← cs.evict (g.tagOf address is2M)
  return (dirty,c.putSet (g.setidOf address is2M) cs)

def getFreq (c : FunctionalCache g) (address : UInt64) (is2M : Bool := false) :
    Except Fault ℕ := do
  let cs ← c.setAt (g.setidOf address is2M)
  cs.getFreq (g.tagOf address is2M)

/-- The loop of `flush` over the sets from `i` on, `n` of them. -/
def flushFrom (c : FunctionalCache g) : ℕ → ℕ → Except Fault (FunctionalCache g)
  | _,0 => return c
  | i,n+1 => do
    let cs ← (c.sets i).flush
    flushFrom ⟨Function.update c.sets i cs⟩ (i+1) n

def flush (c : FunctionalCache g) : Except Fault (FunctionalCache g) := c.flushFrom 0 g.setCount

/-- The sets from `i` on, `n` of them. -/
def getEntriesFrom (c : FunctionalCache g) : ℕ → ℕ → Except Fault (List UInt64)
  | _,0 => return []
  | i,n+1 => do
    let addresses ← (c.sets i).getSet
    let more ← c.getEntriesFrom (i+1) n
    return addresses ++ more

/-- The tags of all resident lines, set by set. -/
def getEntries (c : FunctionalCache g) : Except Fault (List UInt64) :=
  c.getEntriesFrom 0 g.setCount

end FunctionalCache
end ElasticTranslations.Pcc
