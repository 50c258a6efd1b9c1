import ElasticTranslations.Benchmarks.BTreeRandom
import ElasticTranslations.Benchmarks.BTreeRange
import ElasticTranslations.Benchmarks.BTreeWorkload

/-! `main` of `btree1.c`, from the first insertion to the sum that it prints. The lookup loop runs
on one thread. -/
namespace ElasticTranslations.Benchmarks.BTree
open Structures BTree.Random

/-- `nelements`, from `NELEMENTS`. -/
def numElements (n : ℕ) : ℕ :=
  if n*sizeofElement % (32*1024*1024) ≠ 0 then
    n*sizeofElement/(32*1024*1024)*32*1024*1024/sizeofElement
  else n

/-- `e->payload` behind the two calls of `memset`. -/
def payloadAt (nelements : ℕ) (elms elms2 e : UInt64) : Option UInt64 :=
  if (List.range (nelements/2)).any fun i => e == elementAt elms i || e == elementAt elms2 i then
    some 0xEEEEEEEEEEEEEEEE
  else none

/-- One of the two lookups of a round. -/
def addPayload (fuel : ℕ) (t : Tree) (payload : UInt64 → Option UInt64) (key sum : UInt64) :
    Option UInt64 := do
  match ← find fuel t.heap t.root key with
  | none => some sum
  | some r => do
    let e ← readValue t.heap (.record r)
    if e = 0 then some sum
    else do
      let p ← payload e
      some (sum+p)

def lookupRound (fuel : ℕ) (t : Tree) (payload : UInt64 → Option UInt64) (nelements : UInt64)
    (s : Generator × UInt64) : Option (Generator × UInt64) := do
  let (word,rng) := redisLrand48 s.1
  let rdn := UInt64.ofBitVec word
  let sum ← addPayload fuel t payload (rdn % nelements) s.2
  let sum ← addPayload fuel t payload (((rdn+1) <<< 2) % nelements) sum
  some (rng,sum)

def lookupLoop (fuel : ℕ) (t : Tree) (payload : UInt64 → Option UInt64) (nelements : UInt64)
    (nlookup : ℕ) (rng : Generator) : Option (Generator × UInt64) :=
  (List.range nlookup).foldlM (fun s _ => lookupRound fuel t payload nelements s) (rng,0)

/-- The sum that is printed. The arrays `elms` and `elms2` may lie anywhere. -/
def btreeMain (order fuel n nlookup : ℕ) (elms elms2 : UInt64) : Option UInt64 := do
  let nelements := numElements n
  let t ← insertAll order fuel Tree.empty (buildEntries nelements elms elms2)
  let (_,sum) ← lookupLoop fuel t (payloadAt nelements elms elms2) (UInt64.ofNat nelements) nlookup
    (redisSrand48 0xCAFEBABE)
  some sum

section Loop
variable {fuel nelements : ℕ} {t : Tree} {payload : UInt64 → Option UInt64} {key e p : UInt64}

lemma addPayload_eq (hfinds : Finds fuel t key (some e)) (he : e ≠ 0) (hp : payload e = some p)
    (sum : UInt64) : addPayload fuel t payload key sum = some (sum+p) := by
  obtain ⟨r,hr,hvalue⟩ := hfinds
  simp [addPayload,hr,readValue,hvalue,he,hp]

/-- A remainder is one of the keys, whatever the number was. -/
lemma mod_eq_ofNat (hpos : 0 < nelements) (hsize : nelements < 2^64) (rdn : UInt64) :
    ∃ k < nelements,rdn % UInt64.ofNat nelements = UInt64.ofNat k := by
  refine ⟨rdn.toNat % nelements,Nat.mod_lt _ hpos,?_⟩
  have hlt := Nat.mod_lt rdn.toNat hpos
  have hlt' : rdn.toNat % nelements < 2^64 := by omega
  rw [← UInt64.toNat_inj,UInt64.toNat_mod,UInt64.toNat_ofNat_of_lt' hsize,
    UInt64.toNat_ofNat_of_lt' hlt']

/-- Each round adds two payloads, if all keys lead to the same. -/
lemma lookupLoop_eq (hpos : 0 < nelements) (hsize : nelements < 2^64)
    (hfinds : ∀ k < nelements,∃ e,Finds fuel t (UInt64.ofNat k) (some e) ∧ e ≠ 0 ∧
      payload e = some p) (nlookup : ℕ) (rng : Generator) :
    ∃ rng',lookupLoop fuel t payload (UInt64.ofNat nelements) nlookup rng =
      some (rng',UInt64.ofNat (2*nlookup)*p) := by
  have hadd : ∀ rdn sum,addPayload fuel t payload (rdn % UInt64.ofNat nelements) sum =
      some (sum+p) := by
    intro rdn sum
    obtain ⟨k,hk,hkey⟩ := mod_eq_ofNat hpos hsize rdn
    obtain ⟨e,hfind,he,hpayload⟩ := hfinds k hk
    rw [hkey]
    exact addPayload_eq hfind he hpayload sum
  obtain ⟨⟨rng',sum⟩,hloop,hsum⟩ := foldlM_rule
    (fun s _ => lookupRound fuel t payload (UInt64.ofNat nelements) s) (l := List.range nlookup)
    (s := (rng,(0 : UInt64))) (I := fun pre s => s.2 = UInt64.ofNat (2*pre.length)*p)
    (by simp) (by
      rintro pre i post ⟨r,sum⟩ - hsum
      refine ⟨((redisLrand48 r).2,sum+p+p),?_,?_⟩
      · simp only [lookupRound,hadd,Option.bind_eq_bind,Option.bind_some]
      · simp only at hsum ⊢
        rw [hsum,List.length_append,List.length_singleton,Nat.mul_succ,
          show 2*pre.length+2 = 2*pre.length+1+1 by rfl,UInt64.ofNat_add,UInt64.ofNat_add,
          UInt64.add_mul,UInt64.add_mul]
        simp)
  simp only [List.length_range] at hsum
  exact ⟨rng',by rw [lookupLoop,hloop,hsum]⟩

end Loop

/-- No element lies at the null pointer if its array does not wrap around. -/
lemma elementAt_ne_zero {base : UInt64} {i : ℕ} (hbase : 0 < base.toNat)
    (hwrap : base.toNat+sizeofElement*i < 2^64) : elementAt base i ≠ 0 := by
  have hi : (UInt64.ofNat (sizeofElement*i)).toNat = sizeofElement*i :=
    UInt64.toNat_ofNat_of_lt' (show sizeofElement*i < 2^64 by omega)
  intro hzero
  have hnat := congrArg UInt64.toNat hzero
  rw [elementAt,UInt64.toNat_add,hi,Nat.mod_eq_of_lt hwrap,UInt64.toNat_zero] at hnat
  omega

lemma numElements_even (n : ℕ) : numElements n % 2 = 0 := by
  rw [numElements,sizeofElement]
  split_ifs <;> omega

lemma numElements_le (n : ℕ) : numElements n ≤ n := by
  rw [numElements,sizeofElement]
  split_ifs <;> omega

lemma numElements_pos {n : ℕ} (hn : 2^21 ≤ n) : 0 < numElements n := by
  rw [numElements,sizeofElement]
  split_ifs <;> omega

/-- The benchmark runs to its end: no lookup misses, and the sum has two payloads for each round,
modulo `2^64`. -/
theorem btreeMain_sum {order fuel n : ℕ} (horder : 3 ≤ order) (hn : 2^21 ≤ n) (hsize : n < 2^60)
    (hfuel : numElements n ≤ fuel) {elms elms2 : UInt64}
    (hnull : ∀ i < numElements n/2,elementAt elms i ≠ 0 ∧ elementAt elms2 i ≠ 0) (nlookup : ℕ) :
    btreeMain order fuel n nlookup elms elms2 =
      some (UInt64.ofNat (2*nlookup)*0xEEEEEEEEEEEEEEEE) := by
  have hle := numElements_le n
  obtain ⟨t,hinsert,-,hfinds⟩ := build_finds horder elms elms2 (numElements_even n)
    (show numElements n ≤ 2^64 by omega) hfuel
  have hpayload : ∀ i < numElements n/2,
      payloadAt (numElements n) elms elms2 (elementAt elms i) = some 0xEEEEEEEEEEEEEEEE ∧
      payloadAt (numElements n) elms elms2 (elementAt elms2 i) = some 0xEEEEEEEEEEEEEEEE := by
    intro i hi
    constructor
    · refine if_pos (List.any_eq_true.mpr ⟨i,List.mem_range.mpr hi,?_⟩)
      simp
    · refine if_pos (List.any_eq_true.mpr ⟨i,List.mem_range.mpr hi,?_⟩)
      simp
  obtain ⟨rng,hloop⟩ := lookupLoop_eq (numElements_pos hn) (by omega) (fun k hk => by
      refine ⟨_,hfinds k hk,?_⟩
      obtain ⟨i,hi,heq | heq⟩ := exists_elementAt elms elms2 (numElements_even n) hk <;> rw [heq]
      · exact ⟨(hnull i hi).1,(hpayload i hi).1⟩
      · exact ⟨(hnull i hi).2,(hpayload i hi).2⟩) nlookup (redisSrand48 0xCAFEBABE)
  simp only [btreeMain,hinsert,hloop,Option.bind_eq_bind,Option.bind_some]

/-- The sizes and addresses of the benchmark as it is built for one thread. -/
theorem btreeMain_sum_one_thread :
    btreeMain 21 367001600 (350*2^20) 100000000 0xB9000000 0xA000000 =
      some (UInt64.ofNat (2*100000000)*0xEEEEEEEEEEEEEEEE) := by
  have hnum : numElements (350*2^20) = 367001600 := by decide
  refine btreeMain_sum (by decide) (by decide) (by decide) hnum.le (fun i hi => ?_) 100000000
  rw [hnum] at hi
  have helms : (0xB9000000 : UInt64).toNat = 0xB9000000 := rfl
  have helms2 : (0xA000000 : UInt64).toNat = 0xA000000 := rfl
  constructor
  · apply elementAt_ne_zero <;> rw [helms]
    · decide
    · rw [sizeofElement]
      omega
  · apply elementAt_ne_zero <;> rw [helms2]
    · decide
    · rw [sizeofElement]
      omega

end ElasticTranslations.Benchmarks.BTree
