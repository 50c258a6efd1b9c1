import ElasticTranslations.Structures.XorLinear
import Mathlib.Algebra.Ring.Nat
import Mathlib.Data.Set.Function
import Mathlib.Order.Interval.Set.Basic

/-! `gups.c`: the random numbers of the update loop come from 128 streams, each started by
jumping ahead in one shift register sequence. -/
namespace ElasticTranslations.Benchmarks.Gups
open Structures

abbrev Word := BitVec 64

def poly : Word := 7

def period : ℤ := 1317624576693539401

/-- `(r << 1) ^ ((int64_t) r < 0 ? POLY : 0)`. -/
def step (r : Word) : Word := (r <<< 1) ^^^ (if r.toInt < 0 then poly else 0)

/-- `while (n < 0) n += PERIOD`. -/
def raise (n : ℤ) : ℤ := if n < 0 then raise (n+period) else n
termination_by (-n).toNat
decreasing_by simp only [period]; omega

/-- `while (n > PERIOD) n -= PERIOD`. -/
def lower (n : ℤ) : ℤ := if n > period then lower (n-period) else n
termination_by n.toNat
decreasing_by simp only [period] at *; omega

/-- One round of the loop that fills `m2`, with `temp`. -/
def fillRound (s : List Word × Word) (_i : ℕ) : List Word × Word :=
  let (m2,temp) := s
  let m2 := m2 ++ [temp]
  let temp := step temp
  let temp := step temp
  (m2,temp)

def m2 : List Word := ((List.range 64).foldl fillRound ([],1)).1

/-- The search for the highest bit of `n` from bit `i` downwards; `-1` if there is none. -/
def highestBit (n : ℕ) : ℕ → ℤ
  | 0 => if n.testBit 0 then 0 else -1
  | i+1 => if n.testBit (i+1) then i+1 else highestBit n i

/-- The inner loop over the bits of `ran`. -/
def square (ran : Word) : Word :=
  (List.range 64).foldl
    (fun temp j => if ran.getLsbD j then temp ^^^ m2.getD j 0 else temp) 0

/-- The outer loop, with `i` rounds to go. -/
def squareAndStep (n : ℕ) : ℕ → Word → Word
  | 0,ran => ran
  | i+1,ran =>
    let ran := square ran
    squareAndStep n i (if n.testBit i then step ran else ran)

def hpccStarts (n : ℤ) : Word :=
  let n := lower (raise n)
  if n = 0 then 1
  else
    let n := n.toNat
    squareAndStep n (highestBit n 62).toNat 2

/-- The memory of the update loop. -/
structure Streams where
  ran : List Word
  res : List Word

/-- The setup of the streams; `res` comes from `calloc`. -/
def startStreams (nupdate : Word) : Streams where
  ran := (List.range 128).map fun j => hpccStarts ((nupdate/128)*BitVec.ofNat 64 j).toInt
  res := List.replicate 128 0

/-- `Table[i]`: the table holds its own indices, and the padding behind it zero. -/
def table (tableSize i : Word) : Word := if i < tableSize then i else 0

/-- The body of the inner loop of the updates. -/
def updateStream (tableSize : Word) (s : Streams) (j : ℕ) : Streams :=
  let r := step (s.ran.getD j 0)
  let elm := r % tableSize
  { ran := s.ran.set j r,
    res := s.res.set j ((table tableSize elm ^^^ r)+(table tableSize (tableSize-elm) ^^^ r)) }

/-- One iteration of the update loop. -/
def update (tableSize : Word) (s : Streams) (_i : ℕ) : Streams :=
  (List.range 128).foldl (updateStream tableSize) s

/-- The streams after so many iterations. -/
def streamsAfter (tableSize nupdate : Word) (i : ℕ) : Streams :=
  (List.range i).foldl (update tableSize) (startStreams nupdate)

/-- The word of stream `j` that iteration `i` uses. -/
def used (tableSize nupdate : Word) (i j : ℕ) : Option Word :=
  (streamsAfter tableSize nupdate (i+1)).ran[j]?

/-- The streams are consecutive pieces of one sequence: the jump ahead is right, every word used
is the term of its place, and the places are the terms from 1 on, each once. -/
structure OneSequence (tableSize nupdate : Word) : Prop where
  starts : ∀ n : ℤ,0 ≤ n → n ≤ period-1 → hpccStarts n = step^[n.toNat] 1
  terms : ∀ i < (nupdate/128).toNat,∀ j < 128,
    used tableSize nupdate i j = some (step^[(nupdate/128).toNat*j+i+1] 1)
  once : Set.BijOn (fun p : ℕ × ℕ => (nupdate/128).toNat*p.2+p.1+1)
    {p | p.1 < (nupdate/128).toNat ∧ p.2 < 128} (Set.Icc 1 (128*(nupdate/128).toNat))

lemma step_xor : XorLinear step := by
  intro a b
  have hmsb : ∀ r : Word,step r = (r <<< 1) ^^^ (if r.msb then poly else 0) := by
    intro r
    rw [step,BitVec.msb_eq_toInt]
    simp only [decide_eq_true_eq]
  rw [hmsb,hmsb,hmsb,BitVec.shiftLeft_xor_distrib,BitVec.msb_xor]
  cases a.msb <;> cases b.msb
  · simp
  · simp only [Bool.false_xor,if_true,Bool.false_eq_true,if_false]
    ac_rfl
  · simp only [Bool.xor_false,if_true,Bool.false_eq_true,if_false]
    ac_rfl
  · have hcancel : a <<< 1 ^^^ poly ^^^ (b <<< 1 ^^^ poly) =
        a <<< 1 ^^^ b <<< 1 ^^^ (poly ^^^ poly) := by ac_rfl
    simp [hcancel]

lemma step_twoPow : ∀ j,j+1 < 64 → step (BitVec.twoPow 64 j) = BitVec.twoPow 64 (j+1) := by
  have hall : ∀ j : Fin 63,step (BitVec.twoPow 64 j) = BitVec.twoPow 64 (j+1) := by decide
  exact fun j hj => hall ⟨j,by omega⟩

/-- The table holds the even terms. -/
lemma fillRounds (k : ℕ) : (List.range k).foldl fillRound ([],1) =
    ((List.range k).map fun j => step^[2*j] 1,step^[2*k] 1) := by
  induction k with
  | zero => rfl
  | succ k ih =>
    rw [List.range_succ,List.foldl_append,ih,List.map_append]
    change _ = (_,step^[2*k+1+1] 1)
    rw [Function.iterate_succ_apply',Function.iterate_succ_apply']
    rfl

lemma m2_getD {j : ℕ} (hj : j < 64) : m2.getD j 0 = step^[2*j] 1 := by
  rw [m2,fillRounds]
  simp [List.getD,List.getElem?_range hj]

lemma square_eq (ran : Word) : square ran = combine (fun j => step^[2*j] 1) ran 64 := by
  have hrounds : ∀ k ≤ 64,(List.range k).foldl
      (fun temp j => if ran.getLsbD j then temp ^^^ m2.getD j 0 else temp) 0 =
      combine (fun j => step^[2*j] 1) ran k := by
    intro k
    induction k with
    | zero => exact fun _ => rfl
    | succ k ih =>
      intro hk
      rw [List.range_succ,List.foldl_append,ih (by omega),combine]
      change (if ran.getLsbD k then _ ^^^ m2.getD k 0 else _) = _
      rw [m2_getD (by omega)]
      cases ran.getLsbD k <;> simp
  exact hrounds 64 (Nat.le_refl _)

/-- Squaring doubles the number of steps. -/
lemma square_iterate (k : ℕ) : square (step^[k] 1) = step^[2*k] 1 := by
  rw [square_eq]
  exact step_xor.combine_iterate step_twoPow (by decide) (by decide +kernel) k

lemma shiftRight_eq (n i : ℕ) : n >>> i = 2*(n >>> (i+1)) + (n.testBit i).toNat := by
  rw [Nat.shiftRight_succ,Nat.testBit_eq_decide_div_mod_eq,Nat.shiftRight_eq_div_pow]
  have hmod := Nat.mod_two_eq_zero_or_one (n/2^i)
  rcases hmod with h | h <;> simp [h] <;> omega

/-- Before the round of bit `i`, the word has taken as many steps as the bits above say. -/
lemma squareAndStep_iterate (n i : ℕ) :
    squareAndStep n i (step^[n >>> i] 1) = step^[n] 1 := by
  induction i with
  | zero => rfl
  | succ i ih =>
    rw [squareAndStep,square_iterate]
    rw [shiftRight_eq] at ih
    cases hbit : n.testBit i
    · simpa [hbit] using ih
    · rw [hbit,Bool.toNat_true,Function.iterate_succ_apply'] at ih
      simpa using ih

/-- Above its highest bit a number is one. -/
lemma highestBit_spec {n : ℕ} (hpos : 0 < n) {k : ℕ} (hk : n < 2^(k+1)) :
    n >>> (highestBit n k).toNat = 1 := by
  induction k with
  | zero =>
    obtain rfl : n = 1 := by omega
    rfl
  | succ k ih =>
    by_cases hbit : n.testBit (k+1)
    · have hge := Nat.ge_two_pow_of_testBit hbit
      have htop : n/2^(k+1) = 1 := by
        apply Nat.div_eq_of_lt_le
        · omega
        · rw [Nat.pow_succ] at hk
          omega
      simp only [highestBit,hbit,if_true]
      rw [Nat.shiftRight_eq_div_pow]
      exact htop
    · simp only [highestBit,hbit]
      apply ih
      by_contra hge
      apply hbit
      rw [Nat.testBit_eq_decide_div_mod_eq]
      have htop : n/2^(k+1) = 1 := by
        apply Nat.div_eq_of_lt_le
        · omega
        · rw [Nat.pow_succ] at hk
          omega
      simp [htop]

/-- The jump ahead takes as many steps as it says. -/
lemma hpccStarts_eq {n : ℤ} (h0 : 0 ≤ n) (hn : n ≤ period) : hpccStarts n = step^[n.toNat] 1 := by
  have hraise : raise n = n := by
    rw [raise,if_neg (by omega)]
  have hlower : lower n = n := by
    rw [lower,if_neg (by omega)]
  rw [hpccStarts,hraise,hlower]
  by_cases hzero : n = 0
  · simp [hzero]
  · rw [if_neg hzero]
    have hbound : n.toNat < 2^(62+1) := by
      simp only [period] at hn
      omega
    have hone := highestBit_spec (n := n.toNat) (by omega) hbound
    have hstart : step^[n.toNat >>> (highestBit n.toNat 62).toNat] 1 = 2 := by
      rw [hone]
      decide
    rw [← hstart]
    exact squareAndStep_iterate _ _

/-- The inner loop steps the streams it has passed. -/
lemma updateStreams_ran (tableSize : Word) (s : Streams) (k j : ℕ) :
    ((List.range k).foldl (updateStream tableSize) s).ran[j]? =
      if j < k then s.ran[j]?.map step else s.ran[j]? := by
  induction k with
  | zero => rfl
  | succ k ih =>
    rw [List.range_succ,List.foldl_append]
    change (List.set _ k _)[j]? = _
    rw [List.getElem?_set]
    by_cases hjk : k = j
    · subst hjk
      rw [if_neg (Nat.lt_irrefl k)] at ih
      rw [if_pos rfl,if_pos (Nat.lt_succ_self k),List.getD,ih]
      by_cases hlen : k < s.ran.length
      · have hlen' := (List.getElem?_eq_some_iff.mp (ih.trans (List.getElem?_eq_getElem hlen))).1
        simp [hlen',hlen]
      · have hnone : s.ran[k]? = none := List.getElem?_eq_none (by omega)
        rw [hnone] at ih
        rw [if_neg (by simpa using ih),hnone]
        rfl
    · have hlt : j < k+1 ↔ j < k := by omega
      rw [if_neg hjk,ih]
      simp only [hlt]

section
variable {nupdate : Word} (h : 128*((nupdate/128).toNat : ℤ) ≤ period)
include h

/-- The place where a stream starts does not overflow. -/
lemma start_toInt {j : ℕ} (hj : j < 128) :
    ((nupdate/128)*BitVec.ofNat 64 j).toInt = ((nupdate/128).toNat*j : ℕ) := by
  have hle : (nupdate/128).toNat*j ≤ (nupdate/128).toNat*127 :=
    Nat.mul_le_mul_left _ (by omega)
  simp only [period] at h
  have hnat : ((nupdate/128)*BitVec.ofNat 64 j).toNat = (nupdate/128).toNat*j := by
    rw [BitVec.toNat_mul,BitVec.toNat_ofNat,Nat.mod_eq_of_lt (a := j) (by omega)]
    exact Nat.mod_eq_of_lt (by omega)
  rw [BitVec.toInt_eq_toNat_of_lt (by omega),hnat]

lemma streamsAfter_ran (tableSize : Word) (i : ℕ) {j : ℕ} (hj : j < 128) :
    (streamsAfter tableSize nupdate i).ran[j]? = some (step^[(nupdate/128).toNat*j+i] 1) := by
  induction i with
  | zero =>
    have hle : (nupdate/128).toNat*j ≤ (nupdate/128).toNat*127 :=
      Nat.mul_le_mul_left _ (by omega)
    have hstart : streamsAfter tableSize nupdate 0 = startStreams nupdate := rfl
    rw [hstart,startStreams,List.getElem?_map,List.getElem?_range hj,Option.map_some,
      start_toInt h hj,hpccStarts_eq (Int.natCast_nonneg _) (by omega)]
    rfl
  | succ i ih =>
    have hround : streamsAfter tableSize nupdate (i+1) =
        update tableSize (streamsAfter tableSize nupdate i) i := by
      rw [streamsAfter,List.range_succ,List.foldl_append,List.foldl_cons,List.foldl_nil,
        ← streamsAfter]
    rw [hround,update,updateStreams_ran,if_pos hj,ih,Option.map_some,← Nat.add_assoc,
      Function.iterate_succ_apply']

end

/-- The places are numbered by the streams in turn. -/
lemma places_bijOn (q : ℕ) : Set.BijOn (fun p : ℕ × ℕ => q*p.2+p.1+1)
    {p | p.1 < q ∧ p.2 < 128} (Set.Icc 1 (128*q)) := by
  refine ⟨?_,?_,?_⟩
  · rintro ⟨i,j⟩ ⟨hi,hj⟩
    have hle : q*j ≤ q*127 := Nat.mul_le_mul_left q (by omega)
    simp only [Set.mem_Icc] at *
    omega
  · rintro ⟨i,j⟩ ⟨hi,hj⟩ ⟨i',j'⟩ ⟨hi',hj'⟩ heq
    simp only at hi hj hi' hj'
    have hplace : i+q*j = i'+q*j' := by
      simp only at heq
      omega
    have hrow : i = i' := by
      have hmod := congrArg (· % q) hplace
      simpa [Nat.add_mul_mod_self_left,Nat.mod_eq_of_lt hi,Nat.mod_eq_of_lt hi'] using hmod
    have hcol : j = j' := by
      have hmul : q*j = q*j' := by omega
      exact Nat.eq_of_mul_eq_mul_left (by omega) hmul
    rw [hrow,hcol]
  · intro m hm
    obtain ⟨h1,h2⟩ := Set.mem_Icc.mp hm
    have hq : 0 < q := by omega
    have hdiv := Nat.div_add_mod (m-1) q
    refine ⟨((m-1) % q,(m-1)/q),⟨Nat.mod_lt _ hq,?_⟩,?_⟩
    · exact (Nat.div_lt_iff_lt_mul hq).mpr (by omega)
    · simp only
      omega

/-- The streams make up one sequence as long as they fit into its period. -/
theorem oneSequence (tableSize nupdate : Word) (h : 128*((nupdate/128).toNat : ℤ) ≤ period) :
    OneSequence tableSize nupdate where
  starts n h0 hn := hpccStarts_eq h0 (by omega)
  terms i _ j hj := streamsAfter_ran h tableSize (i+1) hj
  once := places_bijOn _

/-- The default number of updates. -/
theorem oneSequence_default :
    128*(((1 <<< 34 : Word)/128).toNat : ℤ) ≤ period ∧ OneSequence (1 <<< 33) (1 <<< 34) :=
  ⟨by decide,oneSequence (1 <<< 33) (1 <<< 34) (by decide)⟩

end ElasticTranslations.Benchmarks.Gups
