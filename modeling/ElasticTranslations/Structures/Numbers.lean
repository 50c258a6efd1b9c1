import Mathlib.Data.Int.Bitwise
import Mathlib.Data.Nat.Bitwise
import Mathlib.Tactic.Ring
import Mathlib.Algebra.Ring.Nat
import Mathlib.Tactic.Common
import Mathlib.Algebra.Order.Group.Nat
import Mathlib.Data.List.Range
import Mathlib.Data.List.Nodup
import Mathlib.Logic.ExistsUnique
import Mathlib.Algebra.Order.Field.Rat

/-! Numbers as the machine has them. Masking with a run of ones and shifting down is division and
remainder by powers of two, also for integers in two's complement; words are little-endian bytes,
one behind the other in a stream. A stretch of `n` numbers meets every residue modulo `n` once, and
quotients are truncated toward zero. -/
namespace ElasticTranslations.Structures

section BitFields

/-- The run of ones from bit `n` up to, but without, bit `n+k`. -/
lemma ones_eq_shiftLeft (n k : ℕ) : 2^(n+k) - 2^n = (2^k-1) <<< n := by
  rw [Nat.shiftLeft_eq,Nat.sub_mul,one_mul,pow_add,mul_comm]

theorem field_eq_div_mod (a n k : ℕ) : (a &&& (2^(n+k) - 2^n)) >>> n = a/2^n % 2^k := by
  rw [ones_eq_shiftLeft,Nat.shiftRight_and_distrib,Nat.shiftLeft_shiftRight,
    Nat.and_two_pow_sub_one_eq_mod,Nat.shiftRight_eq_div_pow]

/-- A stray lowest bit in the mask is shifted out with the rest of the low bits. -/
theorem field_eq_div_mod_of_low_bit (a n k : ℕ) (hn : 0 < n) :
    (a &&& (2^(n+k) - 2^n + 1)) >>> n = a/2^n % 2^k := by
  have hones : 2^(n+k) - 2^n + 1 = (2^(n+k) - 2^n) ||| 1 := by
    have heven : 2 ∣ 2^(n+k) - 2^n :=
      Nat.dvd_sub (dvd_pow_self 2 (by omega)) (dvd_pow_self 2 (by omega))
    obtain ⟨m,hm⟩ := heven
    rw [hm]
    simpa using (Nat.two_pow_add_eq_or_of_lt (i := 1) (b := 1) (by omega) m)
  have hlow : (a &&& 1) >>> n = 0 := by
    have h1 : a &&& 1 ≤ 1 := Nat.and_le_right
    have h2 : 1 < 2^n := Nat.one_lt_two_pow (by omega)
    rw [Nat.shiftRight_eq_div_pow]
    exact Nat.div_eq_of_lt (by omega)
  rw [hones,Nat.and_or_distrib_left,Nat.shiftRight_or_distrib,hlow,Nat.or_zero,field_eq_div_mod]

/-- A number is its quotient and remainder by a power of two, read back together. -/
lemma div_mod_two_pow_inj {a b L : ℕ} (hm : a % 2^L = b % 2^L) (hd : a/2^L = b/2^L) : a = b := by
  rw [← Nat.div_add_mod a (2^L),← Nat.div_add_mod b (2^L),hm,hd]

/-- One bit of an integer. -/
theorem land_two_pow (p : ℤ) (k : ℕ) : p.land (2^k) = 0 ↔ p.testBit k = false := by
  have hpow : (2 : ℤ)^k = ((2^k : ℕ) : ℤ) := by push_cast; rfl
  rw [hpow]
  cases p with
  | ofNat n =>
    change ((n &&& 2^k : ℕ) : ℤ) = 0 ↔ n.testBit k = false
    rw [Nat.and_two_pow]
    cases n.testBit k <;> simp
  | negSucc n =>
    have hbit : Nat.ldiff (2^k) n = if n.testBit k then 0 else 2^k := by
      refine Nat.eq_of_testBit_eq fun i => ?_
      rw [Nat.testBit_ldiff,Nat.testBit_two_pow]
      by_cases hi : k = i
      · subst hi
        cases hn : n.testBit k <;> simp
      · cases hn : n.testBit k <;> simp [hi]
    change ((Nat.ldiff (2^k) n : ℕ) : ℤ) = 0 ↔ (!n.testBit k) = false
    rw [hbit]
    cases n.testBit k <;> simp

lemma ldiff_ones (n k : ℕ) : Nat.ldiff n (2^k-1) = 2^k*(n/2^k) := by
  refine Nat.eq_of_testBit_eq fun i => ?_
  rw [Nat.testBit_ldiff,Nat.testBit_two_pow_sub_one,Nat.testBit_two_pow_mul,Nat.testBit_div_two_pow]
  by_cases hi : i < k
  · simp [hi]
  · simp [hi,show k ≤ i by omega]

lemma or_ones (n k : ℕ) : n ||| (2^k-1) = 2^k*(n/2^k) + (2^k-1) := by
  have hlt : 2^k-1 < 2^k := Nat.sub_lt (Nat.two_pow_pos k) (by omega)
  rw [Nat.two_pow_add_eq_or_of_lt hlt]
  refine Nat.eq_of_testBit_eq fun i => ?_
  rw [Nat.testBit_or,Nat.testBit_or,Nat.testBit_two_pow_sub_one,Nat.testBit_two_pow_mul,
    Nat.testBit_div_two_pow]
  by_cases hi : i < k
  · simp [hi]
  · simp [hi,show k ≤ i by omega]

/-- Clearing the low bits of an integer aligns it downward. -/
theorem land_lnot_ones (v : ℤ) (k : ℕ) :
    v.land (((2^k-1 : ℕ) : ℤ).lnot) = 2^k*(v/2^k) := by
  cases v with
  | ofNat n =>
    change ((Nat.ldiff n (2^k-1) : ℕ) : ℤ) = 2^k*((n : ℤ)/2^k)
    rw [ldiff_ones]
    push_cast
    rfl
  | negSucc n =>
    have hpos : (0 : ℤ) < 2^k := by exact_mod_cast Nat.two_pow_pos k
    have hdiv : (Int.negSucc n)/(2^k : ℤ) = -((n : ℤ)/2^k + 1) := Int.negSucc_ediv n hpos
    change Int.negSucc (n ||| (2^k-1)) = _
    rw [or_ones,hdiv,Int.negSucc_eq]
    push_cast [Nat.one_le_two_pow]
    ring

end BitFields

section Words

abbrev Byte := BitVec 8

/-- The low `k` bytes of a number. -/
def toBytes : ℕ → ℕ → List Byte
  | 0,_ => []
  | k+1,n => BitVec.ofNat 8 n :: toBytes k (n/256)

def ofBytes : List Byte → ℕ
  | [] => 0
  | b :: bs => b.toNat+256*ofBytes bs

@[simp] lemma length_toBytes (k n : ℕ) : (toBytes k n).length = k := by
  induction k generalizing n with
  | zero => rfl
  | succ k ih => simp [toBytes,ih]

lemma ofBytes_toBytes {k n : ℕ} (hn : n < 256^k) : ofBytes (toBytes k n) = n := by
  induction k generalizing n with
  | zero =>
    rw [Nat.pow_zero] at hn
    simp only [toBytes,ofBytes]
    omega
  | succ k ih =>
    rw [Nat.pow_succ] at hn
    rw [toBytes,ofBytes,ih (by omega),BitVec.toNat_ofNat]
    omega

/-- One word of `k` bytes, if there are as many. -/
def readWord (k : ℕ) (bs : List Byte) : Option (ℕ × List Byte) :=
  if k ≤ bs.length then some (ofBytes (bs.take k),bs.drop k) else none

def readWords (k : ℕ) : ℕ → List Byte → Option (List ℕ × List Byte)
  | 0,bs => some ([],bs)
  | n+1,bs => do
    let (x,bs) ← readWord k bs
    let (xs,bs) ← readWords k n bs
    some (x :: xs,bs)

lemma readWord_append {k x : ℕ} (hx : x < 256^k) (rest : List Byte) :
    readWord k (toBytes k x++rest) = some (x,rest) := by
  have htake : (toBytes k x++rest).take k = toBytes k x :=
    List.take_left' (length_toBytes k x)
  have hdrop : (toBytes k x++rest).drop k = rest := List.drop_left' (length_toBytes k x)
  rw [readWord,if_pos (by simp),htake,hdrop,ofBytes_toBytes hx]

lemma readWords_append {k : ℕ} {xs : List ℕ} (hxs : ∀ x ∈ xs,x < 256^k) (rest : List Byte) :
    readWords k xs.length (xs.flatMap (toBytes k)++rest) = some (xs,rest) := by
  induction xs with
  | nil => rfl
  | cons x xs ih =>
    have hx := readWord_append (hxs x (by simp)) (xs.flatMap (toBytes k)++rest)
    have ih := ih fun y hy => hxs y (by simp [hy])
    simp only [List.flatMap_cons,List.append_assoc,List.length_cons,readWords,hx,ih,
      Option.bind_eq_bind,Option.bind_some]

end Words

section Residues

lemma eq_of_mod_eq {n m m' : ℕ} (h : m % n = m' % n) (hle : m ≤ m') (hlt : m' < m+n) : m = m' := by
  have hzero : (m'-m) % n = 0 := Nat.sub_mod_eq_zero_of_mod_eq h.symm
  rw [Nat.mod_eq_of_lt (by omega)] at hzero
  omega

/-- Every residue occurs exactly once among consecutive numbers. -/
theorem existsUnique_residue (n a s : ℕ) (hs : s < n) :
    ∃! m, (a ≤ m ∧ m < a+n) ∧ m % n = s := by
  have ha := Nat.div_add_mod a n
  have hr : a % n < n := Nat.mod_lt a (by omega)
  apply existsUnique_of_exists_of_unique
  · by_cases hle : a % n ≤ s
    · refine ⟨n*(a/n)+s,⟨by omega,by omega⟩,?_⟩
      rw [Nat.mul_add_mod,Nat.mod_eq_of_lt hs]
    · refine ⟨n*(a/n)+n+s,⟨by omega,by omega⟩,?_⟩
      rw [Nat.add_assoc,Nat.mul_add_mod,Nat.add_mod_left,Nat.mod_eq_of_lt hs]
  · rintro m m' ⟨⟨hm,hmn⟩,hms⟩ ⟨⟨hm',hmn'⟩,hms'⟩
    rcases Nat.le_total m m' with hle | hle
    · exact eq_of_mod_eq (hms.trans hms'.symm) hle (by omega)
    · exact (eq_of_mod_eq (hms'.trans hms.symm) hle (by omega)).symm

/-- No residue is met more than `k` times below `n*k`. -/
theorem countP_residue_le (n k s : ℕ) :
    (List.range (n*k)).countP (fun m => m % n = s) ≤ k := by
  induction k with
  | zero => simp
  | succ k ih =>
    have hlast : ((List.range n).map (n*k + ·)).countP (fun m => m % n = s) ≤ 1 := by
      rw [List.countP_map]
      calc (List.range n).countP ((fun m => decide (m % n = s)) ∘ (n*k + ·))
          = (List.range n).count s := by
            apply List.countP_congr
            intro m hm
            simp [Nat.mod_eq_of_lt (List.mem_range.mp hm)]
        _ ≤ 1 := List.nodup_iff_count_le_one.mp List.nodup_range s
    rw [Nat.mul_succ,List.range_add,List.countP_append]
    omega

end Residues

section Truncation

/-- The conversion of a quotient to an integer, toward zero. -/
def trunc (q : ℚ) : ℤ := q.num.tdiv q.den

lemma trunc_of_neg {q : ℚ} (h : q.num < 0) : trunc q = -(-q.num/q.den) := by
  rw [trunc,← Int.neg_neg q.num,Int.neg_tdiv,Int.neg_neg,Int.tdiv_eq_ediv_of_nonneg (by omega)]

lemma trunc_nonneg_iff (q : ℚ) : 0 ≤ trunc q ↔ -1 < q := by
  have hden : (0 : ℤ) < q.den := by exact_mod_cast q.den_pos
  have hq : -1 < q ↔ -(q.den : ℤ) < q.num := by simp [Rat.lt_iff]
  rw [hq]
  rcases lt_or_ge q.num 0 with hneg | hpos
  · have hdiv : -q.num/q.den < 1 ↔ -q.num < 1*q.den := Int.ediv_lt_iff_lt_mul hden
    rw [trunc_of_neg hneg]
    omega
  · exact iff_of_true (Int.tdiv_nonneg hpos hden.le) (by omega)

lemma trunc_lt_iff (q : ℚ) {n : ℕ} (hn : 0 < n) : trunc q < n ↔ q < n := by
  have hden : (0 : ℤ) < q.den := by exact_mod_cast q.den_pos
  have hq : q < n ↔ q.num < n*q.den := by simp [Rat.lt_iff]
  rw [hq]
  rcases lt_or_ge q.num 0 with hneg | hpos
  · have hquot : 0 ≤ -q.num/q.den := Int.ediv_nonneg (by omega) hden.le
    have hmul : 0 ≤ (n : ℤ)*q.den := Int.mul_nonneg (by omega) hden.le
    rw [trunc_of_neg hneg]
    omega
  · rw [trunc,Int.tdiv_eq_ediv_of_nonneg hpos,Int.ediv_lt_iff_lt_mul hden]

end Truncation

end ElasticTranslations.Structures
