import Mathlib.Logic.Function.Iterate
import Mathlib.Tactic.Common

/-! Maps of words that are linear in exclusive or. Such a map is its values on the powers of
two, combined by the bits of its argument; for the step of a shift register the combination of
its even iterates doubles the number of steps. -/
namespace ElasticTranslations.Structures
variable {w : ℕ}

def XorLinear (f : BitVec w → BitVec w) : Prop := ∀ a b, f (a ^^^ b) = f a ^^^ f b

/-- The entries of a table at the first `k` bits that are set. -/
def combine (table : ℕ → BitVec w) (r : BitVec w) : ℕ → BitVec w
  | 0 => 0
  | k+1 => combine table r k ^^^ (if r.getLsbD k then table k else 0)

lemma combine_congr {table table' : ℕ → BitVec w} {k : ℕ} (h : ∀ j < k,table j = table' j)
    (r : BitVec w) : combine table r k = combine table' r k := by
  induction k with
  | zero => rfl
  | succ k ih =>
    rw [combine,combine,ih fun j hj => h j (Nat.lt_succ_of_lt hj),h k (Nat.lt_succ_self k)]

lemma combine_xor (table : ℕ → BitVec w) (a b : BitVec w) (k : ℕ) :
    combine table (a ^^^ b) k = combine table a k ^^^ combine table b k := by
  induction k with
  | zero => simp [combine]
  | succ k ih =>
    rw [combine,combine,combine,ih,BitVec.getLsbD_xor]
    cases a.getLsbD k <;> cases b.getLsbD k
    · simp
    · simp only [Bool.false_xor,if_true,Bool.false_eq_true,if_false]
      ac_rfl
    · simp only [Bool.xor_false,if_true,Bool.false_eq_true,if_false]
      ac_rfl
    · have hcancel : combine table a k ^^^ table k ^^^ (combine table b k ^^^ table k) =
          combine table a k ^^^ combine table b k ^^^ (table k ^^^ table k) := by ac_rfl
      simp [hcancel]

/-- The bits of a word put it together again. -/
lemma combine_twoPow (r : BitVec w) : combine (BitVec.twoPow w) r w = r := by
  have hbits : ∀ k ≤ w,∀ i,(combine (BitVec.twoPow w) r k).getLsbD i =
      (decide (i < k) && r.getLsbD i) := by
    intro k
    induction k with
    | zero => simp [combine]
    | succ k ih =>
      intro hk i
      rw [combine,BitVec.getLsbD_xor,ih (by omega)]
      by_cases hi : i = k
      · subst hi
        cases r.getLsbD i <;> simp [BitVec.getLsbD_twoPow]
        omega
      · have hlt : i < k+1 ↔ i < k := by omega
        cases hbit : r.getLsbD k <;> simp [hlt,BitVec.getLsbD_twoPow,Ne.symm hi]
  apply BitVec.eq_of_getLsbD_eq
  intro i hi
  rw [hbits w (Nat.le_refl w)]
  simp [hi]

lemma combine_of_twoPow (table : ℕ → BitVec w) {j : ℕ} (hj : j < w) :
    combine table (BitVec.twoPow w j) w = table j := by
  have hbits : ∀ k ≤ w,combine table (BitVec.twoPow w j) k = if j < k then table j else 0 := by
    intro k
    induction k with
    | zero => simp [combine]
    | succ k ih =>
      intro hk
      rw [combine,ih (by omega),BitVec.getLsbD_twoPow]
      by_cases hjk : j = k
      · subst hjk
        simp [hj]
      · have hlt : j < k+1 ↔ j < k := by omega
        simp [hjk,hlt]
  rw [hbits w (Nat.le_refl w),if_pos hj]

namespace XorLinear
variable {f g : BitVec w → BitVec w}

lemma map_zero (hf : XorLinear f) : f 0 = 0 := by
  have h := hf 0 0
  rw [BitVec.xor_self,BitVec.xor_self] at h
  exact h

lemma map_combine (hf : XorLinear f) (table : ℕ → BitVec w) (r : BitVec w) (k : ℕ) :
    f (combine table r k) = combine (fun j => f (table j)) r k := by
  induction k with
  | zero => exact hf.map_zero
  | succ k ih =>
    rw [combine,combine,hf,ih]
    congr 1
    cases r.getLsbD k
    · exact hf.map_zero
    · rfl

/-- A linear map is known by its values on the powers of two. -/
theorem ext (hf : XorLinear f) (hg : XorLinear g)
    (h : ∀ j < w,f (BitVec.twoPow w j) = g (BitVec.twoPow w j)) (r : BitVec w) : f r = g r := by
  calc f r = f (combine (BitVec.twoPow w) r w) := by rw [combine_twoPow]
    _ = combine (fun j => f (BitVec.twoPow w j)) r w := hf.map_combine _ r w
    _ = combine (fun j => g (BitVec.twoPow w j)) r w := combine_congr h r
    _ = g (combine (BitVec.twoPow w) r w) := (hg.map_combine _ r w).symm
    _ = g r := by rw [combine_twoPow]

/-- Doubling the steps of a shift register: its even iterates, combined by the bits of the word
after `k` steps, are the word after `2*k` steps, if that holds of the first word fed back. -/
theorem combine_iterate (hf : XorLinear f)
    (hshift : ∀ j,j+1 < w → f (BitVec.twoPow w j) = BitVec.twoPow w (j+1)) (hw : 0 < w)
    (hfeed : combine (fun j => f^[2*j] (BitVec.twoPow w 0)) (f^[w] (BitVec.twoPow w 0)) w =
      f^[2*w] (BitVec.twoPow w 0)) (k : ℕ) :
    combine (fun j => f^[2*j] (BitVec.twoPow w 0)) (f^[k] (BitVec.twoPow w 0)) w =
      f^[2*k] (BitVec.twoPow w 0) := by
  let table : ℕ → BitVec w := fun j => f^[2*j] (BitVec.twoPow w 0)
  have htable : ∀ j,table (j+1) = f (f (table j)) := by
    intro j
    change f^[2*j+1+1] _ = _
    rw [Function.iterate_succ_apply',Function.iterate_succ_apply']
  have hpow : ∀ j < w,BitVec.twoPow w j = f^[j] (BitVec.twoPow w 0) := by
    intro j
    induction j with
    | zero => exact fun _ => rfl
    | succ j ih =>
      intro hj
      rw [Function.iterate_succ_apply',← ih (by omega),hshift j hj]
  -- Squaring turns a step into two.
  have hstep : ∀ r,combine table (f r) w = f (f (combine table r w)) := by
    refine XorLinear.ext (fun a b => ?_) (fun a b => ?_) ?_
    · rw [hf,combine_xor]
    · rw [combine_xor,hf,hf]
    · intro j hj
      rw [combine_of_twoPow table hj,← htable]
      by_cases hj' : j+1 < w
      · rw [hshift j hj',combine_of_twoPow table hj']
      · obtain rfl : w = j+1 := by omega
        have hlast : f (BitVec.twoPow (j+1) j) = f^[j+1] (BitVec.twoPow (j+1) 0) := by
          rw [Function.iterate_succ_apply',← hpow j hj]
        rw [hlast]
        exact hfeed
  induction k with
  | zero => exact combine_of_twoPow table hw
  | succ k ih =>
    change combine table (f^[k+1] _) w = f^[2*k+1+1] _
    rw [Function.iterate_succ_apply',Function.iterate_succ_apply',Function.iterate_succ_apply',
      hstep]
    congr 2

end XorLinear
end ElasticTranslations.Structures
