import Mathlib.Algebra.Ring.Parity
import Mathlib.Data.Nat.ModEq
import Mathlib.Data.Nat.Prime.Basic
import Mathlib.Logic.Function.Iterate
import Mathlib.Tactic.Common
import Mathlib.Tactic.Ring

/-! Linear congruential generators modulo a power of two. With a factor `4*b+1` and an odd
increment, all states come up before one of them comes back. -/
namespace ElasticTranslations.Structures

/-- The step of the generator, not reduced. -/
def affine (a c x : ℕ) : ℕ := a*x+c

/-- The sum of the first powers of `4*b+1`. -/
def powerSum (b : ℕ) : ℕ → ℕ
  | 0 => 0
  | n+1 => (4*b+1)*powerSum b n+1

section Sums
variable (b : ℕ)

lemma powerSum_add (m n : ℕ) :
    powerSum b (m+n) = powerSum b m+powerSum b n+4*b*powerSum b m*powerSum b n := by
  induction n with
  | zero => simp [powerSum]
  | succ n ih =>
    rw [← Nat.add_assoc,powerSum,ih,powerSum]
    ring

lemma powerSum_double (m : ℕ) :
    powerSum b (2*m) = 2*(powerSum b m*(2*(b*powerSum b m)+1)) := by
  rw [Nat.two_mul,powerSum_add]
  ring

/-- The sum has the factors two of its length, for each doubling adds one of them. -/
lemma dvd_powerSum_iff (k n : ℕ) : 2^k ∣ powerSum b n ↔ 2^k ∣ n := by
  induction k generalizing n with
  | zero => simp
  | succ k ih =>
    obtain ⟨m,rfl | rfl⟩ := n.even_or_odd'
    · have hcop : Nat.Coprime (2^k) (2*(b*powerSum b m)+1) :=
        Nat.Coprime.pow_left k (Nat.coprime_two_left.mpr (odd_two_mul_add_one _))
      rw [powerSum_double,Nat.pow_succ',Nat.mul_dvd_mul_iff_left two_pos,
        Nat.mul_dvd_mul_iff_left two_pos,hcop.dvd_mul_right,ih]
    · have hodd : powerSum b (2*m+1) =
          2*((4*b+1)*(powerSum b m*(2*(b*powerSum b m)+1)))+1 := by
        rw [powerSum,powerSum_double]
        ring
      have hnot : ∀ j,¬2^(k+1) ∣ 2*j+1 := by
        intro j hdvd
        have := (dvd_pow_self 2 (Nat.succ_ne_zero k)).trans hdvd
        omega
      rw [hodd]
      exact iff_of_false (hnot _) (hnot m)

end Sums

section Period
variable (b c : ℕ)

/-- A run of the generator moves a state by a multiple of the sum. -/
lemma iterate_affine (n x : ℕ) :
    (affine (4*b+1) c)^[n] x = x+(4*b*x+c)*powerSum b n := by
  induction n with
  | zero => simp [powerSum]
  | succ n ih =>
    rw [Function.iterate_succ_apply',ih,affine,powerSum]
    ring

lemma iterate_affine_modEq_iff (hc : Odd c) (k n x : ℕ) :
    (affine (4*b+1) c)^[n] x ≡ x [MOD 2^k] ↔ 2^k ∣ n := by
  have hodd : Odd (4*b*x+c) := by
    refine Even.add_odd ?_ hc
    rw [Nat.mul_assoc]
    exact even_iff_two_dvd.mpr ((show 2 ∣ 4 by decide).mul_right _)
  have hcop : Nat.Coprime (2^k) (4*b*x+c) :=
    Nat.Coprime.pow_left k (Nat.coprime_two_left.mpr hodd)
  rw [iterate_affine,Nat.ModEq.comm,Nat.modEq_iff_dvd' (Nat.le_add_right _ _),
    Nat.add_sub_cancel_left,hcop.dvd_mul_left,dvd_powerSum_iff]

/-- The period is full. -/
lemma iterate_affine_modEq (hc : Odd c) (k m n x : ℕ) :
    (affine (4*b+1) c)^[m] x ≡ (affine (4*b+1) c)^[n] x [MOD 2^k] ↔ m ≡ n [MOD 2^k] := by
  have hle : ∀ m n,m ≤ n →
      ((affine (4*b+1) c)^[m] x ≡ (affine (4*b+1) c)^[n] x [MOD 2^k] ↔ m ≡ n [MOD 2^k]) := by
    intro m n hmn
    obtain ⟨l,rfl⟩ := Nat.exists_eq_add_of_le hmn
    rw [Nat.add_comm m l,Function.iterate_add_apply,Nat.ModEq.comm,
      iterate_affine_modEq_iff b c hc,Nat.modEq_iff_dvd' (Nat.le_add_left _ _),
      Nat.add_sub_cancel]
  rcases Nat.le_total m n with hmn | hnm
  · exact hle m n hmn
  · rw [Nat.ModEq.comm,hle n m hnm,Nat.ModEq.comm]

end Period

end ElasticTranslations.Structures
