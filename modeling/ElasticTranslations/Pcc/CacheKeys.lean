import ElasticTranslations.Structures.Numbers
import ElasticTranslations.Pcc.FunctionalCache

/-! Set index and tag of an address as arithmetic of its page number: the set index is the
page number modulo a power of two and the tag is the quotient. -/
namespace ElasticTranslations.Pcc
open Structures

lemma ofInt_natCast {n : ℕ} (h : n < 2^64) : UInt64.ofInt (n : ℤ) = UInt64.ofNat n := by
  unfold UInt64.ofInt
  congr 1
  omega

lemma one_shiftLeft_toNat {n : ℕ} (h : n < 64) :
    ((1 : UInt64) <<< UInt64.ofInt (n : ℤ)).toNat = 2^n := by
  have hlt : 2^n < 2^64 := Nat.pow_lt_pow_right (by omega) h
  rw [ofInt_natCast (by omega),UInt64.toNat_shiftLeft]
  simp only [UInt64.toNat_ofNat',UInt64.toNat_one,Nat.shiftLeft_eq,one_mul]
  rw [Nat.mod_eq_of_lt (by omega : n < 2^64),Nat.mod_eq_of_lt h,Nat.mod_eq_of_lt hlt]

lemma low_mask_toNat {n : ℕ} (h : n < 64) :
    (((1 : UInt64) <<< UInt64.ofInt (n : ℤ)) - 1).toNat = 2^n - 1 := by
  have hp : 0 < 2^n := Nat.two_pow_pos n
  rw [UInt64.toNat_sub_of_le,one_shiftLeft_toNat h,UInt64.toNat_one]
  rw [UInt64.le_iff_toNat_le,one_shiftLeft_toNat h,UInt64.toNat_one]
  exact hp

/-- A field strictly inside the word. -/
theorem extract_field (a : UInt64) (n k : ℕ) (h : n+k < 64) :
    (extract ((k : ℤ)+n-1) n a).toNat = a.toNat/2^n % 2^k := by
  have hle : 2^n ≤ 2^(n+k) := Nat.pow_le_pow_right (by omega) (by omega)
  have hmax : (k : ℤ)+n-1+1 = ((n+k : ℕ) : ℤ) := by push_cast; ring
  have hmask : ((((1 : UInt64) <<< UInt64.ofInt ((n+k : ℕ) : ℤ)) - 1) -
      (((1 : UInt64) <<< UInt64.ofInt (n : ℤ)) - 1)).toNat = 2^(n+k) - 2^n := by
    have hp : 0 < 2^n := Nat.two_pow_pos n
    rw [UInt64.toNat_sub_of_le,low_mask_toNat h,low_mask_toNat (by omega)]
    · omega
    · rw [UInt64.le_iff_toNat_le,low_mask_toNat h,low_mask_toNat (by omega)]
      omega
  unfold extract
  simp only [hmax]
  rw [UInt64.toNat_shiftRight,UInt64.toNat_and,hmask,ofInt_natCast (by omega),
    UInt64.toNat_ofNat',Nat.mod_eq_of_lt (by omega : n < 2^64),Nat.mod_eq_of_lt (by omega : n < 64)]
  exact field_eq_div_mod _ _ _

/-- The field up to bit 63: the 64-bit shift is a shift by zero, so the upper mask is zero
and the difference of the masks wraps around. -/
theorem extract_top (a : UInt64) (n : ℕ) (hn : 0 < n) (h : n < 64) :
    (extract 63 n a).toNat = a.toNat/2^n := by
  have hle : 2^n ≤ 2^64 := Nat.pow_le_pow_right (by omega) (by omega)
  have h1 : 1 < 2^n := Nat.one_lt_two_pow (by omega)
  have hmax : ((1 : UInt64) <<< UInt64.ofInt ((63 : ℤ)+1)) - 1 = 0 := by decide
  have hmask : ((0 : UInt64) - (((1 : UInt64) <<< UInt64.ofInt (n : ℤ)) - 1)).toNat =
      2^(n+(64-n)) - 2^n + 1 := by
    rw [UInt64.toNat_sub,low_mask_toNat h,UInt64.toNat_zero,Nat.add_zero,
      show n+(64-n) = 64 by omega,Nat.mod_eq_of_lt (by omega)]
    omega
  unfold extract
  simp only [hmax]
  rw [UInt64.toNat_shiftRight,UInt64.toNat_and,hmask,ofInt_natCast (by omega),
    UInt64.toNat_ofNat',Nat.mod_eq_of_lt (by omega : n < 2^64),Nat.mod_eq_of_lt (by omega : n < 64),
    field_eq_div_mod_of_low_bit _ _ _ hn,Nat.mod_eq_of_lt]
  rw [Nat.div_lt_iff_lt_mul (Nat.two_pow_pos n),← pow_add,show 64-n+n = 64 by omega]
  exact a.toNat_lt

namespace Geometry

/-- The number of offset bits. -/
def offsetBits (g : Geometry) (is2M : Bool) : ℕ := if is2M then 21 else g.logLineSize

def pageNumber (g : Geometry) (address : UInt64) (is2M : Bool) : ℕ :=
  address.toNat/2^g.offsetBits is2M

/-- What the proofs need of a geometry: fields inside the word, a set index that is always
in range, at least one way and one of the two policies of the simulator. -/
class Sound (g : Geometry) : Prop where
  line : 0 < g.logLineSize ∧ g.logSetCount + g.logLineSize < 64
  huge : g.logSetCount < 43
  sets : 2^g.logSetCount ≤ g.setCount
  ways : 0 < g.associativity
  lruOrLfu : g.policy = 0 ∨ g.policy = 2

variable {g : Geometry}

lemma Sound.policy_le [g.Sound] : g.policy ≤ 2 := by
  rcases Sound.lruOrLfu (g := g) with h | h <;> omega

lemma Sound.policy_ne_one [g.Sound] : g.policy ≠ 1 := by
  rcases Sound.lruOrLfu (g := g) with h | h <;> omega

lemma logPofs_eq (is2M : Bool) : g.logPofs is2M = (g.offsetBits is2M : ℤ) := by
  cases is2M
  · rfl
  · simp only [logPofs,offsetBits,if_true]
    have h : Nat.log2 hugePageSize.toNat = 21 := by decide +kernel
    rw [h]

lemma offsetBits_bounds [g.Sound] (is2M : Bool) :
    0 < g.offsetBits is2M ∧ g.logSetCount + g.offsetBits is2M < 64 := by
  have hl := Sound.line (g := g)
  have hh := Sound.huge (g := g)
  cases is2M
  · exact hl
  · simp only [offsetBits,if_true]
    omega

theorem setidOf_toNat [g.Sound] (a : UInt64) (is2M : Bool) :
    (g.setidOf a is2M).toNat = g.pageNumber a is2M % 2^g.logSetCount := by
  have hb := g.offsetBits_bounds is2M
  rw [setidOf,logPofs_eq]
  exact extract_field a _ _ (by omega)

theorem tagOf_toNat [g.Sound] (a : UInt64) (is2M : Bool) :
    (g.tagOf a is2M).toNat = g.pageNumber a is2M/2^g.logSetCount := by
  have hb := g.offsetBits_bounds is2M
  rw [tagOf,logPofs_eq,show (g.logSetCount : ℤ) + (g.offsetBits is2M : ℤ) =
    ((g.logSetCount + g.offsetBits is2M : ℕ) : ℤ) by push_cast; rfl,
    extract_top a _ (by omega) hb.2,pageNumber,Nat.div_div_eq_div_mul,← pow_add,add_comm]

theorem offsetOf_toNat [g.Sound] (a : UInt64) (is2M : Bool) :
    (g.offsetOf a is2M).toNat = a.toNat % 2^g.offsetBits is2M := by
  have hb := g.offsetBits_bounds is2M
  rw [offsetOf,logPofs_eq]
  simpa using extract_field a 0 (g.offsetBits is2M) (by omega)

lemma setidOf_lt [g.Sound] (a : UInt64) (is2M : Bool) : (g.setidOf a is2M).toNat < g.setCount := by
  rw [setidOf_toNat]
  exact (Nat.mod_lt _ (Nat.two_pow_pos _)).trans_le Sound.sets

/-- Where a translation lives: the set and the tag. -/
def key (g : Geometry) (address : UInt64) (is2M : Bool) : ℕ × UInt64 :=
  ((g.setidOf address is2M).toNat,g.tagOf address is2M)

/-- Two lookups reach the same place exactly when their page numbers agree, whatever the
page sizes are. -/
theorem key_eq_iff [g.Sound] (a b : UInt64) (f f' : Bool) :
    g.key a f = g.key b f' ↔ g.pageNumber a f = g.pageNumber b f' := by
  simp only [key,Prod.mk.injEq,← UInt64.toNat_inj,setidOf_toNat,tagOf_toNat]
  constructor
  · rintro ⟨hm,hd⟩
    exact div_mod_two_pow_inj hm hd
  · intro h
    rw [h]
    exact ⟨rfl,rfl⟩

end Geometry
end ElasticTranslations.Pcc
