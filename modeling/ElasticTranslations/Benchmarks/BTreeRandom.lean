import Mathlib.Tactic.Linarith
import ElasticTranslations.Structures.Congruential

/-! The random numbers of `btree1.c`: a congruential generator of 48 bits, in limbs of 16 whose
carries are added up by hand. -/
namespace ElasticTranslations.Benchmarks.BTree.Random
open Structures

abbrev Word := BitVec 64

/-- The arrays `x` and `a`. -/
structure Limbs where
  lo : Word
  mid : Word
  hi : Word

structure Generator where
  x : Limbs
  a : Limbs
  c : Word

/-- `((1 << (N - 1)) + (1 << (N - 1)) - 1)`. -/
def mask : BitVec 32 := 0xFFFF

/-- `LOW(x)`, through `unsigned`. -/
def low {w : ℕ} (x : BitVec w) : Word := (x.setWidth 32 &&& mask).setWidth 64

/-- `HIGH(x)` of an `int32_t`, with an arithmetic shift. -/
def high (x : BitVec 32) : Word := low (x.sshiftRight 16)

/-- `MUL(x, y, z)`: the product goes through an `int32_t`. -/
def mul (x y : Word) : Word × Word :=
  let l := (x*y).setWidth 32
  (low l,high l)

/-- `CARRY(x, y)`. -/
def carry (x y : Word) : Word := if (x.setWidth 32).toInt+y.toInt > 65535 then 1 else 0

/-- `ADDEQU(x, y, z)`: the new values of `x` and `z`. -/
def addEqu (x y : Word) : Word × Word := (low (x+y),carry x y)

def next (s : Generator) : Generator :=
  let (p0,p1) := mul s.a.lo s.x.lo
  let (p0,carry0) := addEqu p0 s.c
  let (p1,carry1) := addEqu p1 carry0
  let (q0,q1) := mul s.a.lo s.x.mid
  let (p1,carry0) := addEqu p1 q0
  let (r0,r1) := mul s.a.mid s.x.lo
  { s with x :=
    ⟨low p0,low (p1+r0),low (carry0+carry1+carry p1 r0+q1+r1+
      s.a.lo*s.x.hi+s.a.mid*s.x.mid+s.a.hi*s.x.lo)⟩ }

def redisLrand48 (s : Generator) : Word × Generator :=
  let s := next s
  ((s.x.hi <<< 15)+(s.x.mid >>> 1),s)

/-- `SEED`, with the constants `X0`, `A0`, `A1`, `A2` and `C`. -/
def redisSrand48 (seedval : BitVec 32) : Generator :=
  ⟨⟨0x330E,low seedval,high seedval⟩,⟨0xE66D,0xDEEC,0x5⟩,0xB⟩

section Limbs

lemma low_toNat {w : ℕ} (x : BitVec w) : (low x).toNat = x.toNat % 2^16 := by
  rw [low,mask,BitVec.toNat_setWidth,BitVec.toNat_and,BitVec.toNat_setWidth]
  have hmask : (0xFFFF : BitVec 32).toNat = 2^16-1 := rfl
  rw [hmask,Nat.and_two_pow_sub_one_eq_mod]
  omega

lemma high_toNat (x : BitVec 32) : (high x).toNat = x.toNat/2^16 := by
  have hx := x.isLt
  rw [high,low_toNat]
  cases hmsb : x.msb with
  | false =>
    rw [BitVec.sshiftRight_eq_of_msb_false hmsb,BitVec.toNat_ushiftRight,Nat.shiftRight_eq_div_pow]
    omega
  | true =>
    rw [BitVec.sshiftRight_eq_of_msb_true hmsb,BitVec.toNat_not,BitVec.toNat_ushiftRight,
      BitVec.toNat_not,Nat.shiftRight_eq_div_pow]
    omega

variable {x y : Word}

/-- A product of limbs fits into 32 bits. -/
lemma mul_lt (hx : x.toNat < 2^16) (hy : y.toNat < 2^16) : x.toNat*y.toNat < 2^32 := by
  have := Nat.mul_lt_mul'' hx hy
  omega

lemma mul_toNat (hx : x.toNat < 2^16) (hy : y.toNat < 2^16) :
    (mul x y).1.toNat = x.toNat*y.toNat % 2^16 ∧ (mul x y).2.toNat = x.toNat*y.toNat/2^16 := by
  have hlt := mul_lt hx hy
  have hl : ((x*y).setWidth 32).toNat = x.toNat*y.toNat := by
    rw [BitVec.toNat_setWidth,BitVec.toNat_mul]
    omega
  rw [mul,low_toNat,high_toNat,hl]
  exact ⟨rfl,rfl⟩

lemma carry_toNat (hx : x.toNat < 2^16) (hy : y.toNat < 2^16) :
    (carry x y).toNat = (x.toNat+y.toNat)/2^16 := by
  have hx' : (x.setWidth 32).toInt = x.toNat := by
    rw [BitVec.toInt_eq_toNat_of_lt,BitVec.toNat_setWidth]
    · omega
    · rw [BitVec.toNat_setWidth]
      omega
  have hy' : y.toInt = y.toNat := BitVec.toInt_eq_toNat_of_lt (by omega)
  rw [carry,hx',hy']
  split_ifs with h
  · change 1 = _
    omega
  · change 0 = _
    omega

lemma addEqu_toNat (hx : x.toNat < 2^16) (hy : y.toNat < 2^16) :
    (addEqu x y).1.toNat = (x.toNat+y.toNat) % 2^16 ∧
      (addEqu x y).2.toNat = (x.toNat+y.toNat)/2^16 := by
  rw [addEqu,low_toNat,carry_toNat hx hy,BitVec.toNat_add]
  exact ⟨by omega,rfl⟩

end Limbs

/-- What the words of a number hold. -/
structure Limbs.Ok (l : Limbs) : Prop where
  lo : l.lo.toNat < 2^16
  mid : l.mid.toNat < 2^16
  hi : l.hi.toNat < 2^16

def Limbs.value (l : Limbs) : ℕ := l.lo.toNat+2^16*l.mid.toNat+2^32*l.hi.toNat

structure Generator.Ok (s : Generator) : Prop where
  x : s.x.Ok
  a : s.a.Ok
  c : s.c.toNat < 2^16

/-- Carries of column sums in base `2^16`, with the three products `p`, `q` and `r` that reach a
column beyond their own, and the products `t` of the last column. -/
lemma columns_value (p q r t c : ℕ) :
    let p0 := (p % 2^16+c) % 2^16
    let carry0 := (p % 2^16+c)/2^16
    let p1 := (p/2^16+carry0) % 2^16
    let carry1 := (p/2^16+carry0)/2^16
    let p2 := (p1+q % 2^16) % 2^16
    let carry2 := (p1+q % 2^16)/2^16
    let x2 := (carry2+carry1+(p2+r % 2^16)/2^16+q/2^16+r/2^16+t) % 2^16
    p0+2^16*((p2+r % 2^16) % 2^16)+2^32*x2 = (p+2^16*(q+r)+2^32*t+c) % 2^48 := by
  intro p0 carry0 p1 carry1 p2 carry2 x2
  omega

section Next
variable {s : Generator}

/-- The limbs of the next number, column by column. -/
lemma next_limbs (h : s.Ok) : ∃ lo mid hi,next s = { s with x := ⟨lo,mid,hi⟩ } ∧
    Limbs.Ok ⟨lo,mid,hi⟩ ∧ lo.toNat+2^16*mid.toNat+2^32*hi.toNat =
      (s.a.lo.toNat*s.x.lo.toNat+2^16*(s.a.lo.toNat*s.x.mid.toNat+s.a.mid.toNat*s.x.lo.toNat)+
        2^32*(s.a.lo.toNat*s.x.hi.toNat+s.a.mid.toNat*s.x.mid.toNat+s.a.hi.toNat*s.x.lo.toNat)+
        s.c.toNat) % 2^48 := by
  obtain ⟨hx,ha,hc⟩ := h
  have hplt := mul_lt ha.lo hx.lo
  have hqlt := mul_lt ha.lo hx.mid
  have hrlt := mul_lt ha.mid hx.lo
  have hp := mul_toNat ha.lo hx.lo
  have hq := mul_toNat ha.lo hx.mid
  have hr := mul_toNat ha.mid hx.lo
  simp only [next]
  generalize mul s.a.lo s.x.lo = p at hp ⊢
  generalize mul s.a.lo s.x.mid = q at hq ⊢
  generalize mul s.a.mid s.x.lo = r at hr ⊢
  have hlo := addEqu_toNat (x := p.1) (y := s.c) (by omega) hc
  generalize addEqu p.1 s.c = lo at hlo ⊢
  have hp1 := addEqu_toNat (x := p.2) (y := lo.2) (by omega) (by omega)
  generalize addEqu p.2 lo.2 = p1 at hp1 ⊢
  have hp2 := addEqu_toNat (x := p1.1) (y := q.1) (by omega) (by omega)
  generalize addEqu p1.1 q.1 = p2 at hp2 ⊢
  have hcarry := carry_toNat (x := p2.1) (y := r.1) (by omega) (by omega)
  refine ⟨_,_,_,rfl,⟨?_,?_,?_⟩,?_⟩
  · rw [low_toNat]
    omega
  · rw [low_toNat]
    omega
  · rw [low_toNat]
    omega
  · rw [low_toNat,low_toNat,low_toNat,← columns_value]
    simp only [BitVec.toNat_add,BitVec.toNat_mul,hcarry,hp2,hp1,hlo,hp,hq,hr]
    omega

/-- One step in limbs is one step of the generator. -/
lemma next_spec (h : s.Ok) :
    (next s).Ok ∧ (next s).a = s.a ∧ (next s).c = s.c ∧
      (next s).x.value = affine s.a.value s.c.toNat s.x.value % 2^48 := by
  obtain ⟨lo,mid,hi,hnext,hok,hvalue⟩ := next_limbs h
  have hcolumns : affine s.a.value s.c.toNat s.x.value =
      s.a.lo.toNat*s.x.lo.toNat+2^16*(s.a.lo.toNat*s.x.mid.toNat+s.a.mid.toNat*s.x.lo.toNat)+
        2^32*(s.a.lo.toNat*s.x.hi.toNat+s.a.mid.toNat*s.x.mid.toNat+s.a.hi.toNat*s.x.lo.toNat)+
        s.c.toNat+2^48*(s.a.mid.toNat*s.x.hi.toNat+s.a.hi.toNat*s.x.mid.toNat+
          2^16*(s.a.hi.toNat*s.x.hi.toNat)) := by
    simp only [affine,Limbs.value]
    ring
  rw [hnext,hcolumns,Nat.add_mul_mod_self_left]
  exact ⟨⟨hok,h.a,h.c⟩,rfl,rfl,hvalue⟩

end Next

/-- The generator after so many calls. -/
def after (n : ℕ) (s : Generator) : Generator := (fun s => (redisLrand48 s).2)^[n] s

/-- The first state after `redisSrand48`. -/
def firstState (seedval : BitVec 32) : ℕ := 2^16*seedval.toNat+0x330E

section Runs

lemma Limbs.eq_of_value {l m : Limbs} (hl : l.Ok) (hm : m.Ok) (h : l.value = m.value) :
    l = m := by
  obtain ⟨hl0,hl1,hl2⟩ := hl
  obtain ⟨hm0,hm1,hm2⟩ := hm
  obtain ⟨lo,mid,hi⟩ := l
  obtain ⟨lo',mid',hi'⟩ := m
  simp only [value] at *
  congr 1
  · exact BitVec.eq_of_toNat_eq (by omega)
  · exact BitVec.eq_of_toNat_eq (by omega)
  · exact BitVec.eq_of_toNat_eq (by omega)

lemma ok_redisSrand48 (seedval : BitVec 32) : (redisSrand48 seedval).Ok where
  x := by
    refine ⟨show (0x330E : Word).toNat < 2^16 by decide,?_,?_⟩
    · change (low seedval).toNat < 2^16
      rw [low_toNat]
      omega
    · have := seedval.isLt
      change (high seedval).toNat < 2^16
      rw [high_toNat]
      omega
  a := ⟨show (0xE66D : Word).toNat < 2^16 by decide,show (0xDEEC : Word).toNat < 2^16 by decide,
    show (0x5 : Word).toNat < 2^16 by decide⟩
  c := show (0xB : Word).toNat < 2^16 by decide

/-- The words of the seed come back together. -/
lemma value_redisSrand48 (seedval : BitVec 32) :
    (redisSrand48 seedval).x.value = firstState seedval := by
  have hlo : (redisSrand48 seedval).x.lo.toNat = 0x330E := rfl
  have hmid : (redisSrand48 seedval).x.mid.toNat = seedval.toNat % 2^16 := low_toNat seedval
  have hhi : (redisSrand48 seedval).x.hi.toNat = seedval.toNat/2^16 := high_toNat seedval
  rw [Limbs.value,firstState,hlo,hmid,hhi]
  omega

lemma after_spec {s : Generator} (h : s.Ok) (n : ℕ) :
    (after n s).Ok ∧ (after n s).a = s.a ∧ (after n s).c = s.c ∧
      (after n s).x.value = (affine s.a.value s.c.toNat)^[n] s.x.value % 2^48 := by
  induction n with
  | zero =>
    obtain ⟨h0,h1,h2⟩ := h.x
    refine ⟨h,rfl,rfl,(Nat.mod_eq_of_lt ?_).symm⟩
    change s.x.value < 2^48
    rw [Limbs.value]
    omega
  | succ n ih =>
    obtain ⟨hok,ha,hc,hvalue⟩ := ih
    obtain ⟨hok',ha',hc',hvalue'⟩ := next_spec hok
    have hsucc : after (n+1) s = next (after n s) := Function.iterate_succ_apply' _ n s
    rw [hsucc,ha',hc',hvalue',ha,hc,hvalue,Function.iterate_succ_apply']
    exact ⟨hok',rfl,rfl,((Nat.mod_modEq _ _).mul_left _).add_right _⟩

/-- The upper 31 bits of a state. -/
lemma redisLrand48_toNat {s : Generator} (h : s.Ok) :
    (redisLrand48 s).1.toNat = (next s).x.value/2^17 := by
  obtain ⟨h0,h1,h2⟩ := (next_spec h).1.x
  change (((next s).x.hi <<< 15)+((next s).x.mid >>> 1)).toNat = _
  rw [BitVec.toNat_add,BitVec.toNat_shiftLeft,BitVec.toNat_ushiftRight,Nat.shiftLeft_eq,
    Nat.shiftRight_eq_div_pow,Limbs.value]
  omega

/-- From any seed, the calls give the upper bits of the states of one congruential sequence, all
`2^48` of which come up before the generator repeats itself. -/
theorem redisLrand48_sequence (seedval : BitVec 32) :
    (∀ n,(redisLrand48 (after n (redisSrand48 seedval))).1.toNat =
      (affine 0x5DEECE66D 0xB)^[n+1] (firstState seedval) % 2^48/2^17) ∧
    ∀ m n,after m (redisSrand48 seedval) = after n (redisSrand48 seedval) ↔
      m ≡ n [MOD 2^48] := by
  have hok := ok_redisSrand48 seedval
  have ha : (redisSrand48 seedval).a.value = 0x5DEECE66D := by
    change Limbs.value ⟨0xE66D,0xDEEC,0x5⟩ = 0x5DEECE66D
    decide
  have hc : (redisSrand48 seedval).c.toNat = 0xB := rfl
  refine ⟨fun n => ?_,fun m n => ?_⟩
  · obtain ⟨-,-,-,hvalue⟩ := after_spec hok (n+1)
    have hsucc : after (n+1) (redisSrand48 seedval) = next (after n (redisSrand48 seedval)) :=
      Function.iterate_succ_apply' _ n _
    rw [redisLrand48_toNat (after_spec hok n).1,← hsucc,hvalue,ha,hc,value_redisSrand48]
  · obtain ⟨hm,ham,hcm,hvaluem⟩ := after_spec hok m
    obtain ⟨hn,han,hcn,hvaluen⟩ := after_spec hok n
    rw [ha,hc,value_redisSrand48] at hvaluem hvaluen
    have hperiod := iterate_affine_modEq 6303725979 0xB (by decide) 48 m n (firstState seedval)
    rw [show 4*6303725979+1 = 0x5DEECE66D by norm_num] at hperiod
    rw [← hperiod]
    constructor
    · intro heq
      rw [heq,hvaluen] at hvaluem
      exact hvaluem.symm
    · intro hmod
      have hx := Limbs.eq_of_value hm.x hn.x (by rw [hvaluem,hvaluen]; exact hmod)
      generalize after m (redisSrand48 seedval) = s at *
      generalize after n (redisSrand48 seedval) = s' at *
      obtain ⟨x,a,c⟩ := s
      obtain ⟨x',a',c'⟩ := s'
      simp only at hx ham han hcm hcn
      rw [hx,ham,han,hcm,hcn]

end Runs

end ElasticTranslations.Benchmarks.BTree.Random
