import ElasticTranslations.Scripts.Text
import ElasticTranslations.Structures.Numbers
import ElasticTranslations.Structures.Dict
import ElasticTranslations.Structures.Trace
import Mathlib.Algebra.Order.Field.Rat
import Mathlib.Tactic.Linarith

/-! `sptecoverage.py`: the share of the guest pages of two sizes whose nested translation is
marked contiguous. Quotients are exact rationals in place of `float`. -/
namespace ElasticTranslations.Scripts
open Structures

def align (v a : ℤ) : ℤ := v.land (a-1).lnot

/-- The number in a field `name=value`. -/
def fieldInt (base : ℕ) (s : Text) : Except PyError ℤ := do
  let value ← partAt (splitAtMost '=' 1 (strip s)) 1
  int base value

def pfnLine (line : Text) : Except PyError (ℤ × ℤ) :=
  match splitAtMost ',' 2 line with
  | [pfn,level] => do
    let pfn ← fieldInt 16 pfn
    let level ← fieldInt 16 level
    return (pfn,level)
  | _ => throw .valueError

def addPfn (pfns : Dict ℤ ℤ) (line : Text) : Except PyError (Dict ℤ ℤ) := do
  let (pfn,level) ← pfnLine line
  return pfns.set pfn level

def readPfns (pfndump : List Text) : Except PyError (Dict ℤ ℤ) := pfndump.foldlM addPfn .empty

/-- A line of the second dump; `none` for an entry that is not contiguous, of which only the
`pte` field is read. -/
def spteLine (line : Text) : Except PyError (Option (ℤ × ℤ)) :=
  match splitAtMost ',' 2 line with
  | [gfn,pte,level] => do
    let pte ← fieldInt 16 pte
    let cont := pte.land (2^52)
    if cont = 0 then return none
    else
      let gfn ← fieldInt 16 gfn
      let level ← fieldInt 10 level
      return some (gfn,level)
  | _ => throw .valueError

def addSpte (sptes : Dict ℤ ℤ) (line : Text) : Except PyError (Dict ℤ ℤ) := do
  match ← spteLine line with
  | none => return sptes
  | some (gfn,level) => return sptes.set gfn level

def readSptes (sptedump : List Text) : Except PyError (Dict ℤ ℤ) := sptedump.foldlM addSpte .empty

structure Counters where
  nocont4k : ℕ := 0
  nocont2m : ℕ := 0
  mismatch : ℕ := 0
  pte4k : ℕ := 0
  pte2m : ℕ := 0

/-- One round of the loop over `pfns.items()`. -/
def countPfn (sptes : Dict ℤ ℤ) (c : Counters) (item : ℤ × ℤ) : Counters :=
  let pfn := item.1
  let level := item.2
  let c := if level = 3 then { c with pte4k := c.pte4k+1 }
    else if level = 2 then { c with pte2m := c.pte2m+1 } else c
  let pfn := if sptes.get? pfn = none then align pfn (2^9) else pfn
  match sptes.get? pfn with
  | none => if level = 3 then { c with nocont4k := c.nocont4k+1 }
    else if level = 2 then { c with nocont2m := c.nocont2m+1 } else c
  | some spteLevel => if spteLevel < level then { c with mismatch := c.mismatch+1 } else c

/-- One of the two numbers printed. -/
def printed (nocont pte : ℕ) : ℚ := if pte ≠ 0 then 100 - (nocont : ℚ)/pte else 0

def spteCoverage (pfndump sptedump : List Text) : Except PyError (ℚ × ℚ) := do
  let pfns ← readPfns pfndump
  let sptes ← readSptes sptedump
  let c := pfns.entries.foldl (countPfn sptes) {}
  return (printed c.nocont4k c.pte4k,printed c.nocont2m c.pte2m)

/-- A line of the second dump about this guest frame, with bit 52 set. -/
def contiguousEntry (gfn : ℤ) (line : Text) : Bool :=
  match splitAtMost ',' 2 line with
  | [g,pte,_] => match fieldInt 16 g,fieldInt 16 pte with
    | .ok g,.ok pte => g == gfn && pte.testBit 52
    | _,_ => false
  | _ => false

/-- The page itself or its 512-aligned base has a contiguous entry. -/
def covered (sptedump : List Text) (pfn : ℤ) : Bool :=
  sptedump.any (contiguousEntry pfn) || sptedump.any (contiguousEntry (pfn/512*512))

/-- The distinct pfns of a level. -/
def pfnsOf (pfns : Dict ℤ ℤ) (level : ℤ) : List ℤ :=
  (pfns.entries.filter fun item => item.2 = level).map Prod.fst

/-- A number is the percentage of the pages covered. -/
structure IsPercentage (x : ℚ) (pages : List ℤ) (cover : ℤ → Bool) : Prop where
  value : x = if pages = [] then 0 else 100*((pages.countP cover : ℚ)/pages.length)
  range : 0 ≤ x ∧ x ≤ 100
  full : pages ≠ [] → (x = 100 ↔ ∀ pfn ∈ pages, cover pfn)
  zero : pages ≠ [] → (x = 0 ↔ ∀ pfn ∈ pages, ¬ cover pfn)

lemma align_eq (v : ℤ) : align v (2^9) = v/512*512 := by
  rw [Int.mul_comm]
  exact land_lnot_ones v 9

/-- What a line adds to the second table. -/
lemma spteLine_spec {line : Text} {item : Option (ℤ × ℤ)} (h : spteLine line = .ok item)
    (gfn : ℤ) : contiguousEntry gfn line = true ↔ ∃ level, item = some (gfn,level) := by
  unfold spteLine at h
  unfold contiguousEntry
  split at h
  · rename_i g pte level hsplit
    obtain ⟨p,hp,h⟩ := bind_eq_ok h
    change (if p.land (2^52) = 0 then pure none else _) = _ at h
    have hbit := land_two_pow p 52
    by_cases hcont : p.land (2^52) = 0
    · rw [if_pos hcont] at h
      obtain rfl := Except.ok.inj h
      have hclear := hbit.mp hcont
      cases fieldInt 16 g <;> simp [hp,hclear]
    · rw [if_neg hcont] at h
      have hset : p.testBit 52 = true :=
        Bool.eq_true_of_not_eq_false fun hf => hcont (hbit.mpr hf)
      obtain ⟨a,hg,h⟩ := bind_eq_ok h
      obtain ⟨l,-,h⟩ := bind_eq_ok h
      obtain rfl := Except.ok.inj h
      simp [hg,hp,hset]
  · cases h

/-- The keys of the second table are the frames with a contiguous entry. -/
lemma readSptes_get? {sptedump : List Text} {sptes : Dict ℤ ℤ}
    (h : readSptes sptedump = .ok sptes) (gfn : ℤ) :
    sptes.get? gfn ≠ none ↔ sptedump.any (contiguousEntry gfn) = true := by
  induction sptedump using List.reverseRecOn generalizing sptes with
  | nil =>
    obtain rfl : Dict.empty = sptes := by simpa [readSptes,pure,Except.pure] using h
    simp
  | append_singleton lines line ih =>
    obtain ⟨before,hbefore,hstep⟩ := foldlM_snoc_inv h
    have hkeys := ih hbefore
    rw [List.any_append,Bool.or_eq_true,← hkeys]
    obtain ⟨item,hline,hstep⟩ := bind_eq_ok hstep
    have hspec := spteLine_spec hline gfn
    cases item with
    | none =>
      obtain rfl := Except.ok.inj hstep
      simp [hspec]
    | some entry =>
      obtain rfl := Except.ok.inj hstep
      rw [Dict.get?_set]
      by_cases hg : gfn = entry.1
      · subst hg
        simp [hspec,Prod.ext_iff]
      · simp [hspec,hg,Prod.ext_iff,Ne.symm hg]

/-- The loop finds a page by itself or by its base. -/
def found (sptes : Dict ℤ ℤ) (pfn : ℤ) : Bool :=
  (sptes.get? pfn).isSome || (sptes.get? (align pfn (2^9))).isSome

lemma found_eq_covered {sptedump : List Text} {sptes : Dict ℤ ℤ}
    (h : readSptes sptedump = .ok sptes) (pfn : ℤ) : found sptes pfn = covered sptedump pfn := by
  have hkey : ∀ gfn, (sptes.get? gfn).isSome = sptedump.any (contiguousEntry gfn) := fun gfn => by
    rw [Bool.eq_iff_iff,← readSptes_get? h gfn,Option.isSome_iff_ne_none]
  rw [found,covered,hkey,hkey,align_eq]

/-- The key under which the loop looks a page up at last. -/
lemma lookup_eq_none_iff (sptes : Dict ℤ ℤ) (pfn : ℤ) :
    sptes.get? (if sptes.get? pfn = none then align pfn (2^9) else pfn) = none ↔
      found sptes pfn = false := by
  unfold found
  by_cases hp : sptes.get? pfn = none
  · rw [if_pos hp]
    simp [hp]
  · rw [if_neg hp]
    simp [hp]

/-- What one round of the loop does to the four counters that are printed. -/
lemma countPfn_spec (sptes : Dict ℤ ℤ) (c : Counters) (item : ℤ × ℤ) :
    (countPfn sptes c item).pte4k = c.pte4k + (if item.2 = 3 then 1 else 0) ∧
    (countPfn sptes c item).pte2m = c.pte2m + (if item.2 = 2 then 1 else 0) ∧
    (countPfn sptes c item).nocont4k =
      c.nocont4k + (if item.2 = 3 ∧ found sptes item.1 = false then 1 else 0) ∧
    (countPfn sptes c item).nocont2m =
      c.nocont2m + (if item.2 = 2 ∧ found sptes item.1 = false then 1 else 0) := by
  obtain ⟨pfn,level⟩ := item
  have hlook := lookup_eq_none_iff sptes pfn
  simp only [countPfn]
  cases hkey : sptes.get? (if sptes.get? pfn = none then align pfn (2^9) else pfn) with
  | none =>
    have hfound : found sptes pfn = false := hlook.mp hkey
    by_cases h3 : level = 3
    · simp [h3,hfound]
    · by_cases h2 : level = 2
      · simp [h2,hfound]
      · simp [h3,h2]
  | some spteLevel =>
    have hfound : found sptes pfn = true :=
      Bool.eq_true_of_not_eq_false fun hf => by rw [hlook.mpr hf] at hkey; cases hkey
    by_cases h3 : level = 3
    · simp only [h3]
      split <;> simp [hfound]
    · by_cases h2 : level = 2
      · simp only [h2]
        split <;> simp [hfound]
      · simp only [h3,h2]
        split <;> simp

/-- A counter that each round raises under a test. -/
lemma foldl_countPfn (sptes : Dict ℤ ℤ) (f : Counters → ℕ) (p : ℤ × ℤ → Bool)
    (h : ∀ c item, f (countPfn sptes c item) = f c + if p item then 1 else 0)
    (items : List (ℤ × ℤ)) (c : Counters) :
    f (items.foldl (countPfn sptes) c) = f c + items.countP p := by
  induction items generalizing c with
  | nil => simp
  | cons item items ih =>
    rw [List.foldl_cons,ih,h,List.countP_cons]
    omega

lemma countP_pfnsOf (pfns : Dict ℤ ℤ) (level : ℤ) (cover : ℤ → Bool) :
    pfns.entries.countP (fun item => item.2 = level ∧ cover item.1 = false) =
      (pfnsOf pfns level).countP (fun pfn => !cover pfn) := by
  rw [pfnsOf,List.countP_map,List.countP_filter]
  refine List.countP_congr fun item _ => ?_
  simp [and_comm]

lemma length_pfnsOf (pfns : Dict ℤ ℤ) (level : ℤ) :
    pfns.entries.countP (fun item => item.2 = level) = (pfnsOf pfns level).length := by
  rw [pfnsOf,List.length_map,List.countP_eq_length_filter]

/-- The numbers printed, from the pages of each level. -/
lemma spteCoverage_eq {pfndump sptedump : List Text} {pfns sptes : Dict ℤ ℤ}
    (hp : readPfns pfndump = .ok pfns) (hs : readSptes sptedump = .ok sptes) :
    spteCoverage pfndump sptedump = .ok
      (printed ((pfnsOf pfns 3).countP fun pfn => !covered sptedump pfn) (pfnsOf pfns 3).length,
        printed ((pfnsOf pfns 2).countP fun pfn => !covered sptedump pfn)
          (pfnsOf pfns 2).length) := by
  have hcover : found sptes = covered sptedump := funext (found_eq_covered hs)
  have hspec := countPfn_spec sptes
  have hpte4k := foldl_countPfn sptes Counters.pte4k (fun item => item.2 = 3)
    (fun c item => by simpa using (hspec c item).1) pfns.entries {}
  have hpte2m := foldl_countPfn sptes Counters.pte2m (fun item => item.2 = 2)
    (fun c item => by simpa using (hspec c item).2.1) pfns.entries {}
  have hnocont4k := foldl_countPfn sptes Counters.nocont4k
    (fun item => item.2 = 3 ∧ found sptes item.1 = false)
    (fun c item => by simpa using (hspec c item).2.2.1) pfns.entries {}
  have hnocont2m := foldl_countPfn sptes Counters.nocont2m
    (fun item => item.2 = 2 ∧ found sptes item.1 = false)
    (fun c item => by simpa using (hspec c item).2.2.2) pfns.entries {}
  rw [length_pfnsOf,Nat.zero_add] at hpte4k hpte2m
  rw [countP_pfnsOf,Nat.zero_add,hcover] at hnocont4k hnocont2m
  rw [spteCoverage,hp,hs,← hpte4k,← hpte2m,← hnocont4k,← hnocont2m]
  rfl

section Percentage
variable {x : ℚ} {pages : List ℤ} {cover : ℤ → Bool}

lemma countP_add_not (pages : List ℤ) (cover : ℤ → Bool) :
    pages.countP cover + pages.countP (fun pfn => !cover pfn) = pages.length := by
  rw [List.length_eq_countP_add_countP cover]
  congr 1
  refine List.countP_congr fun pfn _ => ?_
  simp

/-- The range and the extremes follow from the formula. -/
lemma isPercentage_of_value
    (h : x = if pages = [] then 0 else 100*((pages.countP cover : ℚ)/pages.length)) :
    IsPercentage x pages cover := by
  by_cases hnil : pages = []
  · rw [if_pos hnil] at h
    exact ⟨by rw [if_pos hnil,h],by norm_num [h],fun hne => absurd hnil hne,
      fun hne => absurd hnil hne⟩
  · rw [if_neg hnil] at h
    have hpos : (0 : ℚ) < pages.length := by exact_mod_cast List.length_pos_of_ne_nil hnil
    have hle : ((pages.countP cover : ℕ) : ℚ) ≤ pages.length := by
      exact_mod_cast List.countP_le_length
    have hfrac : (pages.countP cover : ℚ)/pages.length ≤ 1 := (div_le_one₀ hpos).mpr hle
    have hnonneg : 0 ≤ (pages.countP cover : ℚ)/pages.length :=
      div_nonneg (Nat.cast_nonneg _) hpos.le
    refine ⟨by rw [if_neg hnil,h],⟨by linarith,by linarith⟩,fun _ => ?_,fun _ => ?_⟩
    · have hone : (pages.countP cover : ℚ)/pages.length = 1 ↔
          pages.countP cover = pages.length := by
        rw [div_eq_one_iff_eq hpos.ne',Nat.cast_inj]
      rw [← List.countP_eq_length,← hone]
      constructor <;> intro hx <;> linarith
    · have hzero : (pages.countP cover : ℚ)/pages.length = 0 ↔ pages.countP cover = 0 := by
        rw [div_eq_zero_iff,or_iff_left hpos.ne',Nat.cast_eq_zero]
      rw [← List.countP_eq_zero,← hzero]
      constructor <;> intro hx <;> linarith

/-- The printed number is the percentage only for a class without an uncovered page. -/
lemma printed_isPercentage_iff (pages : List ℤ) (cover : ℤ → Bool) :
    IsPercentage (printed (pages.countP fun pfn => !cover pfn) pages.length) pages cover ↔
      ∀ pfn ∈ pages, cover pfn := by
  by_cases hnil : pages = []
  · subst hnil
    exact iff_of_true (isPercentage_of_value (by simp [printed])) (by simp)
  have hpos : 0 < pages.length := List.length_pos_of_ne_nil hnil
  have hposq : (0 : ℚ) < pages.length := by exact_mod_cast hpos
  have hsum : (pages.countP cover : ℚ) + pages.countP (fun pfn => !cover pfn) = pages.length := by
    exact_mod_cast countP_add_not pages cover
  have hsplit : (pages.countP cover : ℚ)/pages.length +
      (pages.countP fun pfn => !cover pfn : ℕ)/pages.length = 1 := by
    rw [← add_div,hsum,div_self hposq.ne']
  have hall : (∀ pfn ∈ pages, cover pfn) ↔ (pages.countP fun pfn => !cover pfn) = 0 := by
    simp [List.countP_eq_zero]
  rw [hall]
  constructor
  · intro h
    have hvalue := h.value
    rw [if_neg hnil,printed,if_pos hpos.ne'] at hvalue
    have hzero : ((pages.countP fun pfn => !cover pfn : ℕ) : ℚ)/pages.length = 0 := by linarith
    rw [div_eq_zero_iff,or_iff_left hposq.ne'] at hzero
    exact_mod_cast hzero
  · intro h
    rw [h,Nat.cast_zero,zero_div] at hsplit
    refine isPercentage_of_value ?_
    rw [if_neg hnil,printed,if_pos hpos.ne',h,Nat.cast_zero,zero_div]
    linarith

end Percentage

theorem percentages_iff {pfndump sptedump : List Text} {pfns sptes : Dict ℤ ℤ}
    (hp : readPfns pfndump = .ok pfns) (hs : readSptes sptedump = .ok sptes) :
    (∃ out, spteCoverage pfndump sptedump = .ok out ∧
      IsPercentage out.1 (pfnsOf pfns 3) (covered sptedump) ∧
      IsPercentage out.2 (pfnsOf pfns 2) (covered sptedump)) ↔
    ∀ pfn level, pfns.get? pfn = some level → level = 3 ∨ level = 2 → covered sptedump pfn := by
  have hmem : ∀ level pfn, pfn ∈ pfnsOf pfns level ↔ pfns.get? pfn = some level := by
    intro level pfn
    rw [← Dict.mem_entries]
    simp [pfnsOf]
  have hout := spteCoverage_eq hp hs
  have h3 := printed_isPercentage_iff (pfnsOf pfns 3) (covered sptedump)
  have h2 := printed_isPercentage_iff (pfnsOf pfns 2) (covered sptedump)
  simp only [hmem] at h3 h2
  constructor
  · rintro ⟨out,hok,hfirst,hsecond⟩ pfn level hget hlevel
    obtain rfl := Except.ok.inj (hout.symm.trans hok)
    rcases hlevel with rfl | rfl
    · exact h3.mp hfirst pfn hget
    · exact h2.mp hsecond pfn hget
  · intro h
    exact ⟨_,hout,h3.mpr fun pfn hget => h pfn 3 hget (.inl rfl),
      h2.mpr fun pfn hget => h pfn 2 hget (.inr rfl)⟩

/-- A single 4 KiB page without a contiguous entry: 99 is printed for it. -/
theorem not_percentages_of_uncovered :
    ¬ ∀ (pfndump sptedump : List Text) (pfns sptes : Dict ℤ ℤ), readPfns pfndump = .ok pfns →
      readSptes sptedump = .ok sptes → ∃ out, spteCoverage pfndump sptedump = .ok out ∧
        IsPercentage out.1 (pfnsOf pfns 3) (covered sptedump) ∧
        IsPercentage out.2 (pfnsOf pfns 2) (covered sptedump) := by
  intro h
  obtain ⟨pfns,hp,htest⟩ := exists_of_endsWith addPfn .empty ["pfn=0x200,level=0x3".toList]
    (fun pfns => pfnsOf pfns 3 = [0x200]) (by decide +kernel)
  obtain ⟨out,hok,hfirst,-⟩ := h _ [] pfns .empty hp rfl
  obtain rfl := Except.ok.inj ((spteCoverage_eq hp rfl).symm.trans hok)
  have hclass : pfnsOf pfns 3 = [0x200] := of_decide_eq_true htest
  have hall := (printed_isPercentage_iff _ _).mp hfirst 0x200 (by simp [hclass])
  exact absurd hall (by decide)

theorem percentages_of_covered : ∃ pfns, readPfns ["pfn=0x201,level=0x3".toList] = .ok pfns ∧
    ∃ out, spteCoverage ["pfn=0x201,level=0x3".toList]
        ["gfn=0x200,pte=0x10000000000000,level=2".toList] = .ok out ∧
      IsPercentage out.1 (pfnsOf pfns 3)
        (covered ["gfn=0x200,pte=0x10000000000000,level=2".toList]) ∧
      IsPercentage out.2 (pfnsOf pfns 2)
        (covered ["gfn=0x200,pte=0x10000000000000,level=2".toList]) := by
  obtain ⟨pfns,hp,htest⟩ := exists_of_endsWith addPfn .empty ["pfn=0x201,level=0x3".toList]
    (fun pfns => pfns.entries = [(0x201,3)]) (by decide +kernel)
  obtain ⟨sptes,hs,-⟩ := exists_of_endsWith addSpte .empty
    ["gfn=0x200,pte=0x10000000000000,level=2".toList] (fun _ => true) (by decide +kernel)
  refine ⟨pfns,hp,(percentages_iff hp hs).mpr fun pfn level hget _ => ?_⟩
  have hmem := (pfns.mem_entries pfn level).mpr hget
  rw [of_decide_eq_true htest,List.mem_singleton,Prod.mk.injEq] at hmem
  rw [hmem.1]
  decide +kernel

end ElasticTranslations.Scripts
