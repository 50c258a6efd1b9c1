import ElasticTranslations.Pcc.CacheRuns

/-! The address that an eviction reports. The split of an address uses the truncated logarithm
of the set count, the recombination the set count itself. -/
namespace ElasticTranslations.Pcc
open Structures

lemma toInt64_toInt {x : UInt64} (h : x.toNat < 2^63) : x.toInt64.toInt = x.toNat := by
  change x.toBitVec.toInt = x.toNat
  rw [BitVec.toInt_eq_toNat_of_lt]
  · rfl
  · change 2*x.toNat < 2^64
    omega

namespace Geometry
variable {g : Geometry}

/-- Page number and offset make up the address. -/
lemma pageNumber_mul_add [g.Sound] (hg : g.Fits) (a : UInt64) :
    g.pageNumber a false*g.cacheLineSize + (g.offsetOf a false).toNat = a.toNat := by
  rw [offsetOf_toNat,hg.lineSize]
  exact Nat.div_add_mod' a.toNat (2^g.logLineSize)

lemma tagOf_lt [g.Sound] (a : UInt64) :
    (g.tagOf a false).toNat < 2^(64-(g.logSetCount+g.logLineSize)) := by
  have hb := Sound.line (g := g)
  rw [tagOf_toNat,pageNumber,Nat.div_div_eq_div_mul,← pow_add]
  apply Nat.div_lt_of_lt_mul
  rw [← pow_add]
  refine lt_of_lt_of_le a.toNat_lt (Nat.pow_le_pow_right (by omega) ?_)
  simp only [offsetBits,Bool.false_eq_true,if_false]
  omega

/-- The recombined address, computed without wrapping. -/
lemma recombined_toInt [g.Sound] (hg : g.Fits) {a d : UInt64}
    (hset : g.setidOf a false = g.setidOf d false) :
    ((g.tagOf d false).toInt64.toUInt64*UInt64.ofNat g.setCount + g.setidOf a false).toInt64.toInt
      = (g.pageNumber d false/2^g.logSetCount*g.setCount
        + g.pageNumber d false % 2^g.logSetCount : ℕ) := by
  have htag := g.tagOf_lt d
  have hset' := g.setidOf_lt d false
  have hpages := hg.pages
  have hle : (g.tagOf d false).toNat*g.setCount + g.setCount ≤ 2^63 := by
    calc (g.tagOf d false).toNat*g.setCount + g.setCount
        = ((g.tagOf d false).toNat+1)*g.setCount := by ring
      _ ≤ 2^(64-(g.logSetCount+g.logLineSize))*g.setCount := Nat.mul_le_mul_right _ htag
      _ ≤ 2^63 := hg.noWrap
  have hnat : ((g.tagOf d false)*UInt64.ofNat g.setCount + g.setidOf d false).toNat =
      (g.tagOf d false).toNat*g.setCount + (g.setidOf d false).toNat := by
    rw [UInt64.toNat_add,UInt64.toNat_mul,UInt64.toNat_ofNat',
      Nat.mod_eq_of_lt (by omega : g.setCount < 2^64),
      Nat.mod_eq_of_lt (by omega : (g.tagOf d false).toNat*g.setCount < 2^64)]
    exact Nat.mod_eq_of_lt (by omega)
  rw [UInt64.toUInt64_toInt64,hset,toInt64_toInt (by omega),hnat,tagOf_toNat,setidOf_toNat]

/-- No tag is taken for the value that says that nothing was evicted. -/
lemma tagOf_ne_neg_one [g.Sound] (a : UInt64) : (g.tagOf a false).toInt64 ≠ -1 := by
  have hb := Sound.line (g := g)
  have htag := g.tagOf_lt a
  have hle : 2^(64-(g.logSetCount+g.logLineSize)) ≤ 2^63 :=
    Nat.pow_le_pow_right (by omega) (by omega)
  intro he
  have hint := congrArg Int64.toInt he
  rw [toInt64_toInt (by omega)] at hint
  have hneg : (-1 : Int64).toInt = -1 := by decide
  omega

end Geometry

namespace FunctionalCache
variable {g : Geometry} {c : FunctionalCache g} {ops : List CacheOp}

/-- Lookups and insertions succeed, and an insertion that evicts a page reports the address
that the page was last passed with. -/
def EvictsExactly (ops : List CacheOp) (c : FunctionalCache g) : CacheOp → Prop
  | .access a isLoad => ∃ r, c.access a isLoad = .ok r
  | .insert a isLoad out => ∃ out' c', c.insert a isLoad out = .ok (out',c') ∧
      ∀ b d, c.hits b = true → c'.hits b = false →
        lastPassed g ops (g.pageNumber b false) = some d →
        out'.evictedAddr.toInt*g.cacheLineSize + out'.evictedOffset.toNat = d.toNat

/-- Set indexes and tags are recombined by the power of two they were split by, or the line at
the tail of a full set has tag 0. -/
def KeepsAddress (c : FunctionalCache g) : CacheOp → Prop
  | .access _ _ => True
  | .insert a _ _ => g.setCount = 2^g.logSetCount ∨
      ((c.sets (g.key a false).1).freeEntries = [] →
        ∀ v ∈ (c.sets (g.key a false).1).linked.getLast?,
          ((c.sets (g.key a false).1).lines v).addr = 0)

/-- The equation behind the report: the page is recombined from tag and set index exactly when
the factor is right or does not matter. -/
lemma recombined_iff [g.Sound] (hg : g.Fits) (d : UInt64) :
    ((g.pageNumber d false/2^g.logSetCount*g.setCount + g.pageNumber d false % 2^g.logSetCount : ℕ)
        : ℤ)*g.cacheLineSize + (g.offsetOf d false).toNat = d.toNat ↔
      g.setCount = 2^g.logSetCount ∨ g.tagOf d false = 0 := by
  have haddr := Geometry.pageNumber_mul_add hg d
  have hpos : 0 < g.cacheLineSize := by
    rw [hg.lineSize]
    exact Nat.two_pow_pos _
  have hpage := Nat.div_add_mod' (g.pageNumber d false) (2^g.logSetCount)
  have htag : g.tagOf d false = 0 ↔ g.pageNumber d false/2^g.logSetCount = 0 := by
    rw [← UInt64.toNat_inj,g.tagOf_toNat]
    rfl
  have hsplit : (((g.pageNumber d false/2^g.logSetCount*g.setCount
      + g.pageNumber d false % 2^g.logSetCount : ℕ) : ℤ)*g.cacheLineSize
        + (g.offsetOf d false).toNat = d.toNat) ↔
      g.pageNumber d false/2^g.logSetCount*g.setCount =
        g.pageNumber d false/2^g.logSetCount*2^g.logSetCount := by
    rw [← haddr]
    norm_cast
    rw [Nat.add_right_cancel_iff,Nat.mul_left_inj (by omega)]
    omega
  rw [hsplit,htag,mul_eq_mul_left_iff]

/-- An insertion of a missing page into a full set: the line at the tail is that of a page `d`,
exactly this page goes, and the report is put together from its tag and its offset. -/
theorem insert_reports [g.Sound] (hg : g.Fits) (h : c.Remembers ops) {a : UInt64}
    (hmiss : c.hits a = false) (hf : (c.sets (g.key a false).1).freeEntries = []) (isLoad : Bool)
    (out : EvictOut) :
    ∃ v d out' c', (c.sets (g.key a false).1).linked.getLast? = some v ∧
      ((c.sets (g.key a false).1).lines v).addr = g.tagOf d false ∧
      lastPassed g ops (g.pageNumber d false) = some d ∧ c.hits d = true ∧
      c.insert a isLoad out = .ok (out',c') ∧
      (∀ b, c.hits b = true → (c'.hits b = false ↔ g.pageNumber b false = g.pageNumber d false)) ∧
      out'.evictedAddr.toInt = (g.pageNumber d false/2^g.logSetCount*g.setCount
        + g.pageNumber d false % 2^g.logSetCount : ℕ) ∧
      out'.evictedOffset = g.offsetOf d false := by
  obtain ⟨l,v,c',hlv,hr,hlookup⟩ := insert_full_spec h.intact a isLoad false out hf
  have hv : v ∈ (c.sets (g.key a false).1).linked := by simp [hlv]
  obtain ⟨d,hlast,hkey,hoff⟩ := h.last _ v hv
  have hset : g.setidOf a false = g.setidOf d false :=
    UInt64.toNat_inj.mp (congrArg Prod.fst hkey).symm
  have htag : ((c.sets (g.key a false).1).lines v).addr = g.tagOf d false :=
    (congrArg Prod.snd hkey).symm
  refine ⟨v,d,_,c',by simp [hlv],htag,hlast,?_,hr,fun b hb => ?_,?_,hoff⟩
  · rw [hits,h.lookup_eq hv hkey]
    rfl
  · have hba : g.key b false ≠ g.key a false := by
      intro he
      have hb' : c.hits a = true := by simpa only [hits,he] using hb
      rw [hmiss] at hb'
      cases hb'
    have hcb : c.lookup (g.key b false) ≠ none := by
      rw [hits,Option.isSome_iff_ne_none] at hb
      exact hb
    rw [hits,Option.isSome_eq_false_iff,Option.isNone_iff_eq_none,hlookup _ hba,
      ← g.key_eq_iff b d false false,hkey]
    exact or_iff_right hcb
  · rw [reported,htag,if_neg (Geometry.tagOf_ne_neg_one d)]
    exact Geometry.recombined_toInt hg hset

/-- One operation: the report is exact exactly under the condition. -/
theorem evictsExactly_step [g.Sound] (hg : g.Fits) (h : c.Remembers ops) {op : CacheOp}
    (hmiss : c.InsertsMissing op) : EvictsExactly ops c op ↔ c.KeepsAddress op := by
  cases op with
  | access a isLoad =>
    obtain ⟨c',hr,-⟩ := access_offsets h.intact a isLoad false
    exact ⟨fun _ => trivial,fun _ => ⟨_,hr⟩⟩
  | insert a isLoad out =>
    by_cases hf : (c.sets (g.key a false).1).freeEntries = []
    · obtain ⟨v,d,out',c',hv,htag,hlast,hhit,hr,hgone,haddr,hoff⟩ :=
        insert_reports hg h hmiss hf isLoad out
      have hkeeps : c.KeepsAddress (.insert a isLoad out) ↔
          g.setCount = 2^g.logSetCount ∨ g.tagOf d false = 0 := by
        simp [KeepsAddress,hf,hv,htag]
      rw [hkeeps,← recombined_iff hg d,← haddr,← hoff]
      constructor
      · rintro ⟨out'',c'',hr',hall⟩
        obtain ⟨rfl,rfl⟩ : out' = out'' ∧ c' = c'' := by simpa [hr] using hr'
        exact hall d d hhit ((hgone d hhit).mpr rfl) hlast
      · intro heq
        refine ⟨out',c',hr,fun b d' hb hb' hd' => ?_⟩
        rw [(hgone b hb).mp hb',hlast] at hd'
        obtain rfl : d = d' := by simpa using hd'
        exact heq
    · obtain ⟨out',c',hr,hkeep⟩ := insert_room h.intact a isLoad out hf
      refine ⟨fun _ => Or.inr fun he => absurd he hf,fun _ => ⟨out',c',hr,fun b d hb hb' => ?_⟩⟩
      rw [hkeep b hb] at hb'
      cases hb'

/-- In a run on a built cache that inserts missing pages only, every eviction reports its
address exactly when the set count is a power of two or only lines with tag 0 are evicted. -/
theorem evictsExactly_iff (g : Geometry) (hg : g ∈ builtGeometries) (ops : List CacheOp)
    (hmiss : EachStep step (new g) ops fun _ c op => c.InsertsMissing op) :
    EachStep step (new g) ops EvictsExactly ↔
      EachStep step (new g) ops fun _ c op => c.KeepsAddress op := by
  have hfits := Geometry.fits_of_mem hg
  have := hfits.sound
  have hstep : ∀ pre op, pre ++ [op] <+: ops → ∀ c, pre.foldlM step (new g) = .ok c →
      (EvictsExactly pre c op ↔ c.KeepsAddress op) := fun pre op hp c hc => by
    have hrem := (run_remembers hmiss).reached pre ((List.prefix_append pre [op]).trans hp) c hc
    exact evictsExactly_step hfits hrem (hmiss pre op hp c hc)
  exact ⟨fun h pre op hp c hc => (hstep pre op hp c hc).mp (h pre op hp c hc),
    fun h pre op hp c hc => (hstep pre op hp c hc).mpr (h pre op hp c hc)⟩

/-- Pages that the L2 TLB keeps in one set, one more than it has ways. -/
def sameSetInserts : List CacheOp :=
  [1,2,3,4,5,6,7].map fun n => .insert (n*128*pageSize) true {}

lemma sameSetInserts_missing :
    EachStep step (new l2TlbGeometry) sameSetInserts fun _ c op => c.InsertsMissing op := by
  refine (EachStep.of_stepsMeet (fun c op => decide (InsertsMissing c op)) ?_).mono
    fun _ _ _ h => of_decide_eq_true h
  decide +kernel

theorem evictsExactly_iff_sameSetInserts :
    l2TlbGeometry ∈ builtGeometries ∧
      EachStep step (new l2TlbGeometry) sameSetInserts (fun _ c op => c.InsertsMissing op) ∧
      (EachStep step (new l2TlbGeometry) sameSetInserts EvictsExactly ↔
        EachStep step (new l2TlbGeometry) sameSetInserts fun _ c op => c.KeepsAddress op) := by
  have hg : l2TlbGeometry ∈ builtGeometries := by simp [builtGeometries]
  exact ⟨hg,sameSetInserts_missing,evictsExactly_iff l2TlbGeometry hg _ sameSetInserts_missing⟩

/-- Page 128 is reported as page 170. -/
theorem not_evictsExactly_of_sameSet :
    ¬ ∀ g ∈ builtGeometries, ∀ ops,
      EachStep step (new g) ops (fun _ c op => c.InsertsMissing op) →
      EachStep step (new g) ops EvictsExactly := by
  intro h
  have hg : l2TlbGeometry ∈ builtGeometries := by simp [builtGeometries]
  have hmiss := sameSetInserts_missing
  have hsplit : sameSetInserts =
      sameSetInserts.dropLast ++ [.insert (7*128*pageSize) true {}] := rfl
  obtain ⟨c,hc,htest⟩ := exists_of_endsWith step (new l2TlbGeometry) sameSetInserts.dropLast
    (fun c => (c.sets 0).freeEntries.isEmpty &&
      (c.sets 0).linked.getLast?.any fun v => ((c.sets 0).lines v).addr = 1) (by decide +kernel)
  have hlast : sameSetInserts.dropLast ++ [.insert (7*128*pageSize) true {}] <+: sameSetInserts :=
    hsplit ▸ List.prefix_refl _
  have hrem := (run_remembers hmiss).reached _ ((List.prefix_append _ _).trans hlast) c hc
  have hkeeps := (evictsExactly_step (Geometry.fits_of_mem hg) hrem
    (hmiss _ _ hlast c hc)).mp (h _ hg _ hmiss _ _ hlast c hc)
  simp only [Bool.and_eq_true,List.isEmpty_iff,Option.any_eq_true,decide_eq_true_eq] at htest
  obtain ⟨hfree,v,hv,hone⟩ := htest
  have hkey : (l2TlbGeometry.key (7*128*pageSize) false).1 = 0 := by decide +kernel
  rcases hkeeps with hpow | htail
  · exact absurd hpow (by decide +kernel)
  · rw [hkey] at htail
    have := htail hfree v hv
    rw [hone] at this
    exact absurd this (by decide)

end FunctionalCache
end ElasticTranslations.Pcc
