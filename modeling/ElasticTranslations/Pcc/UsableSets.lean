import ElasticTranslations.Structures.Numbers
import ElasticTranslations.Pcc.CacheRuns

/-! Which sets of a cache are ever used: a power of two of them, which is all of them in every
cache but the L2 TLB. -/
namespace ElasticTranslations.Pcc
open Structures FunctionalCache

namespace FunctionalCache
variable {g : Geometry} {c : FunctionalCache g}

/-- Some run that inserts missing pages only ends with `n` distinct pages resident. -/
def HoldsAtOnce (g : Geometry) (n : ℕ) : Prop :=
  ∃ ops c, EachStep step (new g) ops (fun _ c op => c.InsertsMissing op) ∧
    ops.foldlM step (new g) = .ok c ∧ ∃ pages : List UInt64, pages.length = n ∧
      (pages.map fun a => g.pageNumber a false).Nodup ∧ ∀ a ∈ pages, c.hits a = true

/-- A cache after pages that all found room. -/
structure Filling (pages : List UInt64) (c : FunctionalCache g) : Prop where
  intact : c.Intact
  resident : ∀ b, c.hits b = true ↔ ∃ a ∈ pages, g.pageNumber a false = g.pageNumber b false
  room : ∀ i, (c.sets i).freeEntries.length +
    pages.countP (fun a => (g.key a false).1 = i) = g.associativity

lemma new_filling : (new g).Filling [] where
  intact := new_intact
  resident b := by simp [new_hits]
  room i := by simp [new,CacheSet.new]

lemma Filling.insert [g.Sound] {pages : List UInt64} (h : c.Filling pages) {a : UInt64}
    (ha : c.hits a = false)
    (hfit : pages.countP (fun b => (g.key b false).1 = (g.key a false).1) < g.associativity) :
    ∃ c', c.step (.insert a true {}) = .ok c' ∧ c'.Filling (pages ++ [a]) := by
  obtain ⟨c',p,evicted,hr,hi⟩ := insert_spec h.intact a true false {}
  have hroom := h.room (g.key a false).1
  have hne : (c.sets (g.key a false).1).freeEntries ≠ [] := by
    apply List.ne_nil_of_length_pos
    omega
  obtain ⟨out',c'',hr',hkeep⟩ := insert_room h.intact a true {} hne
  obtain ⟨-,rfl⟩ : _ ∧ c' = c'' := by simpa [hr] using hr'
  refine ⟨c',by simp [step,hr],hi.intact h.intact,fun b => ?_,fun i => ?_⟩
  · have hkey := g.key_eq_iff b a false false
    constructor
    · intro hb
      rcases hi.resident_subset hb with hk | hb₀
      · exact ⟨a,by simp,(hkey.mp hk).symm⟩
      · obtain ⟨d,hd,hdb⟩ := (h.resident b).mp hb₀
        exact ⟨d,List.mem_append_left _ hd,hdb⟩
    · rintro ⟨d,hd,hdb⟩
      rcases List.mem_append.mp hd with hd | hd
      · exact hkeep b ((h.resident b).mpr ⟨d,hd,hdb⟩)
      · obtain rfl : d = a := by simpa using hd
        rw [hits,hkey.mpr hdb.symm]
        exact hi.hits_self
  · rw [List.countP_append,List.countP_singleton]
    by_cases hk : i = (g.key a false).1
    · subst hk
      rw [hi.filled.freeEntries,List.length_tail]
      simp only [decide_true,if_true]
      omega
    · rw [hi.others i hk]
      simpa [Ne.symm hk] using h.room i

/-- Pages that overfill no set are all resident after they have been inserted. -/
theorem filling_of_fits [g.Sound] (pages : List UInt64)
    (hnd : (pages.map fun a => g.pageNumber a false).Nodup)
    (hfit : ∀ i, pages.countP (fun a => (g.key a false).1 = i) ≤ g.associativity) :
    EachStep step (new g) (pages.map fun a => .insert a true {})
        (fun _ c op => c.InsertsMissing op) ∧
      ∃ c, (pages.map fun a => CacheOp.insert a true {}).foldlM step (new g) = .ok c ∧
        c.Filling pages := by
  induction pages using List.reverseRecOn with
  | nil =>
    refine ⟨fun pre op hp => ?_,new g,rfl,new_filling⟩
    simp at hp
  | append_singleton pages a ih =>
    rw [List.map_append,List.nodup_append] at hnd
    have hcount := hfit (g.key a false).1
    rw [List.countP_append,List.countP_singleton] at hcount
    simp only [decide_true,if_true] at hcount
    obtain ⟨hmiss,c,hc,hfill⟩ := ih hnd.1 fun i => by
      have := hfit i
      rw [List.countP_append] at this
      omega
    have ha : c.hits a = false := by
      rw [← Bool.not_eq_true,hfill.resident]
      rintro ⟨b,hb,hba⟩
      exact hnd.2.2 _ (List.mem_map_of_mem hb) _ (by simp) hba
    obtain ⟨c',hr,hfill'⟩ := hfill.insert ha (by omega)
    rw [List.map_append]
    refine ⟨hmiss.snoc fun s hs => ?_,c',(foldlM_snoc_ok hc _).trans hr,hfill'⟩
    obtain rfl : c = s := by simpa [hc] using hs
    exact ha

end FunctionalCache

namespace Geometry
variable {g : Geometry}

/-- Every set is selected: set indexes are in range, consecutive pages meet every set once,
and as many pages as there are lines fit at the same time. -/
structure UsableSets (g : Geometry) : Prop where
  inRange : ∀ a is2M, (g.setidOf a is2M).toNat < g.setCount
  onto : ∀ is2M n, n + g.setCount ≤ 2^(64-g.offsetBits is2M) → ∀ s < g.setCount,
    ∃! m, (n ≤ m ∧ m < n + g.setCount) ∧
      ∀ a, g.pageNumber a is2M = m → (g.setidOf a is2M).toNat = s
  capacity : HoldsAtOnce g (g.setCount*g.associativity)

/-- The first address of a page. -/
def pageStart (g : Geometry) (is2M : Bool) (m : ℕ) : UInt64 :=
  UInt64.ofNat (m*2^g.offsetBits is2M)

lemma pageNumber_pageStart [g.Sound] {is2M : Bool} {m : ℕ} (hm : m < 2^(64-g.offsetBits is2M)) :
    g.pageNumber (g.pageStart is2M m) is2M = m := by
  have hb := g.offsetBits_bounds is2M
  have hlt : m*2^g.offsetBits is2M < 2^64 := by
    calc m*2^g.offsetBits is2M
        < 2^(64-g.offsetBits is2M)*2^g.offsetBits is2M :=
          Nat.mul_lt_mul_of_pos_right hm (Nat.two_pow_pos _)
      _ = 2^64 := by rw [← pow_add]; congr 1; omega
  rw [pageNumber,pageStart,UInt64.toNat_ofNat',Nat.mod_eq_of_lt hlt]
  exact Nat.mul_div_cancel m (Nat.two_pow_pos _)

/-- A page belongs to the set of its residue. -/
lemma page_set_iff [g.Sound] {is2M : Bool} {m : ℕ} (hm : m < 2^(64-g.offsetBits is2M)) (s : ℕ) :
    (∀ a, g.pageNumber a is2M = m → (g.setidOf a is2M).toNat = s) ↔ m % 2^g.logSetCount = s := by
  constructor
  · intro h
    rw [← h _ (pageNumber_pageStart hm),setidOf_toNat,pageNumber_pageStart hm]
  · intro h a ha
    rw [setidOf_toNat,ha,h]

lemma Fits.setCount_le [g.Sound] (hg : g.Fits) : g.setCount ≤ 2^(64-g.offsetBits false) := by
  have hb := g.offsetBits_bounds false
  have hw : 0 < g.associativity := Sound.ways
  have hle : g.setCount*2^g.offsetBits false ≤ 2^(64-g.offsetBits false)*2^g.offsetBits false := by
    calc g.setCount*2^g.offsetBits false
        ≤ g.setCount*g.associativity*2^g.logLineSize := by
          simp only [offsetBits,Bool.false_eq_true,if_false]
          exact Nat.mul_le_mul_right _ (Nat.le_mul_of_pos_right _ hw)
      _ ≤ 2^64 := hg.lines
      _ = 2^(64-g.offsetBits false)*2^g.offsetBits false := by
          rw [← pow_add]; congr 1; omega
  exact Nat.le_of_mul_le_mul_right hle (Nat.two_pow_pos _)

lemma capacity_of_pow [g.Sound] (hg : g.Fits) (hpow : g.setCount = 2^g.logSetCount) :
    HoldsAtOnce g (g.setCount*g.associativity) := by
  have hb := g.offsetBits_bounds false
  have hlt : ∀ m ∈ List.range (g.setCount*g.associativity), m < 2^(64-g.offsetBits false) := by
    intro m hm
    refine lt_of_lt_of_le (List.mem_range.mp hm) ?_
    apply Nat.le_of_mul_le_mul_right (c := 2^g.offsetBits false) _ (Nat.two_pow_pos _)
    rw [← pow_add,show 64-g.offsetBits false+g.offsetBits false = 64 by omega]
    simpa [offsetBits] using hg.lines
  let pages := (List.range (g.setCount*g.associativity)).map (g.pageStart false)
  have hnumbers : pages.map (fun a => g.pageNumber a false) =
      List.range (g.setCount*g.associativity) := by
    rw [List.map_map]
    conv_rhs => rw [← List.map_id (List.range (g.setCount*g.associativity))]
    exact List.map_congr_left fun m hm => pageNumber_pageStart (hlt m hm)
  have hcount : ∀ i, pages.countP (fun a => (g.key a false).1 = i) ≤ g.associativity := by
    intro i
    rw [List.countP_map]
    refine le_trans (le_of_eq ?_) (countP_residue_le g.setCount g.associativity i)
    apply List.countP_congr
    intro m hm
    simp only [Function.comp,key,decide_eq_true_eq,setidOf_toNat,pageNumber_pageStart (hlt m hm),
      hpow]
  obtain ⟨hmiss,c,hc,hfill⟩ := filling_of_fits pages (hnumbers ▸ List.nodup_range) hcount
  refine ⟨_,c,hmiss,hc,pages,by simp [pages],hnumbers ▸ List.nodup_range,fun a ha => ?_⟩
  exact (hfill.resident a).mpr ⟨a,ha,rfl⟩

/-- A set whose index is not below the power of two is never selected. -/
lemma UsableSets.pow [g.Sound] (hg : g.Fits) (h : g.UsableSets) :
    g.setCount = 2^g.logSetCount := by
  by_contra hne
  have hlt : 2^g.logSetCount < g.setCount := lt_of_le_of_ne Sound.sets (Ne.symm hne)
  have hcount := hg.setCount_le
  obtain ⟨m,⟨⟨-,hm⟩,hset⟩,-⟩ := h.onto false 0 (by simpa using hcount) _ hlt
  have hmod := (page_set_iff (by omega) _).mp hset
  have := Nat.mod_lt m (Nat.two_pow_pos g.logSetCount)
  omega

/-- The sets of a built cache are all usable exactly when their number is a power of two, which
only that of the L2 TLB is not. -/
theorem usableSets_iff (g : Geometry) (hg : g ∈ builtGeometries) :
    g.UsableSets ↔ g.setCount = 2^g.logSetCount := by
  have hfits := fits_of_mem hg
  have := hfits.sound
  refine ⟨fun h => h.pow hfits,fun hpow => ⟨g.setidOf_lt,fun is2M n hn s hs => ?_,
    capacity_of_pow hfits hpow⟩⟩
  obtain ⟨m,⟨hm,hms⟩,hunique⟩ := existsUnique_residue g.setCount n s hs
  refine ⟨m,⟨hm,(page_set_iff (by omega) s).mpr (hpow ▸ hms)⟩,?_⟩
  rintro m' ⟨hm',hset⟩
  refine hunique m' ⟨hm',?_⟩
  have hres := (page_set_iff (by omega) s).mp hset
  rwa [← hpow] at hres

theorem usableSets_l1Tlb4k : l1Tlb4kGeometry.UsableSets :=
  (usableSets_iff l1Tlb4kGeometry (by simp [builtGeometries])).mpr (by decide +kernel)

/-- The L2 TLB has 170 sets and selects 128 of them. -/
theorem not_usableSets_l2Tlb : ¬ ∀ g ∈ builtGeometries, g.UsableSets := by
  intro h
  have hg : l2TlbGeometry ∈ builtGeometries := by simp [builtGeometries]
  exact absurd ((h _ hg).pow (fits_of_mem hg)) (by decide +kernel)

end Geometry
end ElasticTranslations.Pcc
