import ElasticTranslations.Structures.Trace
import ElasticTranslations.Pcc.Regions

/-! Sequences of lookups and insertions on one of the four caches, at the cache's own line
size, and the address that every resident line was last passed with. -/
namespace ElasticTranslations.Pcc
open Structures

/-- The caches that `promotion_cache_init` builds. -/
def builtGeometries : List Geometry :=
  [l1Tlb4kGeometry,l1Tlb2mGeometry,l2TlbGeometry,promotionCacheGeometry]

namespace Geometry
variable {g : Geometry}

/-- A geometry whose line size is a power of two and whose pages fit into the word. -/
structure Fits (g : Geometry) : Prop where
  sound : g.Sound
  lineSize : g.cacheLineSize = 2^g.logLineSize
  noWrap : 2^(64-(g.logSetCount+g.logLineSize))*g.setCount ≤ 2^63
  lines : g.setCount*g.associativity*2^g.logLineSize ≤ 2^64
  pages : g.setCount ≤ 2^43

lemma fits_of_mem (h : g ∈ builtGeometries) : g.Fits := by
  simp only [builtGeometries,List.mem_cons,List.not_mem_nil,or_false] at h
  obtain rfl | rfl | rfl | rfl := h
  all_goals exact ⟨inferInstance,by decide +kernel,by decide +kernel,by decide +kernel,
    by decide +kernel⟩

end Geometry

/-- An operation on a cache; `out` holds the out-parameters on entry. -/
inductive CacheOp
  | access (address : UInt64) (isLoad : Bool)
  | insert (address : UInt64) (isLoad : Bool) (out : EvictOut)

def CacheOp.address : CacheOp → UInt64
  | .access address _ => address
  | .insert address _ _ => address

namespace FunctionalCache
variable {g : Geometry} {c c' : FunctionalCache g}

def step (c : FunctionalCache g) : CacheOp → Except Fault (FunctionalCache g)
  | .access address isLoad => do
    let (_,c) ← c.access address isLoad
    return c
  | .insert address isLoad out => do
    let (_,c) ← c.insert address isLoad out
    return c

/-- A page is only inserted when it is missing. -/
def InsertsMissing (c : FunctionalCache g) : CacheOp → Prop
  | .insert address _ _ => c.hits address = false
  | .access _ _ => True

instance (op : CacheOp) : Decidable (c.InsertsMissing op) :=
  match op with
  | .insert address _ _ => inferInstanceAs (Decidable (c.hits address = false))
  | .access _ _ => isTrue trivial

/-- Nothing leaves a set with a free line. -/
lemma insert_room [g.Sound] (h : c.Intact) (a : UInt64) (isLoad : Bool) (out : EvictOut)
    (hroom : (c.sets (g.key a false).1).freeEntries ≠ []) :
    ∃ out' c', c.insert a isLoad out = .ok (out',c') ∧ ∀ b, c.hits b = true → c'.hits b = true := by
  obtain ⟨c',p,evicted,hr,hi⟩ := insert_spec h a isLoad false out
  refine ⟨_,c',hr,fun b hb => ?_⟩
  obtain ⟨hp,-⟩ := hi.filled.room hroom
  by_cases hs : (g.key b false).1 = (g.key a false).1
  · simp only [hits,lookup,hs] at hb ⊢
    rw [hi.filled.find]
    simp only [hp,false_and,if_false]
    split_ifs
    · rfl
    · exact hb
  · simpa only [hits,lookup,hi.others _ hs] using hb

/-- The address that a page was last passed with. -/
def lastPassed (g : Geometry) (ops : List CacheOp) (n : ℕ) : Option UInt64 :=
  ((ops.map CacheOp.address).filter fun a => g.pageNumber a false = n).getLast?

lemma lastPassed_snoc (ops : List CacheOp) (op : CacheOp) (n : ℕ) :
    lastPassed g (ops ++ [op]) n =
      if g.pageNumber op.address false = n then some op.address else lastPassed g ops n := by
  by_cases h : g.pageNumber op.address false = n <;> simp [lastPassed,List.filter_append,h]

/-- Every linked line is that of a page passed before, with its last offset. -/
structure Remembers (ops : List CacheOp) (c : FunctionalCache g) : Prop where
  intact : c.Intact
  exact : c.Exact
  last : ∀ i, ∀ p ∈ (c.sets i).linked, ∃ a, lastPassed g ops (g.pageNumber a false) = some a ∧
    g.key a false = (i,((c.sets i).lines p).addr) ∧
      ((c.sets i).lines p).offset = g.offsetOf a false

lemma new_remembers : (new g).Remembers [] where
  intact := new_intact
  exact := new_exact
  last i p hp := by
    have hnil : ((new g).sets i).linked = [] := CacheSet.new_linked
    rw [hnil] at hp
    simp at hp

namespace Remembers
variable {ops : List CacheOp}

/-- The page of a line is found exactly where the line is. -/
lemma lookup_eq (h : c.Remembers ops) {i : ℕ} {p : LinePtr} (hp : p ∈ (c.sets i).linked)
    {a : UInt64} (ha : g.key a false = (i,((c.sets i).lines p).addr)) :
    c.lookup (g.key a false) = some p := by
  rw [ha]
  exact h.exact i p hp

/-- An operation on another page leaves the record of a page alone. -/
lemma last_of_ne [g.Sound] {op : CacheOp} {a : UInt64}
    (ha : lastPassed g ops (g.pageNumber a false) = some a)
    (hne : g.key op.address false ≠ g.key a false) :
    lastPassed g (ops ++ [op]) (g.pageNumber a false) = some a := by
  rw [lastPassed_snoc,if_neg fun hn => hne ((g.key_eq_iff _ _ _ _).mpr hn),ha]

lemma last_self (op : CacheOp) :
    lastPassed g (ops ++ [op]) (g.pageNumber op.address false) = some op.address := by
  rw [lastPassed_snoc,if_pos rfl]

theorem access [g.Sound] (h : c.Remembers ops) (a : UInt64) (isLoad : Bool) :
    ∃ c', c.step (.access a isLoad) = .ok c' ∧ c'.Remembers (ops ++ [.access a isLoad]) := by
  obtain ⟨c',hr,ht,ho⟩ := access_offsets h.intact a isLoad false
  refine ⟨c',by simp [step,hr],ht.intact,ht.exact h.exact,fun i p hp => ?_⟩
  have hp₀ : p ∈ (c.sets i).linked := (ht i).linked.mem_iff.mp hp
  obtain ⟨b,hlast,hkey,hoff⟩ := h.last i p hp₀
  have hfind := h.lookup_eq hp₀ hkey
  rw [(ht i).addr,ho i p]
  by_cases hk : g.key a false = g.key b false
  · refine ⟨a,last_self (.access a isLoad),hk.trans hkey,?_⟩
    rw [if_pos ⟨by rw [hk,hkey],hk ▸ hfind⟩]
  · refine ⟨b,last_of_ne hlast hk,hkey,?_⟩
    rw [if_neg,hoff]
    rintro ⟨hi,hap⟩
    refine hk (Prod.ext (hi.symm.trans (by rw [hkey])) ?_)
    obtain ⟨-,hpa⟩ := (h.intact _).indexed _ _ hap
    rw [← hi] at hpa
    exact hpa.symm.trans (by rw [hkey])

theorem insert [g.Sound] (h : c.Remembers ops) (a : UInt64) (isLoad : Bool) (out : EvictOut)
    (hmiss : c.hits a = false) :
    ∃ c', c.step (.insert a isLoad out) = .ok c' ∧
      c'.Remembers (ops ++ [.insert a isLoad out]) := by
  obtain ⟨c',p,evicted,hr,hi⟩ := insert_spec h.intact a isLoad false out
  refine ⟨c',by simp [step,hr],hi.intact h.intact,hi.exact h.intact h.exact hmiss,fun i q hq => ?_⟩
  by_cases hk : i = (g.key a false).1
  · subst hk
    by_cases hqp : q = p
    · subst hqp
      refine ⟨a,last_self (.insert a isLoad out),?_,?_⟩
      · rw [hi.filled.addr_self]
        rfl
      · have := congrArg LineData.offset (hi.filled.data q)
        simpa [CacheSet.newData,CacheLine.data] using this
    · have hq₀ := ((hi.filled.mem_linked (h.intact _)).mp hq).resolve_left hqp
      obtain ⟨b,hlast,hkey,hoff⟩ := h.last _ q hq₀.1
      have hdata := hi.filled.data_other hqp
      simp only [CacheLine.data,LineData.mk.injEq] at hdata
      refine ⟨b,last_of_ne hlast fun he => ?_,by rw [hdata.1,hkey],by rw [hdata.2.1,hoff]⟩
      have hfind := h.lookup_eq hq₀.1 hkey
      have hnone : c.lookup (g.key a false) = none := by simpa [hits] using hmiss
      rw [← show g.key a false = g.key b false from he,hnone] at hfind
      cases hfind
  · rw [hi.others i hk] at hq ⊢
    obtain ⟨b,hlast,hkey,hoff⟩ := h.last i q hq
    refine ⟨b,last_of_ne hlast fun he => hk ?_,hkey,hoff⟩
    exact (congrArg Prod.fst hkey).symm.trans (congrArg Prod.fst he).symm

end Remembers

/-- Every run that inserts missing pages only goes through and remembers its addresses. -/
theorem run_remembers [g.Sound] {ops : List CacheOp}
    (hmiss : EachStep step (new g) ops fun _ c op => c.InsertsMissing op) :
    Throughout step (new g) ops fun pre c => c.Remembers pre := by
  refine .of_steps new_remembers (fun pre c op h hc => ?_) hmiss
  cases op with
  | access a isLoad => exact h.access a isLoad
  | insert a isLoad out => exact h.insert a isLoad out hc

end FunctionalCache
end ElasticTranslations.Pcc
