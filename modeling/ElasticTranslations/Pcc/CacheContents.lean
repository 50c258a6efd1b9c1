import ElasticTranslations.Pcc.CacheSetContents
import ElasticTranslations.Pcc.CacheKeys

/-! A whole cache as a set of resident keys. Lookups keep it, insertions add one key and may
drop another one, evictions drop one key. -/
namespace ElasticTranslations.Pcc

namespace FunctionalCache
variable {g : Geometry} {c c' c'' : FunctionalCache g}

def lookup (c : FunctionalCache g) (k : ℕ × UInt64) : Option LinePtr := (c.sets k.1).find k.2

def resident (c : FunctionalCache g) (k : ℕ × UInt64) : Prop := (c.lookup k).isSome

/-- Whether `access` would return true. -/
def hits (c : FunctionalCache g) (address : UInt64) (is2M : Bool := false) : Bool :=
  (c.lookup (g.key address is2M)).isSome

lemma hits_iff {a : UInt64} {f : Bool} : c.hits a f = true ↔ c.resident (g.key a f) := Iff.rfl

def Intact (c : FunctionalCache g) : Prop := ∀ i, (c.sets i).Intact

def Exact (c : FunctionalCache g) : Prop := ∀ i, (c.sets i).Exact

lemma new_intact : (new g).Intact := fun _ => CacheSet.new_intact
lemma new_exact : (new g).Exact := fun _ => CacheSet.new_exact
lemma new_not_resident (k : ℕ × UInt64) : ¬ (new g).resident k := by
  simp [resident,lookup,new,CacheSet.new,CacheSet.find]

lemma new_hits (a : UInt64) (f : Bool) : (new g).hits a f = false := by
  rw [← Bool.not_eq_true,hits_iff]
  exact new_not_resident _

/-- Only lookups happened. -/
def Touched (c c' : FunctionalCache g) : Prop := ∀ i, CacheSet.SameContents (c.sets i) (c'.sets i)

lemma Touched.refl (h : c.Intact) : c.Touched c := fun i => .refl (h i)

lemma Touched.trans (h : c.Touched c') (h' : c'.Touched c'') : c.Touched c'' :=
  fun i => (h i).trans (h' i)

lemma Touched.intact (h : c.Touched c') : c'.Intact := fun i => (h i).intact

lemma Touched.exact (h : c.Touched c') (he : c.Exact) : c'.Exact := fun i => (h i).exact (he i)

lemma Touched.lookup (h : c.Touched c') (k : ℕ × UInt64) : c'.lookup k = c.lookup k :=
  (h k.1).find k.2

lemma Touched.resident (h : c.Touched c') (k : ℕ × UInt64) : c'.resident k ↔ c.resident k := by
  rw [FunctionalCache.resident,h.lookup]; rfl

lemma Touched.hits (h : c.Touched c') (a : UInt64) (f : Bool) : c'.hits a f = c.hits a f := by
  rw [FunctionalCache.hits,h.lookup]; rfl

lemma setAt_ok [g.Sound] (c : FunctionalCache g) (a : UInt64) (f : Bool) :
    c.setAt (g.setidOf a f) = .ok (c.sets (g.key a f).1) := by
  simp only [setAt,if_pos (g.setidOf_lt a f)]
  rfl

@[simp] lemma putSet_self (s : UInt64) (cs : CacheSet g.associativity g.policy) :
    (c.putSet s cs).sets s.toNat = cs := by simp [putSet]

lemma putSet_other {s : UInt64} {i : ℕ} (h : i ≠ s.toNat)
    (cs : CacheSet g.associativity g.policy) : (c.putSet s cs).sets i = c.sets i := by
  simp [putSet,h]

/-- The offset of a line is what it was or that of the address. -/
def OffsetsFrom (a : UInt64) (f : Bool) (c c' : FunctionalCache g) : Prop :=
  ∀ i p, ((c'.sets i).lines p).offset = ((c.sets i).lines p).offset ∨
    ((c'.sets i).lines p).offset = g.offsetOf a f

lemma OffsetsFrom.trans {a : UInt64} {f : Bool} (h : OffsetsFrom a f c c')
    (h' : OffsetsFrom a f c' c'') : OffsetsFrom a f c c'' := fun i p => by
  rcases h' i p with ho | ho
  · rw [ho]; exact h i p
  · exact Or.inr ho

/-- A lookup; the line that is hit takes the offset of the address. -/
theorem access_offsets [g.Sound] (h : c.Intact) (a : UInt64) (isLoad f : Bool) :
    ∃ c', c.access a isLoad f = .ok (c.hits a f,c') ∧ c.Touched c' ∧
      ∀ i p, ((c'.sets i).lines p).offset =
        if i = (g.key a f).1 ∧ c.lookup (g.key a f) = some p then g.offsetOf a f
        else ((c.sets i).lines p).offset := by
  obtain ⟨cs',hr,hs,ho⟩ := CacheSet.access_contents Geometry.Sound.policy_le
    (h (g.key a f).1) (g.tagOf a f) (g.offsetOf a f) isLoad
    fun hp => absurd hp Geometry.Sound.policy_ne_one
  refine ⟨c.putSet (g.setidOf a f) cs',?_,fun i => ?_,fun i p => ?_⟩
  · simp only [access,setAt_ok,ok_bind,hr,pure_ok]
    rfl
  · by_cases hi : i = (g.setidOf a f).toNat
    · subst hi; rw [putSet_self]; exact hs
    · rw [putSet_other hi]; exact .refl (h i)
  · by_cases hi : i = (g.setidOf a f).toNat
    · subst hi
      rw [putSet_self,ho p]
      exact if_congr (by simp [lookup,Geometry.key]) rfl rfl
    · rw [putSet_other hi,if_neg fun hk => hi hk.1]

theorem access_spec [g.Sound] (h : c.Intact) (a : UInt64) (isLoad f : Bool) :
    ∃ c', c.access a isLoad f = .ok (c.hits a f,c') ∧ c.Touched c' ∧ OffsetsFrom a f c c' := by
  obtain ⟨c',hr,ht,ho⟩ := access_offsets h a isLoad f
  refine ⟨c',hr,ht,fun i p => ?_⟩
  rw [ho i p]
  split_ifs
  · exact Or.inr rfl
  · exact Or.inl rfl

/-- One line of one set was filled for the key of the address. -/
structure Inserted (c c' : FunctionalCache g) (p : LinePtr) (a : UInt64) (isLoad f : Bool)
    (out out' : EvictOut) : Prop where
  others : ∀ i ≠ (g.key a f).1, c'.sets i = c.sets i
  filled : CacheSet.Filled (c.sets (g.key a f).1) (c'.sets (g.key a f).1) p (g.tagOf a f)
    (g.offsetOf a f) isLoad out out'

/-- The out-parameters that `insert` returns, from those its set returned. -/
def reported (g : Geometry) (a : UInt64) (f : Bool) (out evicted : EvictOut) : EvictOut :=
  ⟨evicted.dirtyEvict,
    if evicted.evictedAddr = -1 then out.evictedAddr
    else (evicted.evictedAddr.toUInt64*UInt64.ofNat g.setCount + g.setidOf a f).toInt64,
    evicted.evictedOffset⟩

theorem insert_spec [g.Sound] (h : c.Intact) (a : UInt64) (isLoad f : Bool) (out : EvictOut) :
    ∃ c' p evicted, c.insert a isLoad out f = .ok (reported g a f out evicted,c') ∧
      c.Inserted c' p a isLoad f ⟨false,-1,out.evictedOffset⟩ evicted := by
  obtain ⟨cs',p,evicted,hr,hf⟩ := CacheSet.insert_contents Geometry.Sound.policy_le
    Geometry.Sound.ways (h (g.key a f).1) (g.tagOf a f) (g.offsetOf a f) isLoad
    ⟨false,-1,out.evictedOffset⟩
  refine ⟨c.putSet (g.setidOf a f) cs',p,evicted,?_,fun i hi => putSet_other hi cs',?_⟩
  · simp only [insert,setAt_ok,ok_bind,hr,pure_ok]
    rfl
  · change CacheSet.Filled _ ((c.putSet (g.setidOf a f) cs').sets (g.setidOf a f).toNat) ..
    rw [putSet_self]
    exact hf

/-- An insertion into a full set reports its last line, and evicts exactly the key of that
line. -/
theorem insert_full_spec [g.Sound] (h : c.Intact) (a : UInt64) (isLoad f : Bool) (out : EvictOut)
    (hf : (c.sets (g.key a f).1).freeEntries = []) :
    ∃ l v c', (c.sets (g.key a f).1).linked = l ++ [v] ∧
      c.insert a isLoad out f = .ok (reported g a f out
        ⟨((c.sets (g.key a f).1).lines v).dirty,((c.sets (g.key a f).1).lines v).addr.toInt64,
          ((c.sets (g.key a f).1).lines v).offset⟩,c') ∧
      ∀ k, k ≠ g.key a f → (c'.lookup k = none ↔
        c.lookup k = none ∨ k = ((g.key a f).1,((c.sets (g.key a f).1).lines v).addr)) := by
  obtain ⟨v,l,cs',xs,ys,hlv,-,hr,-,-,hfind,-⟩ := CacheSet.insert_full Geometry.Sound.policy_le
    Geometry.Sound.ways (h (g.key a f).1) hf (g.tagOf a f) (g.offsetOf a f) isLoad
    ⟨false,-1,out.evictedOffset⟩
  refine ⟨l,v,c.putSet (g.setidOf a f) cs',hlv,?_,fun k hk => ?_⟩
  · simp only [insert,setAt_ok,ok_bind,hr,pure_ok]
    rfl
  · by_cases hs : k.1 = (g.key a f).1
    · have ht : k.2 ≠ g.tagOf a f := fun ht => hk (Prod.ext hs ht)
      have hput : (c.putSet (g.setidOf a f) cs').sets (g.key a f).1 = cs' := putSet_self _ _
      simp only [lookup,hs,hput,hfind,if_neg ht]
      constructor
      · intro hn
        split_ifs at hn with hv
        · exact Or.inr (Prod.ext hs hv)
        · exact Or.inl hn
      · rintro (hn | hv)
        · simp [hn]
        · simp [congrArg Prod.snd hv]
    · have hput : (c.putSet (g.setidOf a f) cs').sets k.1 = c.sets k.1 := putSet_other hs cs'
      simp only [lookup,hput]
      exact ⟨Or.inl,fun hn => hn.resolve_right fun hv => hs (by rw [hv])⟩

namespace Inserted
variable {p : LinePtr} {a : UInt64} {isLoad f : Bool} {out out' : EvictOut}

lemma intact (hi : c.Inserted c' p a isLoad f out out') (h : c.Intact) : c'.Intact := by
  intro i
  by_cases hk : i = (g.key a f).1
  · subst hk; exact hi.filled.intact
  · rw [hi.others i hk]; exact h i

lemma exact (hi : c.Inserted c' p a isLoad f out out') (h : c.Intact) (he : c.Exact)
    (hm : c.hits a f = false) : c'.Exact := by
  intro i
  by_cases hk : i = (g.key a f).1
  · subst hk
    apply hi.filled.exact (h _) (he _)
    simpa [hits,lookup,Geometry.key] using hm
  · rw [hi.others i hk]; exact he i

lemma offsetsFrom (hi : c.Inserted c' p a isLoad f out out') : OffsetsFrom a f c c' := by
  intro i q
  by_cases hk : i = (g.key a f).1
  · subst hk
    have hd := congrArg LineData.offset (hi.filled.data q)
    by_cases hq : q = p
    · exact Or.inr (by simpa [CacheSet.newData,hq,CacheLine.data] using hd)
    · exact Or.inl (by simpa [CacheSet.newData,hq,CacheLine.data] using hd)
  · rw [hi.others i hk]; exact Or.inl rfl

lemma lookup_self (hi : c.Inserted c' p a isLoad f out out') :
    c'.lookup (g.key a f) = some p := hi.filled.find_self

lemma hits_self (hi : c.Inserted c' p a isLoad f out out') : c'.hits a f = true := by
  simp [hits,hi.lookup_self]

lemma lookup_subset (hi : c.Inserted c' p a isLoad f out out') {k : ℕ × UInt64} {q : LinePtr}
    (hk : k ≠ g.key a f) (hq : c'.lookup k = some q) : c.lookup k = some q := by
  by_cases hs : k.1 = (g.key a f).1
  · have ht : k.2 ≠ g.tagOf a f := fun ht => hk (Prod.ext hs ht)
    simp only [lookup,hs] at hq ⊢
    exact hi.filled.find_subset ht hq
  · simpa [lookup,hi.others _ hs] using hq

lemma resident_subset (hi : c.Inserted c' p a isLoad f out out') {k : ℕ × UInt64}
    (hk : c'.resident k) : k = g.key a f ∨ c.resident k := by
  apply or_iff_not_imp_left.mpr
  intro hne
  obtain ⟨q,hq⟩ := Option.isSome_iff_exists.mp hk
  exact Option.isSome_iff_exists.mpr ⟨q,hi.lookup_subset hne hq⟩

end Inserted

/-- One line of one set was evicted under the key of the address. -/
structure Removed (c c' : FunctionalCache g) (p : LinePtr) (a : UInt64) (f : Bool) : Prop where
  others : ∀ i ≠ (g.key a f).1, c'.sets i = c.sets i
  evicted : CacheSet.Evicted (c.sets (g.key a f).1) (c'.sets (g.key a f).1) p (g.tagOf a f)

theorem evict_spec [g.Sound] (h : c.Intact) {a : UInt64} {f : Bool} {p : LinePtr}
    (hp : c.lookup (g.key a f) = some p) :
    ∃ dirty c', c.evict a f = .ok (dirty,c') ∧ c.Removed c' p a f := by
  obtain ⟨cs',hr,he⟩ := CacheSet.evict_contents (h (g.key a f).1) hp
  refine ⟨((c.sets (g.key a f).1).lines p).dirty,c.putSet (g.setidOf a f) cs',?_,
    fun i hi => putSet_other hi cs',?_⟩
  · simp only [evict,setAt_ok,ok_bind]
    exact congrArg (· >>= _) hr
  · change CacheSet.Evicted _ ((c.putSet (g.setidOf a f) cs').sets (g.setidOf a f).toNat) ..
    rw [putSet_self]
    exact he

namespace Removed
variable {p : LinePtr} {a : UInt64} {f : Bool}

lemma intact (hr : c.Removed c' p a f) (h : c.Intact) : c'.Intact := by
  intro i
  by_cases hk : i = (g.key a f).1
  · subst hk; exact hr.evicted.intact
  · rw [hr.others i hk]; exact h i

lemma exact (hr : c.Removed c' p a f) (h : c.Intact) (hp : c.lookup (g.key a f) = some p)
    (he : c.Exact) : c'.Exact := by
  intro i
  by_cases hk : i = (g.key a f).1
  · subst hk; exact hr.evicted.exact (h _) hp (he _)
  · rw [hr.others i hk]; exact he i

lemma lookup (hr : c.Removed c' p a f) (k : ℕ × UInt64) :
    c'.lookup k = if k = g.key a f then none else c.lookup k := by
  by_cases hs : k.1 = (g.key a f).1
  · have hk : k = g.key a f ↔ k.2 = g.tagOf a f :=
      ⟨fun he => by rw [he]; rfl,fun he => Prod.ext hs he⟩
    simp only [FunctionalCache.lookup,hs,hr.evicted.find,hk]
  · have hk : k ≠ g.key a f := fun he => hs (by rw [he])
    simp [FunctionalCache.lookup,hr.others _ hs,hk]

lemma resident (hr : c.Removed c' p a f) (k : ℕ × UInt64) :
    c'.resident k ↔ c.resident k ∧ k ≠ g.key a f := by
  rw [FunctionalCache.resident,hr.lookup]
  split_ifs with hk
  · simp [hk]
  · simp [hk,FunctionalCache.resident]

end Removed

/-- `getFreq` returns the frequency of the line it finds. -/
theorem getFreq_spec [g.Sound] (h : c.Intact) {a : UInt64} {f : Bool} {p : LinePtr}
    (hp : c.lookup (g.key a f) = some p) :
    c.getFreq a f = .ok ((c.sets (g.key a f).1).lines p).freq := by
  have hg := CacheSet.getFreq_spec (h (g.key a f).1) hp
  simp only [getFreq,setAt_ok,ok_bind]
  exact hg

lemma getEntriesFrom_spec (h : c.Intact) (i n : ℕ) :
    c.getEntriesFrom i n = .ok ((List.range' i n).flatMap fun j =>
      (c.sets j).linked.map fun p => ((c.sets j).lines p).addr) := by
  induction n generalizing i with
  | zero => rfl
  | succ n ih =>
    simp only [getEntriesFrom,CacheSet.getSet_spec (h i),ok_bind,ih,pure_ok,List.range'_succ,
      List.flatMap_cons]

end FunctionalCache
end ElasticTranslations.Pcc
