import ElasticTranslations.Benchmarks.BTreeRuns

/-! `main` of `btree1.c`: the tree gets the keys below the number of elements from both ends
towards each other, and each lookup is of such a key. -/
namespace ElasticTranslations.Benchmarks.BTree
open Structures

def sizeofElement : ℕ := 16

/-- The address of an element of an array. -/
def elementAt (base : UInt64) (i : ℕ) : UInt64 := base+UInt64.ofNat (sizeofElement*i)

/-- The insertions of one round, with the addresses of elements as values. -/
def buildRound (nelements : ℕ) (elms elms2 : UInt64) (i : ℕ) : List (UInt64 × UInt64) :=
  [(UInt64.ofNat (nelements-2*i-1),elementAt elms2 i),(UInt64.ofNat (2*i),elementAt elms i)]

/-- The insertions of `for (i = 0; i < nelements; i += 2)`. -/
def buildEntries (nelements : ℕ) (elms elms2 : UInt64) : List (UInt64 × UInt64) :=
  (List.range ((nelements+1)/2)).flatMap (buildRound nelements elms elms2)

/-- The address that the loop stores under a key: even keys lead into `elms` from its start on, odd
ones into `elms2` from its end on. -/
def elementOf (nelements : ℕ) (elms elms2 : UInt64) (k : ℕ) : UInt64 :=
  if k % 2 = 0 then elementAt elms (k/2) else elementAt elms2 ((nelements-1-k)/2)

variable {nelements : ℕ} {elms elms2 : UInt64}

lemma ofNat_inj {a b : ℕ} (ha : a < 2^64) (hb : b < 2^64) :
    UInt64.ofNat a = UInt64.ofNat b ↔ a = b := by
  rw [← UInt64.toNat_inj,UInt64.toNat_ofNat_of_lt' ha,UInt64.toNat_ofNat_of_lt' hb]

/-- A key that is inserted once has the value of its insertion. -/
lemma lastValue_eq_of_mem {kvs : List (UInt64 × UInt64)} {k v : UInt64}
    (hnodup : (kvs.map Prod.fst).Nodup) (hmem : (k,v) ∈ kvs) : lastValue kvs k = some v := by
  obtain ⟨kv,hkv⟩ := Option.isSome_iff_exists.mp
    ((isSome_lastValue kvs k).mpr (List.mem_map_of_mem hmem))
  obtain ⟨⟨k',v'⟩,hfind,rfl⟩ := Option.map_eq_some_iff.mp hkv
  have hmem' := List.mem_reverse.mp (List.mem_of_find?_eq_some hfind)
  have hk : k' = k := by simpa using List.find?_some hfind
  rw [hkv,List.inj_on_of_nodup_map hnodup hmem' hmem hk]

lemma length_buildEntries (nelements : ℕ) (elms elms2 : UInt64) :
    (buildEntries nelements elms elms2).length = 2*((nelements+1)/2) := by
  rw [buildEntries]
  induction (nelements+1)/2 with
  | zero => rfl
  | succ n ih =>
    rw [List.range_succ,List.flatMap_append,List.length_append,ih]
    rfl

/-- The keys of the rounds are the numbers below an even number of elements, each once. -/
lemma nodup_buildEntries (heven : nelements % 2 = 0) (hsize : nelements ≤ 2^64) :
    ((buildEntries nelements elms elms2).map Prod.fst).Nodup := by
  rw [buildEntries,List.map_flatMap,List.nodup_flatMap]
  constructor
  · intro i hi
    rw [List.mem_range] at hi
    simp only [buildRound,List.map_cons,List.map_nil,List.nodup_cons,List.mem_singleton,
      List.not_mem_nil,not_false_eq_true,List.nodup_nil,and_true]
    rw [ofNat_inj (by omega) (by omega)]
    omega
  · refine List.pairwise_lt_range.imp_of_mem ?_
    intro i j hi hj hij
    rw [List.mem_range] at hi hj
    change List.Disjoint _ _
    rw [List.disjoint_left]
    intro k hki hkj
    simp only [buildRound,List.map_cons,List.map_nil,List.mem_cons,List.not_mem_nil,or_false]
      at hki hkj
    rcases hki with rfl | rfl <;> rcases hkj with hkj | hkj <;>
    · rw [ofNat_inj (by omega) (by omega)] at hkj
      omega

lemma mem_buildEntries (elms elms2 : UInt64) (heven : nelements % 2 = 0) {k : ℕ}
    (hk : k < nelements) :
    (UInt64.ofNat k,elementOf nelements elms elms2 k) ∈ buildEntries nelements elms elms2 := by
  have hround : ∀ i < nelements/2,∀ kv ∈ buildRound nelements elms elms2 i,
      kv ∈ buildEntries nelements elms elms2 := fun i hi kv hkv =>
    List.mem_flatMap.mpr ⟨i,List.mem_range.mpr (by omega),hkv⟩
  rcases Nat.mod_two_eq_zero_or_one k with hzero | hone
  · rw [elementOf,if_pos hzero]
    refine hround (k/2) (by omega) _ ?_
    rw [buildRound,show 2*(k/2) = k by omega]
    simp
  · rw [elementOf,if_neg (by omega)]
    refine hround ((nelements-1-k)/2) (by omega) _ ?_
    rw [buildRound,show nelements-2*((nelements-1-k)/2)-1 = k by omega]
    simp

/-- The element of a key lies in one of the arrays. -/
lemma exists_elementAt (elms elms2 : UInt64) (heven : nelements % 2 = 0) {k : ℕ}
    (hk : k < nelements) : ∃ i < nelements/2,elementOf nelements elms elms2 k = elementAt elms i ∨
      elementOf nelements elms elms2 k = elementAt elms2 i := by
  rcases Nat.mod_two_eq_zero_or_one k with hzero | hone
  · exact ⟨k/2,by omega,.inl (if_pos hzero)⟩
  · exact ⟨(nelements-1-k)/2,by omega,.inr (if_neg (by omega))⟩

/-- The tree that is built, by the address of the element that each key leads to. -/
lemma build_finds {order fuel : ℕ} (horder : 3 ≤ order) (elms elms2 : UInt64)
    (heven : nelements % 2 = 0) (hsize : nelements ≤ 2^64) (hfuel : nelements ≤ fuel) :
    ∃ t,insertAll order fuel Tree.empty (buildEntries nelements elms elms2) = some t ∧
      t.IsBTree order {k | k.toNat < nelements} ∧
      ∀ k < nelements,
        Finds fuel t (UInt64.ofNat k) (some (elementOf nelements elms elms2 k)) := by
  have hlength : (buildEntries nelements elms elms2).length = nelements := by
    rw [length_buildEntries]
    omega
  obtain ⟨t,d,hinsert,hg⟩ :=
    insertAll_good horder (buildEntries nelements elms elms2) (hlength.trans_le hfuel)
  have hnodup : ((buildEntries nelements elms elms2).map Prod.fst).Nodup :=
    nodup_buildEntries heven hsize
  have hfinds : ∀ k v,(k,v) ∈ buildEntries nelements elms elms2 → Finds fuel t k (some v) := by
    intro k v hkv
    rw [← lastValue_eq_of_mem hnodup hkv]
    exact hg.finds (by omega) k
  have hkeys : d.keys = {k | k.toNat < nelements} := by
    ext k
    rw [hg.values.mem_iff,isSome_lastValue]
    constructor
    · intro hk
      obtain ⟨kv,hkv,rfl⟩ := List.mem_map.mp hk
      obtain ⟨i,hi,hkv⟩ := List.mem_flatMap.mp hkv
      rw [List.mem_range] at hi
      simp only [buildRound,List.mem_cons,List.not_mem_nil,or_false] at hkv
      rcases hkv with rfl | rfl
      · rw [Set.mem_ofPred_eq,UInt64.toNat_ofNat_of_lt' (show nelements-2*i-1 < 2^64 by omega)]
        omega
      · rw [Set.mem_ofPred_eq,UInt64.toNat_ofNat_of_lt' (show 2*i < 2^64 by omega)]
        omega
    · intro hk
      have := List.mem_map_of_mem (f := Prod.fst) (mem_buildEntries elms elms2 heven hk)
      rwa [UInt64.ofNat_toNat] at this
  exact ⟨t,hinsert,hkeys ▸ hg.isBTree,fun k hk =>
    hfinds _ _ (mem_buildEntries elms elms2 heven hk)⟩

/-- Each lookup of the benchmark finds the record that was stored under the key, with the address of
its element, whatever the random number is. -/
theorem lookups_find_elements {order fuel : ℕ} (horder : 3 ≤ order) (elms elms2 : UInt64)
    (heven : nelements % 2 = 0) (hpos : 0 < nelements) (hsize : nelements ≤ 2^64)
    (hfuel : nelements ≤ fuel) :
    ∃ t,insertAll order fuel Tree.empty (buildEntries nelements elms elms2) = some t ∧
      t.IsBTree order {k | k.toNat < nelements} ∧
      ∀ rdn : ℕ,Finds fuel t (UInt64.ofNat (rdn % nelements))
        (some (elementOf nelements elms elms2 (rdn % nelements))) := by
  obtain ⟨t,hinsert,htree,hfinds⟩ := build_finds horder elms elms2 heven hsize hfuel
  exact ⟨t,hinsert,htree,fun rdn => hfinds (rdn % nelements) (Nat.mod_lt rdn hpos)⟩

theorem lookups_find_elements_order_21 :
    ∃ t,insertAll 21 4 Tree.empty (buildEntries 4 0xa000020 0xa000000) = some t ∧
      t.IsBTree 21 {k | k.toNat < 4} ∧
      ∀ rdn : ℕ,Finds 4 t (UInt64.ofNat (rdn % 4))
        (some (elementOf 4 0xa000020 0xa000000 (rdn % 4))) :=
  lookups_find_elements (by decide) _ _ (by decide) (by decide) (by decide) (by decide)

end ElasticTranslations.Benchmarks.BTree
