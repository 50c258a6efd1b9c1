import Mathlib.Data.List.Nodup

/-! Finite maps as lists of entries with distinct keys. Assignment replaces the value of a key
in place or appends a new entry, so the entries stand in the order of first assignment. -/
namespace ElasticTranslations.Structures

structure Dict (K V : Type*) where
  entries : List (K × V)
  nodup : (entries.map Prod.fst).Nodup

namespace Dict
variable {K V W : Type*} [DecidableEq K]

def empty : Dict K V := ⟨[],List.nodup_nil⟩

/-- The list of entries after an assignment. -/
def assign (k : K) (v : V) : List (K × V) → List (K × V)
  | [] => [(k,v)]
  | e :: l => if e.1 = k then (k,v) :: l else e :: assign k v l

lemma mem_keys_assign (k k' : K) (v : V) (l : List (K × V)) :
    k' ∈ (assign k v l).map Prod.fst ↔ k' = k ∨ k' ∈ l.map Prod.fst := by
  induction l with
  | nil => simp [assign]
  | cons e l ih =>
    by_cases he : e.1 = k
    · simp [assign,he]
    · simp only [assign,he,if_false,List.map_cons,List.mem_cons,ih]
      tauto

lemma nodup_assign (k : K) (v : V) {l : List (K × V)} (h : (l.map Prod.fst).Nodup) :
    ((assign k v l).map Prod.fst).Nodup := by
  induction l with
  | nil => simp [assign]
  | cons e l ih =>
    obtain ⟨he,hl⟩ := List.nodup_cons.mp h
    by_cases hk : e.1 = k
    · simpa [assign,hk] using h
    · simp only [assign,hk,if_false,List.map_cons,List.nodup_cons,mem_keys_assign,false_or]
      exact ⟨he,ih hl⟩

def set (d : Dict K V) (k : K) (v : V) : Dict K V := ⟨assign k v d.entries,nodup_assign k v d.nodup⟩

def get? (d : Dict K V) (k : K) : Option V := (d.entries.find? fun e => e.1 = k).map Prod.snd

/-- The same keys with other values. -/
def mapValues (d : Dict K V) (f : V → W) : Dict K W where
  entries := d.entries.map fun e => (e.1,f e.2)
  nodup := by simpa [List.map_map,Function.comp_def] using d.nodup

@[simp] lemma get?_empty (k : K) : (empty : Dict K V).get? k = none := rfl

lemma get?_set (d : Dict K V) (k k' : K) (v : V) :
    (d.set k v).get? k' = if k' = k then some v else d.get? k' := by
  obtain ⟨l,hl⟩ := d
  simp only [set,get?]
  clear hl
  induction l with
  | nil =>
    by_cases hk : k' = k
    · simp [assign,hk]
    · simp [assign,hk,Ne.symm hk]
  | cons e l ih =>
    by_cases he : e.1 = k
    · by_cases hk : k' = k
      · simp [assign,he,hk]
      · simp [assign,he,hk,Ne.symm hk]
    · by_cases hk' : e.1 = k'
      · have hne : k' ≠ k := fun h => he (hk'.trans h)
        simp [assign,hk',hne]
      · simpa [assign,he,hk'] using ih

lemma get?_mapValues (d : Dict K V) (f : V → W) (k : K) :
    (d.mapValues f).get? k = (d.get? k).map f := by
  obtain ⟨l,hl⟩ := d
  simp only [mapValues,get?]
  clear hl
  induction l with
  | nil => rfl
  | cons e l ih =>
    by_cases he : e.1 = k
    · simp [he]
    · simpa [he] using ih

/-- The entries are the graph of the map. -/
lemma mem_entries (d : Dict K V) (k : K) (v : V) : (k,v) ∈ d.entries ↔ d.get? k = some v := by
  obtain ⟨l,hl⟩ := d
  simp only [get?]
  induction l with
  | nil => simp
  | cons e l ih =>
    obtain ⟨he,hl⟩ := List.nodup_cons.mp hl
    by_cases hk : e.1 = k
    · subst hk
      have hnot : (e.1,v) ∉ l := fun hm => he (List.mem_map.mpr ⟨_,hm,rfl⟩)
      simp [hnot,Prod.ext_iff,eq_comm]
    · have hne : (k,v) ≠ e := fun h => hk (by rw [← h])
      simpa [hk,hne] using ih hl

lemma mem_keys (d : Dict K V) (k : K) :
    k ∈ d.entries.map Prod.fst ↔ d.get? k ≠ none := by
  rw [Option.ne_none_iff_exists',List.mem_map]
  constructor
  · rintro ⟨e,he,rfl⟩
    exact ⟨e.2,(d.mem_entries e.1 e.2).mp he⟩
  · rintro ⟨v,hv⟩
    exact ⟨(k,v),(d.mem_entries k v).mpr hv,rfl⟩

/-- A function that is empty at all keys but one collects what it is at that key. -/
lemma flatMap_entries (d : Dict K V) (k : K) (f : K × V → List W)
    (h : ∀ e ∈ d.entries,e.1 ≠ k → f e = []) :
    d.entries.flatMap f = ((d.get? k).map fun v => f (k,v)).getD [] := by
  obtain ⟨l,hl⟩ := d
  simp only [get?] at h ⊢
  induction l with
  | nil => rfl
  | cons e l ih =>
    obtain ⟨he,hl⟩ := List.nodup_cons.mp hl
    have htail : ∀ e' ∈ l,e'.1 ≠ k → f e' = [] := fun e' he' => h e' (List.mem_cons_of_mem _ he')
    rw [List.flatMap_cons]
    by_cases hk : e.1 = k
    · subst hk
      have hnone : l.flatMap f = [] := by
        rw [List.flatMap_eq_nil_iff]
        intro e' he'
        exact htail e' he' fun heq => he (List.mem_map.mpr ⟨e',he',heq⟩)
      simp [hnone]
    · rw [h e List.mem_cons_self hk,ih hl htail]
      simp [hk]

end Dict
end ElasticTranslations.Structures
