import ElasticTranslations.Scripts.Text
import ElasticTranslations.Structures.Dict
import ElasticTranslations.Structures.Trace
import Mathlib.Algebra.Order.Archimedean.Real.Basic
import Mathlib.Data.List.Chain
import Mathlib.Data.List.Infix

/-! `plot_misses.py`: a histogram of the sampled misses over 2 MiB pages, drawn as two step
functions, one for each half of the address space that was touched. -/
namespace ElasticTranslations.Scripts.PlotMisses
open Structures

/-- One line of the samples. Lines that are no number are passed over; `setdefault` and the
increment are one assignment. -/
def addSample (misses : Dict ℤ ℕ) (line : Text) : Dict ℤ ℕ :=
  if "XLAT".toList <:+: line then misses
  else match int 16 (strip line) with
    | .ok addr =>
      if addr ≥ 0xffff000000000000 then misses
      else
        let addr := addr >>> (21 : ℕ)
        misses.set addr ((misses.get? addr).getD 0 + 1)
    | .error _ => misses

def readSamples (lines : List Text) : Dict ℤ ℕ := lines.foldl addSample .empty

/-- A non-empty map from pages to miss counts, in the order of the pages. -/
structure MissMap where
  pages : List (ℤ × ℕ)
  nonempty : pages ≠ []
  ascending : (pages.map Prod.fst).Pairwise (· < ·)

namespace MissMap

lemma keys_ne_nil (m : MissMap) : m.pages.map Prod.fst ≠ [] :=
  fun h => m.nonempty (List.map_eq_nil_iff.mp h)

/-- `min(misses.keys())`. -/
def first (m : MissMap) : ℤ := (m.pages.map Prod.fst).min m.keys_ne_nil

/-- `max(misses.keys())`. -/
def last (m : MissMap) : ℤ := (m.pages.map Prod.fst).max m.keys_ne_nil

/-- No page is missing between the first and the last one. -/
def Consecutive (m : MissMap) : Prop :=
  (m.pages.map Prod.fst).IsChain fun k k' => k' = k+1

instance (m : MissMap) : Decidable m.Consecutive :=
  inferInstanceAs (Decidable (List.IsChain _ _))

end MissMap

/-- The arguments of `stairs`. -/
structure Stairs where
  values : List ℕ
  edges : List ℤ
  deriving DecidableEq

/-- The local variables of the loop. -/
structure Drawing where
  values : List ℕ
  edges : List ℤ
  prev : ℤ

/-- One round of the loop over `misses.items()`. -/
def addPage (d : Drawing) (item : ℤ × ℕ) : Drawing :=
  let (k,v) := item
  let d := if d.prev ≠ k-1 then
      { d with values := d.values ++ [0], edges := d.edges ++ [d.prev] }
    else d
  { values := d.values ++ [v], edges := d.edges ++ [k], prev := k }

def drawPages (m : MissMap) : Drawing := m.pages.foldl addPage ⟨[],[],m.first-1⟩

def stairs (m : MissMap) : Stairs :=
  let d := drawPages m
  ⟨d.values,d.edges ++ [m.last+1]⟩

/-- The pages in order that have more than ten misses and lie in one half. -/
def selected (keep : ℤ → Bool) (misses : Dict ℤ ℕ) : List (ℤ × ℕ) :=
  (misses.entries.mergeSort fun a b => a.1 ≤ b.1).filter fun item => 10 < item.2 && keep item.1

lemma selected_ascending (keep : ℤ → Bool) (misses : Dict ℤ ℕ) :
    ((selected keep misses).map Prod.fst).Pairwise (· < ·) := by
  let sorted := misses.entries.mergeSort fun a b => decide (a.1 ≤ b.1)
  have hle : sorted.Pairwise fun a b => decide (a.1 ≤ b.1) = true := by
    apply List.pairwise_mergeSort
    · intro a b c hab hbc
      simp only [decide_eq_true_eq] at *
      omega
    · intro a b
      simp only [Bool.or_eq_true,decide_eq_true_eq]
      omega
  have hnodup : (sorted.map Prod.fst).Nodup :=
    ((List.mergeSort_perm _ _).map Prod.fst).nodup_iff.mpr misses.nodup
  have hlt : sorted.Pairwise fun a b => a.1 < b.1 := by
    apply (hle.and (List.pairwise_map.mp hnodup)).imp
    intro a b hab
    exact lt_of_le_of_ne (of_decide_eq_true hab.1) hab.2
  rw [List.pairwise_map]
  exact hlt.filter _

/-- The comprehension of one half; `min` of no keys is an error. -/
def missMap (keep : ℤ → Bool) (misses : Dict ℤ ℕ) : Except PyError MissMap :=
  if h : selected keep misses = [] then throw .valueError
  else return ⟨selected keep misses,h,selected_ascending keep misses⟩

/-- The two histograms of the figure. The middle of the pages is compared exactly. -/
def main (lines : List Text) : Except PyError (Stairs × Stairs) := do
  let misses := readSamples lines
  if h : misses.entries.map Prod.fst = [] then throw .valueError
  else
    let first := (misses.entries.map Prod.fst).min h
    let last := (misses.entries.map Prod.fst).max h
    let low ← missMap (fun k => 2*k < first+last) misses
    let high ← missMap (fun k => 2*k ≥ first+last) misses
    return (stairs low,stairs high)

/-- The value drawn at a place: `values[i]` from `edges[i]` up to `edges[i+1]`. -/
def Stairs.TakesValue (s : Stairs) (x : ℝ) (v : ℕ) : Prop :=
  ∃ (i : ℕ) (a b : ℤ), s.values[i]? = some v ∧ s.edges[i]? = some a ∧ s.edges[i+1]? = some b ∧
    a ≤ x ∧ x < b

/-- A step function is the histogram of a map. -/
structure IsHistogram (m : MissMap) (s : Stairs) : Prop where
  lengths : s.edges.length = s.values.length+1
  increasing : s.edges.Pairwise (· < ·)
  onPages : ∀ item ∈ m.pages, ∀ x : ℝ, item.1 ≤ x → x < item.1+1 → s.TakesValue x item.2
  elsewhere : ∀ x : ℝ, m.first ≤ x → x ≤ m.last →
    (∀ item ∈ m.pages, ¬ ((item.1 : ℝ) ≤ x ∧ x < item.1+1)) → s.TakesValue x 0

lemma addPage_of_gap {d : Drawing} {item : ℤ × ℕ} (h : d.prev ≠ item.1-1) :
    addPage d item =
      ⟨d.values ++ [0] ++ [item.2],d.edges ++ [d.prev] ++ [item.1],item.1⟩ := by
  simp [addPage,h]

lemma addPage_of_next {d : Drawing} {item : ℤ × ℕ} (h : item.1 = d.prev+1) :
    addPage d item = ⟨d.values ++ [item.2],d.edges ++ [item.1],item.1⟩ := by
  have hprev : d.prev = item.1-1 := by omega
  simp [addPage,hprev]

/-- Every round appends as many values as edges. -/
lemma foldl_addPage_lengths (items : List (ℤ × ℕ)) (d : Drawing)
    (h : d.edges.length = d.values.length) :
    (items.foldl addPage d).edges.length = (items.foldl addPage d).values.length := by
  induction items generalizing d with
  | nil => exact h
  | cons item items ih =>
    apply ih
    by_cases hgap : d.prev = item.1-1
    · simp [addPage,hgap,h]
    · simp [addPage,hgap,h]

/-- The edges written are not touched again. -/
lemma edges_prefix_foldl (items : List (ℤ × ℕ)) (d : Drawing) :
    d.edges <+: (items.foldl addPage d).edges := by
  induction items generalizing d with
  | nil => exact List.prefix_refl _
  | cons item items ih =>
    apply List.IsPrefix.trans _ (ih (addPage d item))
    by_cases hgap : d.prev = item.1-1
    · simp [addPage,hgap]
    · simp [addPage,hgap]

/-- Without gaps the loop writes the pages and their counts. -/
lemma foldl_addPage_of_next (items : List (ℤ × ℕ)) (d : Drawing)
    (h : (d.prev :: items.map Prod.fst).IsChain fun k k' => k' = k+1) :
    (items.foldl addPage d).values = d.values ++ items.map Prod.snd ∧
      (items.foldl addPage d).edges = d.edges ++ items.map Prod.fst := by
  induction items generalizing d with
  | nil => simp
  | cons item items ih =>
    obtain ⟨hnext,hrest⟩ := List.isChain_cons_cons.mp h
    rw [List.foldl_cons,addPage_of_next hnext]
    obtain ⟨hvalues,hedges⟩ := ih ⟨d.values ++ [item.2],d.edges ++ [item.1],item.1⟩ hrest
    rw [hvalues,hedges]
    simp

/-- A gap repeats the edge of the page before it. -/
lemma next_of_increasing (items : List (ℤ × ℕ)) (d : Drawing) (hprev : d.prev ∈ d.edges)
    (h : (items.foldl addPage d).edges.Pairwise (· < ·)) :
    (d.prev :: items.map Prod.fst).IsChain fun k k' => k' = k+1 := by
  induction items generalizing d with
  | nil => exact List.isChain_singleton _
  | cons item items ih =>
    have hnext : item.1 = d.prev+1 := by
      by_contra hne
      have hgap : d.prev ≠ item.1-1 := by omega
      have hwritten := h.sublist (edges_prefix_foldl items (addPage d item)).sublist
      rw [addPage_of_gap hgap] at hwritten
      have htwice := (List.pairwise_append.mp (List.pairwise_append.mp hwritten).1).2.2
      exact lt_irrefl _ (htwice d.prev hprev d.prev (List.mem_singleton_self _))
    apply List.isChain_cons_cons.mpr
    refine ⟨hnext,?_⟩
    have hrest := ih (addPage d item)
    rw [addPage_of_next hnext] at hrest
    exact hrest (by simp) (by rwa [List.foldl_cons,addPage_of_next hnext] at h)

/-- A list of numbers that follow each other. -/
lemma getElem?_of_next {k : ℤ} {keys : List ℤ}
    (h : (k :: keys).IsChain fun k k' => k' = k+1) {i : ℕ} (hi : i ≤ keys.length) :
    (k :: keys)[i]? = some (k+i) := by
  induction i generalizing k keys with
  | zero => simp
  | succ i ih =>
    cases keys with
    | nil => simp at hi
    | cons k' keys =>
      obtain ⟨hnext,hrest⟩ := List.isChain_cons_cons.mp h
      rw [List.getElem?_cons_succ,ih hrest (by simpa using hi),hnext]
      congr 1
      push_cast
      ring

namespace MissMap

lemma first_eq (m : MissMap) {item : ℤ × ℕ} {items : List (ℤ × ℕ)}
    (h : m.pages = item :: items) : m.first = item.1 := by
  have hsorted := m.ascending
  simp only [h,List.map_cons,List.pairwise_cons] at hsorted
  refine (List.min_eq_iff _).mpr ?_
  simp only [h,List.map_cons,List.mem_cons,forall_eq_or_imp,true_or,true_and]
  exact ⟨le_refl _,fun k hk => (hsorted.1 k hk).le⟩

/-- The pages of a map without gaps, numbered from the first one. -/
lemma key_of_consecutive {m : MissMap} (h : m.Consecutive) {i : ℕ} (hi : i < m.pages.length) :
    (m.pages.map Prod.fst)[i]? = some (m.first+i) := by
  unfold Consecutive at h
  cases hp : m.pages with
  | nil => exact absurd hp m.nonempty
  | cons item items =>
    rw [hp,List.map_cons] at h
    rw [m.first_eq hp]
    apply getElem?_of_next h
    simpa [hp,Nat.lt_succ_iff] using hi

lemma last_of_consecutive {m : MissMap} (h : m.Consecutive) :
    m.last+1 = m.first+m.pages.length := by
  have hlen := List.length_pos_of_ne_nil m.nonempty
  have hlast : m.last = m.first+(m.pages.length-1 : ℕ) := by
    refine (List.max_eq_iff _).mpr ⟨?_,fun k hk => ?_⟩
    · exact List.mem_of_getElem? (key_of_consecutive h (by omega))
    · obtain ⟨i,hi⟩ := List.mem_iff_getElem?.mp hk
      have hbound := (List.getElem?_eq_some_iff.mp hi).1
      rw [List.length_map] at hbound
      rw [key_of_consecutive h hbound] at hi
      have hk : m.first+i = k := Option.some.inj hi
      omega
  omega

end MissMap

lemma drawPages_cons (m : MissMap) {item : ℤ × ℕ} {items : List (ℤ × ℕ)}
    (h : m.pages = item :: items) :
    drawPages m = items.foldl addPage ⟨[item.2],[item.1],item.1⟩ := by
  have hnext : item.1 = (⟨[],[],m.first-1⟩ : Drawing).prev+1 := by
    rw [m.first_eq h]
    simp
  rw [drawPages,h,List.foldl_cons,addPage_of_next hnext]
  rfl

/-- What is drawn for a map without gaps. -/
lemma stairs_of_consecutive {m : MissMap} (h : m.Consecutive) :
    stairs m = ⟨m.pages.map Prod.snd,m.pages.map Prod.fst ++ [m.last+1]⟩ := by
  unfold MissMap.Consecutive at h
  cases hp : m.pages with
  | nil => exact absurd hp m.nonempty
  | cons item items =>
    rw [hp,List.map_cons] at h
    obtain ⟨hvalues,hedges⟩ := foldl_addPage_of_next items ⟨[item.2],[item.1],item.1⟩ h
    rw [stairs,drawPages_cons m hp,hvalues,hedges]
    rfl

/-- The edges drawn for a map without gaps, numbered. -/
lemma edge_of_consecutive {m : MissMap} (h : m.Consecutive) {i : ℕ} (hi : i ≤ m.pages.length) :
    (stairs m).edges[i]? = some (m.first+i) := by
  rw [stairs_of_consecutive h]
  rcases Nat.lt_or_eq_of_le hi with hlt | rfl
  · rw [List.getElem?_append_left (by simpa using hlt)]
    exact MissMap.key_of_consecutive h hlt
  · rw [List.getElem?_append_right (by simp),MissMap.last_of_consecutive h]
    simp

lemma takesValue_of_consecutive {m : MissMap} (h : m.Consecutive) {item : ℤ × ℕ}
    (hitem : item ∈ m.pages) {x : ℝ} (hx : item.1 ≤ x) (hx' : x < item.1+1) :
    (stairs m).TakesValue x item.2 := by
  obtain ⟨i,hi⟩ := List.mem_iff_getElem?.mp hitem
  have hbound := (List.getElem?_eq_some_iff.mp hi).1
  have hkey : m.first+i = item.1 := by
    have hk := MissMap.key_of_consecutive h hbound
    rw [List.getElem?_map,hi] at hk
    exact (Option.some.inj hk).symm
  refine ⟨i,item.1,item.1+1,?_,?_,?_,hx,by exact_mod_cast hx'⟩
  · rw [stairs_of_consecutive h,List.getElem?_map,hi]
    rfl
  · rw [edge_of_consecutive h hbound.le,hkey]
  · rw [edge_of_consecutive h hbound]
    congr 1
    push_cast
    omega

lemma stairs_lengths (m : MissMap) : (stairs m).edges.length = (stairs m).values.length+1 := by
  have hloop := foldl_addPage_lengths m.pages ⟨[],[],m.first-1⟩ rfl
  rw [stairs,List.length_append,List.length_singleton,drawPages,hloop]

/-- A map without gaps covers everything between its first and its last page. -/
lemma exists_page_of_consecutive {m : MissMap} (h : m.Consecutive) {x : ℝ} (hx : m.first ≤ x)
    (hx' : x ≤ m.last) : ∃ item ∈ m.pages, (item.1 : ℝ) ≤ x ∧ x < item.1+1 := by
  have hlow : m.first ≤ ⌊x⌋ := Int.le_floor.mpr hx
  have hhigh : ⌊x⌋ ≤ m.last := by exact_mod_cast (Int.floor_le x).trans hx'
  have hlast := MissMap.last_of_consecutive h
  have hkey := MissMap.key_of_consecutive h (i := (⌊x⌋-m.first).toNat) (by omega)
  have hfloor : m.first+((⌊x⌋-m.first).toNat : ℕ) = ⌊x⌋ := by omega
  rw [hfloor] at hkey
  obtain ⟨item,hitem,heq⟩ := List.mem_map.mp (List.mem_of_getElem? hkey)
  refine ⟨item,hitem,?_⟩
  rw [heq]
  exact ⟨Int.floor_le x,Int.lt_floor_add_one x⟩

lemma missMap_pages {keep : ℤ → Bool} {misses : Dict ℤ ℕ} {m : MissMap}
    (h : missMap keep misses = .ok m) (item : ℤ × ℕ) :
    item ∈ m.pages ↔ item ∈ misses.entries ∧ 10 < item.2 ∧ keep item.1 := by
  unfold missMap at h
  split at h
  · cases h
  · obtain rfl := Except.ok.inj h
    simp [selected,List.mem_mergeSort]

/-- Both halves of the figure are drawn from maps of sampled pages, one below the other. -/
theorem main_halves {lines : List Text} {left right : Stairs}
    (h : main lines = .ok (left,right)) :
    ∃ low high : MissMap, left = stairs low ∧ right = stairs high ∧
      (∀ item ∈ low.pages,item ∈ (readSamples lines).entries ∧ 10 < item.2) ∧
      (∀ item ∈ high.pages,item ∈ (readSamples lines).entries ∧ 10 < item.2) ∧
      ∀ item ∈ low.pages,∀ item' ∈ high.pages,item.1 < item'.1 := by
  unfold main at h
  dsimp only at h
  split at h
  · cases h
  · obtain ⟨low,hlow,h⟩ := bind_eq_ok h
    obtain ⟨high,hhigh,h⟩ := bind_eq_ok h
    obtain ⟨rfl,rfl⟩ := Prod.mk.inj (Except.ok.inj h)
    have hmemLow := missMap_pages hlow
    have hmemHigh := missMap_pages hhigh
    refine ⟨low,high,rfl,rfl,?_,?_,?_⟩
    · exact fun item hitem => ⟨((hmemLow item).mp hitem).1,((hmemLow item).mp hitem).2.1⟩
    · exact fun item hitem => ⟨((hmemHigh item).mp hitem).1,((hmemHigh item).mp hitem).2.1⟩
    · intro item hitem item' hitem'
      have hless := of_decide_eq_true ((hmemLow item).mp hitem).2.2
      have hmore := of_decide_eq_true ((hmemHigh item').mp hitem').2.2
      omega

/-- The loop draws the histogram exactly where the pages have no gap. -/
theorem stairs_isHistogram_iff (m : MissMap) : IsHistogram m (stairs m) ↔ m.Consecutive := by
  constructor
  · intro h
    have hincreasing := (List.pairwise_append.mp h.increasing).1
    unfold MissMap.Consecutive
    cases hp : m.pages with
    | nil => exact absurd hp m.nonempty
    | cons item items =>
      rw [drawPages_cons m hp] at hincreasing
      exact next_of_increasing items ⟨[item.2],[item.1],item.1⟩ (by simp) hincreasing
  · intro h
    refine ⟨stairs_lengths m,?_,fun item hitem x => takesValue_of_consecutive h hitem,?_⟩
    · rw [stairs_of_consecutive h]
      refine List.pairwise_append.mpr ⟨m.ascending,List.pairwise_singleton _ _,?_⟩
      intro k hk e he
      have hlast : k ≤ m.last := List.le_max_of_mem hk
      obtain rfl : e = m.last+1 := by simpa using he
      omega
    · intro x hx hx' hnone
      obtain ⟨item,hitem,hin⟩ := exists_page_of_consecutive h hx hx'
      exact absurd hin (hnone item hitem)

/-- Pages 0 and 2: the bar of page 0 has no width. -/
def separated : MissMap := ⟨[(0,11),(2,12)],by decide,by decide⟩

theorem separated_not_histogram :
    stairs separated = ⟨[11,0,12],[0,0,2,3]⟩ ∧ ¬ IsHistogram separated (stairs separated) := by
  have hdrawn : stairs separated = ⟨[11,0,12],[0,0,2,3]⟩ := by decide
  refine ⟨hdrawn,fun h => ?_⟩
  have hincreasing := h.increasing
  rw [hdrawn] at hincreasing
  revert hincreasing
  decide

end ElasticTranslations.Scripts.PlotMisses
