import ElasticTranslations.Structures.ArrayLoops
import Mathlib.Algebra.BigOperators.Group.List.Basic
import Mathlib.Algebra.Ring.Nat
import Mathlib.Data.List.Nodup
import Mathlib.Order.Monotone.Basic
import Mathlib.Order.Nat

/-! Rows of different lengths, one behind the other in one array, and loops that fill an array in
any order of its cells or rows. -/
namespace ElasticTranslations.Structures
variable {α : Type*}

/-- The sums of all prefixes. -/
def offsets (lengths : List ℕ) : List ℕ :=
  (List.range (lengths.length+1)).map fun n => (lengths.take n).sum

@[simp] lemma length_offsets (lengths : List ℕ) : (offsets lengths).length = lengths.length+1 := by
  simp [offsets]

lemma getElem?_offsets {lengths : List ℕ} {n : ℕ} (hn : n ≤ lengths.length) :
    (offsets lengths)[n]? = some (lengths.take n).sum := by
  rw [offsets,List.getElem?_map,List.getElem?_range (by omega)]
  rfl

lemma sum_take_succ {lengths : List ℕ} {n d : ℕ} (hd : lengths[n]? = some d) :
    (lengths.take (n+1)).sum = (lengths.take n).sum+d := by
  rw [List.take_add_one,hd]
  simp

/-- The first `n` rows in one array. -/
def flatRows (rows : ℕ → List α) (n : ℕ) : List α := (List.range n).flatMap rows

/-- Where row `u` starts. -/
def base (rows : ℕ → List α) (u : ℕ) : ℕ := (flatRows rows u).length

section Rows
variable {rows : ℕ → List α} {n u k : ℕ}

lemma flatRows_succ (rows : ℕ → List α) (n : ℕ) :
    flatRows rows (n+1) = flatRows rows n++rows n := by
  simp [flatRows,List.range_succ]

@[simp] lemma base_zero (rows : ℕ → List α) : base rows 0 = 0 := rfl

lemma base_succ (rows : ℕ → List α) (n : ℕ) : base rows (n+1) = base rows n+(rows n).length := by
  rw [base,flatRows_succ,List.length_append,base]

lemma base_mono (rows : ℕ → List α) : Monotone (base rows) := by
  apply monotone_nat_of_le_succ
  intro n
  rw [base_succ]
  omega

lemma base_add_le (rows : ℕ → List α) (hu : u < n) : base rows u+(rows u).length ≤ base rows n := by
  rw [← base_succ]
  exact base_mono rows hu

/-- The rows do not overlap. -/
lemma base_add_inj {v l : ℕ} (hk : k < (rows u).length) (hl : l < (rows v).length)
    (heq : base rows u+k = base rows v+l) : u = v ∧ k = l := by
  rcases lt_trichotomy u v with hlt | rfl | hlt
  · have := base_add_le rows hlt
    omega
  · exact ⟨rfl,by omega⟩
  · have := base_add_le rows hlt
    omega

lemma getElem?_flatRows (rows : ℕ → List α) (hu : u < n) (hk : k < (rows u).length) :
    (flatRows rows n)[base rows u+k]? = (rows u)[k]? := by
  induction n with
  | zero => omega
  | succ n ih =>
    rw [flatRows_succ]
    by_cases hun : u = n
    · subst hun
      rw [base,List.getElem?_append_right (by omega),Nat.add_sub_cancel_left]
    · have hlt : u < n := by omega
      have := base_add_le rows hlt
      rw [List.getElem?_append_left (by rw [← base]; omega),ih hlt]

lemma exists_row {i : ℕ} (hi : i < base rows n) :
    ∃ u < n,∃ k < (rows u).length,i = base rows u+k := by
  induction n with
  | zero => simp at hi
  | succ n ih =>
    by_cases hlt : i < base rows n
    · obtain ⟨u,hu,hrest⟩ := ih hlt
      exact ⟨u,by omega,hrest⟩
    · rw [base_succ] at hi
      exact ⟨n,by omega,i-base rows n,by omega,by omega⟩

lemma eq_flatRows {xs : List α} (hlen : xs.length = base rows n)
    (hrow : ∀ u < n,∀ k < (rows u).length,xs[base rows u+k]? = (rows u)[k]?) :
    xs = flatRows rows n := by
  apply List.ext_getElem?
  intro i
  by_cases hi : i < base rows n
  · obtain ⟨u,hu,k,hk,rfl⟩ := exists_row hi
    rw [hrow u hu k hk,getElem?_flatRows rows hu hk]
  · rw [List.getElem?_eq_none (by omega),List.getElem?_eq_none (by rw [← base]; omega)]

lemma take_drop_flatRows (rows : ℕ → List α) (hu : u < n) :
    ((flatRows rows n).drop (base rows u)).take (rows u).length = rows u := by
  apply List.ext_getElem?
  intro k
  rw [List.getElem?_take,List.getElem?_drop]
  by_cases hk : k < (rows u).length
  · rw [if_pos hk,getElem?_flatRows rows hu hk]
  · rw [if_neg hk,List.getElem?_eq_none (by omega)]

/-- The prefix sums of the lengths are where the rows start. -/
lemma offsets_lengths (rows : ℕ → List α) (n : ℕ) :
    offsets ((List.range n).map fun u => (rows u).length) =
      (List.range (n+1)).map (base rows) := by
  have hsum : ∀ m ≤ n,(((List.range n).map fun u => (rows u).length).take m).sum = base rows m := by
    intro m hm
    induction m with
    | zero => simp
    | succ m ih =>
      rw [sum_take_succ (d := (rows m).length) (by
        rw [List.getElem?_map,List.getElem?_range (by omega)]
        rfl),ih (by omega),base_succ]
  rw [offsets,List.length_map,List.length_range]
  apply List.map_congr_left
  intro m hm
  exact hsum m (by simpa [Nat.lt_succ_iff] using hm)

end Rows

section AnyOrder
variable {n : ℕ} {order : List ℕ}

/-- What a loop over the numbers below `n`, in whatever order, has done and what comes next. -/
lemma Perm.mem_parts {pre post : List ℕ} {i : ℕ} (horder : order.Perm (List.range n))
    (heq : order = pre++i :: post) : i < n ∧ i ∉ pre := by
  have hnodup : (pre++i :: post).Nodup := heq ▸ horder.nodup_iff.mpr List.nodup_range
  constructor
  · exact List.mem_range.mp (horder.subset (by rw [heq]; simp))
  · intro hmem
    rw [List.nodup_append] at hnodup
    exact hnodup.2.2 i hmem i (by simp) rfl

lemma Perm.mem_iff_lt (horder : order.Perm (List.range n)) {i : ℕ} : i ∈ order ↔ i < n := by
  rw [horder.mem_iff,List.mem_range]

/-- A loop whose rounds each give their own cell its value, in any order of the cells. -/
lemma eachCell_rule (body : List α → ℕ → Option (List α)) {g : ℕ → α}
    (horder : order.Perm (List.range n)) (xs : List α) (hlen : xs.length = n)
    (hbody : ∀ ys : List α,∀ i < n,ys.length = n → ys[i]? = xs[i]? →
      ∃ zs,body ys i = some zs ∧ zs.length = n ∧ zs[i]? = some (g i) ∧
        ∀ j,j ≠ i → zs[j]? = ys[j]?) :
    order.foldlM body xs = some ((List.range n).map g) := by
  obtain ⟨ys,hys,hylen,hat,-⟩ := foldlM_rule body (l := order) (s := xs)
    (I := fun pre ys => ys.length = n ∧ (∀ i ∈ pre,ys[i]? = some (g i)) ∧
      ∀ i,i ∉ pre → ys[i]? = xs[i]?) ⟨hlen,by simp,fun _ _ => rfl⟩ (by
      rintro pre i post ys heq ⟨hylen,hat,hrest⟩
      obtain ⟨hi,hnew⟩ := Perm.mem_parts horder heq
      obtain ⟨zs,hzs,hzlen,hset,hother⟩ := hbody ys i hi hylen (hrest i hnew)
      refine ⟨zs,hzs,hzlen,fun j hj => ?_,fun j hj => ?_⟩
      · by_cases hij : j = i
        · subst hij
          exact hset
        · rw [hother j hij]
          exact hat j (by simpa [hij] using hj)
      · rw [List.mem_append,List.mem_singleton,not_or] at hj
        rw [hother j hj.2,hrest j hj.1])
  rw [hys]
  congr 1
  apply List.ext_getElem?
  intro i
  rw [List.getElem?_map]
  by_cases hi : i < n
  · rw [hat i ((Perm.mem_iff_lt horder).mpr hi),List.getElem?_range hi]
    rfl
  · rw [List.getElem?_eq_none (by omega),List.getElem?_eq_none (by simpa using hi)]
    rfl

lemma fillCells_rule {f : ℕ → Option α} {g : ℕ → α} (horder : order.Perm (List.range n))
    (hf : ∀ i < n,f i = some (g i)) (xs : List α) (hlen : xs.length = n) :
    order.foldlM (fun xs i => do
      let x ← f i
      write xs i x) xs = some ((List.range n).map g) := by
  refine eachCell_rule _ horder xs hlen fun ys i hi hylen _ => ⟨ys.set i (g i),?_,?_,?_,?_⟩
  · simp [hf i hi,write_of_lt (show i < ys.length by omega)]
  · simpa using hylen
  · exact List.getElem?_set_self (by omega)
  · exact fun j hj => List.getElem?_set_ne (Ne.symm hj)

/-- A loop that counts up is one over the numbers in their order. -/
lemma forUp_eq_foldlM {σ : Type*} (body : ℕ → σ → Option σ) (n i : ℕ) (s : σ) :
    forUp body n i s = (List.range' i n).foldlM (fun s i => body i s) s := by
  induction n generalizing i s with
  | zero => rfl
  | succ n ih =>
    rw [forUp,List.range'_succ,List.foldlM_cons]
    exact bind_congr fun s => ih (i+1) s

/-- A loop that copies each row to its place, in any order of the rows. -/
lemma fillRows_rule (rows : ℕ → List α) (body : List α → ℕ → Option (List α))
    (horder : order.Perm (List.range n)) (xs : List α) (hlen : xs.length = base rows n)
    (hbody : ∀ ys : List α,∀ u < n,ys.length = base rows n →
      ∃ zs,body ys u = some zs ∧ Placed (rows u) (base rows u) ys (rows u).length zs) :
    order.foldlM body xs = some (flatRows rows n) := by
  obtain ⟨ys,hys,hylen,hat⟩ := foldlM_rule body (l := order) (s := xs)
    (I := fun pre ys => ys.length = base rows n ∧
      ∀ u ∈ pre,∀ k < (rows u).length,ys[base rows u+k]? = (rows u)[k]?) ⟨hlen,by simp⟩ (by
      rintro pre u post ys heq ⟨hylen,hat⟩
      obtain ⟨hu,hnew⟩ := Perm.mem_parts horder heq
      obtain ⟨zs,hzs,hzlen,hplaced⟩ := hbody ys u hu hylen
      refine ⟨zs,hzs,hzlen.trans hylen,fun v hv k hk => ?_⟩
      rw [hplaced]
      by_cases huv : v = u
      · subst huv
        rw [if_pos ⟨by omega,by omega⟩,Nat.add_sub_cancel_left]
      · have hv : v ∈ pre := by simpa [huv] using hv
        rw [if_neg]
        · exact hat v hv k hk
        · rintro ⟨hge,hlt⟩
          have := base_add_inj (u := v) (v := u)
            (l := base rows v+k-base rows u) hk (by omega) (by omega)
          exact huv this.1)
  rw [hys]
  congr 1
  exact eq_flatRows hylen fun u hu => hat u ((Perm.mem_iff_lt horder).mpr hu)

end AnyOrder

end ElasticTranslations.Structures
