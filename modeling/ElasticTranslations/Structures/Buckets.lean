import Mathlib.Data.List.Count
import Mathlib.Logic.Function.Basic
import Mathlib.Data.List.Nodup
import Mathlib.Data.List.Infix

/-! Lists under indices: an element is taken out of one of them and put at the end of another. A
scan of a list stops with the `n`-th element that a test picks, and passes the others on its way. -/
namespace ElasticTranslations.Structures

section Moves
variable {α : Type*} [DecidableEq α]

/-- Once in one of the first `n` buckets, and in no other of them. -/
def OnlyIn (n : ℕ) (buckets : ℕ → List α) (x : α) (b : ℕ) : Prop :=
  ∀ j < n, (buckets j).count x = if j = b then 1 else 0

/-- The buckets after an element has moved. -/
def moved (buckets : ℕ → List α) (x : α) (old new : ℕ) : ℕ → List α :=
  Function.update (Function.update buckets old ((buckets old).erase x)) new
    (Function.update buckets old ((buckets old).erase x) new ++ [x])

lemma count_moved_of_ne {x y : α} (h : y ≠ x) (buckets : ℕ → List α)
    (old new j : ℕ) : (moved buckets x old new j).count y = (buckets j).count y := by
  have herase : ∀ i, (Function.update buckets old ((buckets old).erase x) i).count y =
      (buckets i).count y := fun i => by
    by_cases hi : i = old
    · rw [hi,Function.update_self,List.count_erase_of_ne h]
    · rw [Function.update_of_ne hi]
  unfold moved
  by_cases hj : j = new
  · rw [hj,Function.update_self,List.count_append,herase,List.count_singleton]
    simp [h.symm]
  · rw [Function.update_of_ne hj,herase]

/-- An element that is at most once in its old bucket ends up once in the new one. -/
lemma count_moved {buckets : ℕ → List α} {x : α} {old j : ℕ} (new : ℕ)
    (h : (buckets j).count x ≤ if j = old then 1 else 0) :
    (moved buckets x old new j).count x = if j = new then 1 else 0 := by
  have herase : (Function.update buckets old ((buckets old).erase x) j).count x = 0 := by
    by_cases hj : j = old
    · subst hj
      rw [if_pos rfl] at h
      rw [Function.update_self,List.count_erase_self]
      omega
    · rw [if_neg hj] at h
      rw [Function.update_of_ne hj]
      omega
  unfold moved
  by_cases hj : j = new
  · subst hj
    rw [Function.update_self,List.count_append,herase,if_pos rfl]
    simp
  · rw [Function.update_of_ne hj,herase,if_neg hj]

theorem onlyIn_moved {n : ℕ} {buckets : ℕ → List α} {x : α} {old : ℕ}
    (h : ∀ j < n, (buckets j).count x ≤ if j = old then 1 else 0) (new : ℕ) :
    OnlyIn n (moved buckets x old new) x new := fun j hj => count_moved new (h j hj)

/-- The others stay where they are. -/
theorem OnlyIn.moved_of_ne {n : ℕ} {buckets : ℕ → List α} {x y : α} {b : ℕ}
    (hb : OnlyIn n buckets y b) (h : y ≠ x) (old new : ℕ) :
    OnlyIn n (moved buckets x old new) y b := fun j hj => by
  rw [count_moved_of_ne h,hb j hj]

end Moves

section BoundedScan
variable {α : Type*}

/-- The elements up to and including the `n`-th that passes the test. -/
def throughNth (p : α → Bool) : ℕ → List α → List α
  | 0,_ => []
  | _+1,[] => []
  | n+1,x :: l => x :: throughNth p (if p x then n else n+1) l

@[simp] lemma throughNth_zero (p : α → Bool) (l : List α) : throughNth p 0 l = [] := by
  cases l <;> rfl

@[simp] lemma throughNth_nil (p : α → Bool) (n : ℕ) : throughNth p n [] = [] := by
  cases n <;> rfl

lemma throughNth_initial (p : α → Bool) (n : ℕ) (l : List α) : throughNth p n l <+: l := by
  induction l generalizing n with
  | nil => simp
  | cons x l ih =>
    cases n with
    | zero => simp
    | succ n => exact (List.prefix_cons_inj x).mpr (ih _)

/-- The elements picked are the first `n` there are. -/
lemma filter_throughNth (p : α → Bool) (n : ℕ) (l : List α) :
    (throughNth p n l).filter p = (l.filter p).take n := by
  induction l generalizing n with
  | nil => simp
  | cons x l ih =>
    cases n with
    | zero => simp
    | succ n =>
      cases hx : p x with
      | true => simp [throughNth,hx,ih]
      | false => simp [throughNth,hx,ih]

lemma throughNth_congr {p q : α → Bool} {l : List α} (h : ∀ x ∈ l, p x = q x) (n : ℕ) :
    throughNth p n l = throughNth q n l := by
  induction l generalizing n with
  | nil => simp
  | cons x l ih =>
    cases n with
    | zero => simp
    | succ n =>
      rw [throughNth,throughNth,h x (by simp),ih fun y hy => h y (by simp [hy])]

end BoundedScan

end ElasticTranslations.Structures
