import Mathlib.Order.Lattice
import Mathlib.Data.List.InsertIdx
import Mathlib.Data.List.TakeWhile
import Mathlib.Data.List.Nodup
import Mathlib.Data.List.Basic
import Mathlib.Order.Defs.PartialOrder

/-! Lists in the order of a rank: strictly increasing ones, with an element inserted at its place
and the two parts around an index, and non-increasing ones, whose ranks are stored outside the list
and may change. -/
namespace ElasticTranslations.Structures

section Ascending
variable {α : Type*}

lemma getElem?_takeWhile_ne [DecidableEq α] {l : List α} {x : α} (hx : x ∈ l) :
    l[(l.takeWhile fun y => y ≠ x).length]? = some x := by
  induction l with
  | nil => simp at hx
  | cons y l ih =>
    by_cases heq : y = x
    · simp [heq]
    · have hx : x ∈ l := by simpa [Ne.symm heq] using hx
      simpa [heq] using ih hx

lemma takeWhile_ne_of_not_mem [DecidableEq α] {l : List α} {x : α} (hx : x ∉ l) :
    (l.takeWhile fun y => y ≠ x) = l := by
  rw [List.takeWhile_eq_self_iff]
  intro y hy
  simpa using ne_of_mem_of_not_mem hy hx

lemma idxOf?_of_take [DecidableEq α] {xs l : List α} {i : ℕ} {x : α}
    (hl : xs.take l.length = l) (hnodup : l.Nodup) (hx : l[i]? = some x) :
    xs.idxOf? x = some i := by
  obtain ⟨hi,rfl⟩ := List.getElem?_eq_some_iff.mp hx
  have hlen : l.length ≤ xs.length := by
    have := congrArg List.length hl
    rw [List.length_take] at this
    omega
  have hget : ∀ j (hj : j < l.length) (hxs : j < xs.length),xs[j] = l[j] := by
    intro j hj hxs
    have := List.getElem_of_eq hl.symm hj
    rw [this,List.getElem_take]
  rw [List.idxOf?_eq_some_iff]
  refine ⟨by omega,hget i hi (by omega),fun j hj heq => ?_⟩
  rw [hget j (by omega) (by omega)] at heq
  exact hj.ne ((List.Nodup.getElem_inj_iff hnodup).mp heq)

lemma length_takeWhile_le (p : α → Bool) (l : List α) : (l.takeWhile p).length ≤ l.length :=
  (List.takeWhile_sublist p).length_le

/-- An insertion behind the entry at an index. -/
lemma insertIdx_of_getElem? {l : List α} {i : ℕ} {x : α} (hx : l[i]? = some x) (y : α) :
    l = l.take i++x :: l.drop (i+1) ∧ l.insertIdx (i+1) y = l.take i++x :: y :: l.drop (i+1) := by
  induction l generalizing i with
  | nil => simp at hx
  | cons z l ih =>
    cases i with
    | zero =>
      obtain rfl : z = x := by simpa using hx
      simp
    | succ i => simpa using ih (by simpa using hx)

/-- In an ordered list the entries with a property that goes down come first. -/
lemma takeWhile_eq_filter {r : α → α → Prop} {p : α → Bool} {l : List α} (hl : l.Pairwise r)
    (hp : ∀ a b,r a b → p b → p a) :
    l.takeWhile p = l.filter p ∧ l.drop (l.takeWhile p).length = l.filter fun a => !p a := by
  induction l with
  | nil => simp
  | cons a l ih =>
    obtain ⟨hhead,hl⟩ := List.pairwise_cons.mp hl
    cases ha : p a with
    | true => simpa [ha] using ih hl
    | false =>
      have hall : ∀ b ∈ l,p b = false := by
        intro b hb
        by_contra hcon
        have := hp a b (hhead b hb) (by simpa using hcon)
        simp [ha] at this
      rw [List.takeWhile_cons_of_neg (by simp [ha]),List.filter_cons_of_neg (by simp [ha]),
        List.filter_cons_of_pos (by simp [ha])]
      constructor
      · exact (List.filter_eq_nil_iff.mpr fun b hb => by simp [hall b hb]).symm
      · rw [List.length_nil,List.drop_zero,List.filter_eq_self.mpr fun b hb => by simp [hall b hb]]

variable {β : Type*} [LinearOrder β] (rank : α → β) {l : List α} {x y : α}

lemma pairwise_insertIdx (hl : l.Pairwise fun a b => rank a < rank b)
    (hx : ∀ y ∈ l,rank x ≠ rank y) {p : α → Bool} (hp : ∀ y,p y = decide (rank y < rank x)) :
    (l.insertIdx (l.takeWhile p).length x).Pairwise fun a b => rank a < rank b := by
  induction l with
  | nil => simp
  | cons y l ih =>
    rw [List.pairwise_cons] at hl
    rw [List.forall_mem_cons] at hx
    by_cases hlt : rank y < rank x
    · have hpy : p y = true := by simp [hp,hlt]
      rw [List.takeWhile_cons_of_pos hpy,List.length_cons,List.insertIdx_succ_cons]
      refine List.pairwise_cons.mpr ⟨fun z hz => ?_,ih hl.2 hx.2⟩
      rcases List.eq_or_mem_of_mem_insertIdx hz with rfl | hz
      · exact hlt
      · exact hl.1 z hz
    · have hpy : ¬p y = true := by simp [hp,hlt]
      have hxy : rank x < rank y := lt_of_le_of_ne (not_lt.mp hlt) hx.1
      rw [List.takeWhile_cons_of_neg hpy,List.length_nil,List.insertIdx_zero]
      refine List.pairwise_cons.mpr ⟨fun z hz => ?_,List.pairwise_cons.mpr hl⟩
      rcases List.mem_cons.mp hz with rfl | hz
      · exact hxy
      · exact hxy.trans (hl.1 z hz)

/-- The entries before an index have smaller ranks than the entry there, those from it on have
not. -/
lemma around_index (hl : l.Pairwise fun a b => rank a < rank b) {i : ℕ} (hx : l[i]? = some x) :
    (∀ y ∈ l.take i,rank y < rank x) ∧ ∀ y ∈ l.drop i,rank x ≤ rank y := by
  obtain ⟨hi,rfl⟩ := List.getElem?_eq_some_iff.mp hx
  have hdrop := List.drop_eq_getElem_cons hi
  rw [← List.take_append_drop i l,List.pairwise_append,hdrop,List.pairwise_cons] at hl
  obtain ⟨-,⟨hbehind,-⟩,hbefore⟩ := hl
  refine ⟨fun y hy => hbefore y hy l[i] List.mem_cons_self,fun y hy => ?_⟩
  rw [hdrop] at hy
  rcases List.mem_cons.mp hy with rfl | hy
  · exact le_rfl
  · exact (hbehind y hy).le

lemma mem_take_or_drop (l : List α) (i : ℕ) (y : α) : y ∈ l ↔ y ∈ l.take i ∨ y ∈ l.drop i := by
  rw [← List.mem_append,List.take_append_drop]

lemma mem_take_iff (hl : l.Pairwise fun a b => rank a < rank b) {i : ℕ} (hx : l[i]? = some x) :
    y ∈ l.take i ↔ y ∈ l ∧ rank y < rank x := by
  obtain ⟨hbefore,hbehind⟩ := around_index rank hl hx
  constructor
  · exact fun hy => ⟨List.mem_of_mem_take hy,hbefore y hy⟩
  · rintro ⟨hy,hlt⟩
    exact ((mem_take_or_drop l i y).mp hy).resolve_right fun hy => (hbehind y hy).not_gt hlt

lemma mem_drop_iff (hl : l.Pairwise fun a b => rank a < rank b) {i : ℕ} (hx : l[i]? = some x) :
    y ∈ l.drop i ↔ y ∈ l ∧ rank x ≤ rank y := by
  obtain ⟨hbefore,hbehind⟩ := around_index rank hl hx
  constructor
  · exact fun hy => ⟨List.mem_of_mem_drop hy,hbehind y hy⟩
  · rintro ⟨hy,hle⟩
    exact ((mem_take_or_drop l i y).mp hy).resolve_left fun hy => hle.not_gt (hbefore y hy)

end Ascending

section Descending
variable {N α : Type*} [Preorder α] {f g : N → α} {xs ys l : List N} {c v : N}

def Descending (f : N → α) (l : List N) : Prop := l.Pairwise fun p q => f q ≤ f p

namespace Descending

lemma sublist (h : Descending f l) (hs : List.Sublist xs l) : Descending f xs :=
  List.Pairwise.sublist hs h

/-- New ranks that keep the order of the old ones. -/
lemma rerank (h : Descending f l) (hg : ∀ p ∈ l, ∀ q ∈ l, f q ≤ f p → g q ≤ g p) :
    Descending g l := List.Pairwise.imp_of_mem (fun hp hq hpq => hg _ hp _ hq hpq) h

lemma congr (h : Descending f l) (hg : ∀ p ∈ l, g p = f p) : Descending g l :=
  h.rerank fun p hp q hq hpq => by rwa [hg p hp,hg q hq]

/-- A node may stand behind nodes of at least its rank and before one of at most its rank. -/
theorem place (h : Descending f (xs ++ ys)) (ha : ∀ p ∈ xs, f c ≤ f p)
    (hb : ∀ p ∈ ys.head?, f p ≤ f c) : Descending f (xs ++ c :: ys) := by
  obtain ⟨hxs,hys,hxy⟩ := List.pairwise_append.mp h
  have hbelow : ∀ q ∈ ys, f q ≤ f c := by
    cases ys with
    | nil => simp
    | cons y ys =>
      have hy : f y ≤ f c := hb y rfl
      intro q hq
      rcases List.mem_cons.mp hq with rfl | hq
      · exact hy
      · exact le_trans ((List.pairwise_cons.mp hys).1 q hq) hy
  refine List.pairwise_append.mpr ⟨hxs,List.pairwise_cons.mpr ⟨hbelow,hys⟩,?_⟩
  intro p hp q hq
  rcases List.mem_cons.mp hq with rfl | hq
  · exact ha p hp
  · exact hxy p hp q hq

/-- The last node has the least rank. -/
lemma last_le (h : Descending f (l ++ [v])) : ∀ q ∈ l ++ [v], f v ≤ f q := by
  intro q hq
  rcases List.mem_append.mp hq with hq | hq
  · exact (List.pairwise_append.mp h).2.2 q hq v (by simp)
  · rw [List.mem_singleton.mp hq]

end Descending

end Descending

end ElasticTranslations.Structures
