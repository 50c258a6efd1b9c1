import Mathlib.Logic.Relation
import Mathlib.Data.Finset.Card
import Mathlib.Data.Finset.Range
import Mathlib.Order.Nat

/-! The levels around a source: how many edges of a relation its elements are away from it. A
breadth-first search finds one level after the other, and leaves a tree of shortest walks. -/
namespace ElasticTranslations.Structures
open Relation
variable {α : Type*}

/-- A walk of `d` edges leads from `s` to `v`. -/
inductive Walk (E : α → α → Prop) (s : α) : ℕ → α → Prop
  | start : Walk E s 0 s
  | step {d : ℕ} {u v : α} : Walk E s d u → E u v → Walk E s (d+1) v

/-- The shortest walks from `s` to `v` have `d` edges. -/
def AtLevel (E : α → α → Prop) (s : α) (d : ℕ) (v : α) : Prop :=
  Walk E s d v ∧ ∀ e < d,¬Walk E s e v

def Within (E : α → α → Prop) (s : α) (d : ℕ) (v : α) : Prop := ∃ e ≤ d,AtLevel E s e v

section Levels
variable {E : α → α → Prop} {s u v : α} {d e : ℕ}

lemma reaches_iff_walk : ReflTransGen E s v ↔ ∃ d,Walk E s d v := by
  constructor
  · intro h
    induction h with
    | refl => exact ⟨0,.start⟩
    | tail _ hedge ih =>
      obtain ⟨d,hd⟩ := ih
      exact ⟨d+1,.step hd hedge⟩
  · rintro ⟨d,h⟩
    induction h with
    | start => exact .refl
    | step _ hedge ih => exact ih.tail hedge

lemma Walk.within (h : Walk E s d v) : Within E s d v := by
  induction d using Nat.strong_induction_on generalizing v with
  | _ d ih =>
    by_cases hshort : ∃ e < d,Walk E s e v
    · obtain ⟨e,he,hwalk⟩ := hshort
      obtain ⟨k,hk,hlevel⟩ := ih e he hwalk
      exact ⟨k,by omega,hlevel⟩
    · exact ⟨d,le_rfl,h,fun e he hwalk => hshort ⟨e,he,hwalk⟩⟩

lemma reaches_iff_atLevel : ReflTransGen E s v ↔ ∃ d,AtLevel E s d v := by
  rw [reaches_iff_walk]
  constructor
  · rintro ⟨d,h⟩
    obtain ⟨e,-,he⟩ := h.within
    exact ⟨e,he⟩
  · rintro ⟨d,h⟩
    exact ⟨d,h.1⟩

lemma Within.mono (h : Within E s d v) (hde : d ≤ e) : Within E s e v := by
  obtain ⟨k,hk,hlevel⟩ := h
  exact ⟨k,hk.trans hde,hlevel⟩

namespace AtLevel

lemma start : AtLevel E s 0 s := ⟨.start,fun _ h => absurd h (Nat.not_lt_zero _)⟩

lemma within (h : AtLevel E s d v) : Within E s d v := ⟨d,le_rfl,h⟩

lemma unique (hd : AtLevel E s d v) (he : AtLevel E s e v) : d = e := by
  rcases lt_trichotomy d e with hlt | heq | hlt
  · exact absurd hd.1 (he.2 d hlt)
  · exact heq
  · exact absurd he.1 (hd.2 e hlt)

lemma not_within (h : AtLevel E s d v) (he : e < d) : ¬Within E s e v := by
  rintro ⟨k,hk,hlevel⟩
  have := h.unique hlevel
  omega

lemma edge (h : AtLevel E s d u) (hedge : E u v) : Within E s (d+1) v := (h.1.step hedge).within

lemma exists_pred (h : AtLevel E s (d+1) v) : ∃ u,AtLevel E s d u ∧ E u v := by
  obtain ⟨hwalk,hshort⟩ := h
  cases hwalk with
  | @step _ u _ hu hedge =>
    refine ⟨u,⟨hu,fun e he hwalk => ?_⟩,hedge⟩
    exact hshort (e+1) (by omega) (.step hwalk hedge)

end AtLevel

lemma atLevel_zero_iff : AtLevel E s 0 v ↔ v = s := by
  constructor
  · rintro ⟨hwalk,-⟩
    cases hwalk
    rfl
  · rintro rfl
    exact .start

lemma atLevel_succ_iff :
    AtLevel E s (d+1) v ↔ ¬Within E s d v ∧ ∃ u,AtLevel E s d u ∧ E u v := by
  constructor
  · intro h
    exact ⟨h.not_within (Nat.lt_succ_self d),h.exists_pred⟩
  · rintro ⟨hnot,u,hu,hedge⟩
    obtain ⟨e,he,hlevel⟩ := hu.edge hedge
    obtain rfl | hlt := Nat.eq_or_lt_of_le he
    · exact hlevel
    · exact absurd ⟨e,by omega,hlevel⟩ hnot

lemma within_zero_iff : Within E s 0 v ↔ v = s := by
  rw [← atLevel_zero_iff (E := E)]
  constructor
  · rintro ⟨e,he,h⟩
    rwa [Nat.le_zero.mp he] at h
  · exact AtLevel.within

lemma within_succ_iff : Within E s (d+1) v ↔ Within E s d v ∨ AtLevel E s (d+1) v := by
  constructor
  · rintro ⟨e,he,h⟩
    obtain rfl | hlt := Nat.eq_or_lt_of_le he
    · exact .inr h
    · exact .inl ⟨e,by omega,h⟩
  · rintro (h | h)
    · exact h.mono (Nat.le_succ d)
    · exact h.within

/-- No level behind an empty one has any elements. -/
lemma AtLevel.lt_of_empty (h : AtLevel E s e v) (hempty : ∀ u,¬AtLevel E s d u) : e < d := by
  by_contra hge
  obtain ⟨k,rfl⟩ := Nat.exists_eq_add_of_le (Nat.le_of_not_lt hge)
  clear hge
  induction k generalizing v with
  | zero => exact hempty v h
  | succ k ih =>
    obtain ⟨u,hu,-⟩ := h.exists_pred
    exact ih hu

/-- There are fewer levels in front of an element than there are elements. -/
lemma AtLevel.lt_card {S : Finset α} (h : AtLevel E s d v)
    (hS : ∀ e u,AtLevel E s e u → u ∈ S) : d < S.card := by
  have hex : ∀ e ≤ d,∃ u,AtLevel E s e u := by
    intro e he
    by_contra hempty
    have := h.lt_of_empty (not_exists.mp hempty)
    omega
  have : Nonempty α := ⟨s⟩
  choose! f hf using hex
  have hcard : (Finset.range (d+1)).card ≤ S.card := by
    apply Finset.card_le_card_of_injOn f
    · intro e he
      have he : e < d+1 := by simpa using he
      exact hS e (f e) (hf e (by omega))
    · intro a ha b hb hab
      have ha : a < d+1 := by simpa using ha
      have hb : b < d+1 := by simpa using hb
      apply (hf a (by omega)).unique
      rw [hab]
      exact hf b (by omega)
  rw [Finset.card_range] at hcard
  omega

end Levels

/-- Every element that a walk from `s` reaches has a parent one level above it, `s` itself. -/
structure SearchTree (E : α → α → Prop) (s : α) (parent : α → Option α) : Prop where
  root : parent s = some s
  reached : ∀ v,(parent v).isSome ↔ ReflTransGen E s v
  up : ∀ u v,parent v = some u → v ≠ s → E u v ∧ ∃ d,AtLevel E s d u ∧ AtLevel E s (d+1) v

/-- The search has found the levels up to `d`. -/
structure Explored (E : α → α → Prop) (s : α) (d : ℕ) (parent : α → Option α) : Prop where
  root : parent s = some s
  reached : ∀ v,(parent v).isSome ↔ Within E s d v
  up : ∀ u v,parent v = some u → v ≠ s → E u v ∧ ∃ d,AtLevel E s d u ∧ AtLevel E s (d+1) v

/-- `found` gives parents to all the elements without one that have an edge from a marked one. -/
structure Expands (E : α → α → Prop) (marked : α → Prop) (parent found : α → Option α) : Prop where
  old : ∀ v,(parent v).isSome → found v = parent v
  edge : ∀ u v,parent v = none → found v = some u → marked u ∧ E u v
  all : ∀ u v,parent v = none → marked u → E u v → (found v).isSome

namespace Explored
variable {E : α → α → Prop} {s : α} {d : ℕ} {parent found : α → Option α} {marked : α → Prop}

lemma start (hroot : parent s = some s) (hnone : ∀ v,v ≠ s → parent v = none) :
    Explored E s 0 parent where
  root := hroot
  reached v := by
    rw [within_zero_iff]
    by_cases hv : v = s
    · simp [hv,hroot]
    · simp [hv,hnone v hv]
  up u v huv hv := by
    rw [hnone v hv] at huv
    cases huv

lemma none_iff (h : Explored E s d parent) (v : α) : parent v = none ↔ ¬Within E s d v := by
  rw [← h.reached v,Option.not_isSome_iff_eq_none]

/-- The marked elements may be more than those of the last level, as long as they are visited. -/
lemma mem_level (h : Explored E s d parent) (hwithin : ∀ u,marked u → Within E s d u) {u v : α}
    (hv : parent v = none) (hu : marked u) (hedge : E u v) : AtLevel E s d u := by
  obtain ⟨e,he,hlevel⟩ := hwithin u hu
  obtain rfl | hlt := Nat.eq_or_lt_of_le he
  · exact hlevel
  · have := (hlevel.edge hedge).mono hlt
    exact absurd this ((h.none_iff v).mp hv)

lemma new_iff (h : Explored E s d parent) (hlevel : ∀ u,AtLevel E s d u → marked u)
    (hwithin : ∀ u,marked u → Within E s d u) (hf : Expands E marked parent found) (v : α) :
    parent v = none ∧ (found v).isSome ↔ AtLevel E s (d+1) v := by
  rw [atLevel_succ_iff,h.none_iff]
  constructor
  · rintro ⟨hnot,hsome⟩
    obtain ⟨u,hu⟩ := Option.isSome_iff_exists.mp hsome
    obtain ⟨hmark,hedge⟩ := hf.edge u v ((h.none_iff v).mpr hnot) hu
    exact ⟨hnot,u,h.mem_level hwithin ((h.none_iff v).mpr hnot) hmark hedge,hedge⟩
  · rintro ⟨hnot,u,hu,hedge⟩
    exact ⟨hnot,hf.all u v ((h.none_iff v).mpr hnot) (hlevel u hu) hedge⟩

lemma step (h : Explored E s d parent) (hlevel : ∀ u,AtLevel E s d u → marked u)
    (hwithin : ∀ u,marked u → Within E s d u) (hf : Expands E marked parent found) :
    Explored E s (d+1) found where
  root := by rw [hf.old s (by simp [h.root]),h.root]
  reached v := by
    rw [within_succ_iff,← h.new_iff hlevel hwithin hf,← h.reached]
    cases hv : parent v with
    | none => simp
    | some u => simp [hf.old v (by simp [hv]),hv]
  up u v huv hvs := by
    cases hv : parent v with
    | none =>
      obtain ⟨hmark,hedge⟩ := hf.edge u v hv huv
      have hnew := (h.new_iff hlevel hwithin hf v).mp ⟨hv,by simp [huv]⟩
      exact ⟨hedge,d,h.mem_level hwithin hv hmark hedge,hnew⟩
    | some w =>
      rw [hf.old v (by simp [hv])] at huv
      exact h.up u v huv hvs

/-- The search is over when a level is empty. -/
lemma finish (h : Explored E s d parent) (hempty : ∀ v,¬AtLevel E s d v) :
    SearchTree E s parent where
  root := h.root
  reached v := by
    rw [h.reached,reaches_iff_atLevel]
    constructor
    · rintro ⟨e,-,he⟩
      exact ⟨e,he⟩
    · rintro ⟨e,he⟩
      exact ⟨e,(he.lt_of_empty hempty).le,he⟩
  up := h.up

end Explored

end ElasticTranslations.Structures
