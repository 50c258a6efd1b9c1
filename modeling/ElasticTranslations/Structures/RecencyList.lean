import Mathlib.Data.List.Basic

/-! Recency lists: a plain list of keys with their values, most recently used first. A lookup
that succeeds moves its entry to the front, an insertion into a full list drops the last
entry. The second part relates such a list to a sequence of nodes that carry the entries. -/
namespace ElasticTranslations.Structures

abbrev RecencyList (K V : Type*) := List (K × V)

namespace RecencyList
variable {K V N : Type*} [DecidableEq K]

/-- The value stored under a key. -/
def value (l : RecencyList K V) (k : K) : Option V := (l.find? fun e => e.1 = k).map Prod.snd

/-- The list without the entry of a key. -/
def remove (l : RecencyList K V) (k : K) : RecencyList K V := l.eraseP fun e => e.1 = k

/-- The entry of a key, with a new value, moves to the front. -/
def renew (l : RecencyList K V) (k : K) (v : V) : RecencyList K V := (k,v) :: l.remove k

/-- The entry that an insertion drops when at most `n` entries may stay. -/
def dropped (n : ℕ) (l : RecencyList K V) : Option (K × V) :=
  if l.length < n then none else l.getLast?

/-- Insertion into a list of at most `n` entries. -/
def push (n : ℕ) (l : RecencyList K V) (k : K) (v : V) : RecencyList K V :=
  (k,v) :: if l.length < n then l else l.dropLast

section Nodes
variable {order : List N} {entry entry' : N → K × V} {c : N}

lemma value_of_not_mem {k : K} (h : ∀ p ∈ order, (entry p).1 ≠ k) :
    value (order.map entry) k = none := by
  simpa [value] using h

lemma value_of_mem (hc : c ∈ order) (h : ∀ p ∈ order, (entry p).1 = (entry c).1 → p = c) :
    value (order.map entry) (entry c).1 = some (entry c).2 := by
  induction order with
  | nil => simp at hc
  | cons q order ih =>
    by_cases hq : (entry q).1 = (entry c).1
    · obtain rfl := h q (by simp) hq
      simp [value]
    · have hqc : c ≠ q := fun he => hq (by rw [he])
      have := ih (by simpa [hqc] using hc) fun p hp => h p (by simp [hp])
      simpa [value,hq] using this

lemma remove_map [DecidableEq N] (h : ∀ p ∈ order, (entry p).1 = (entry c).1 → p = c) :
    remove (order.map entry) (entry c).1 = (order.erase c).map entry := by
  induction order with
  | nil => rfl
  | cons q order ih =>
    by_cases hq : q = c
    · subst hq
      simp [remove]
    · have hne : (entry q).1 ≠ (entry c).1 := fun he => hq (h q (by simp) he)
      have := ih fun p hp => h p (by simp [hp])
      rw [List.erase_cons_tail (by simpa using hq),List.map_cons,List.map_cons,← this]
      simp [remove,hne]

/-- A node that is put in front and rewritten, when the other entries stay. -/
lemma renew_map [DecidableEq N] {v : V} (hnd : order.Nodup)
    (h : ∀ p ∈ order, (entry p).1 = (entry c).1 → p = c) (hc : entry' c = ((entry c).1,v))
    (ho : ∀ p ∈ order, p ≠ c → entry' p = entry p) :
    renew (order.map entry) (entry c).1 v = (c :: order.erase c).map entry' := by
  rw [renew,remove_map h,List.map_cons,hc]
  congr 1
  apply List.map_congr_left
  intro p hp
  obtain ⟨hpc,hpo⟩ := (hnd.mem_erase_iff).mp hp
  exact (ho p hpo hpc).symm

end Nodes
end RecencyList
end ElasticTranslations.Structures
