import Mathlib.Data.List.Chain
import Mathlib.Data.List.Nodup
import Mathlib.Logic.Function.Basic

/-! Intrusive doubly linked lists over an arbitrary type of nodes. A list is given by its
nodes in order, sentinels included; the two edits are taking a node out and linking a
fresh node between two neighbours. -/
namespace ElasticTranslations.Structures

/-- The two link fields of every node. A missing link is a null pointer. -/
structure Links (N : Type*) where
  next : N → Option N
  prev : N → Option N

namespace Links
variable {N : Type*}

/-- Two neighbours see each other. -/
def Joined (L : Links N) (a b : N) : Prop := L.next a = some b ∧ L.prev b = some a

/-- Consecutive nodes are joined, from the first node to the last. -/
def Threads (L : Links N) (l : List N) : Prop := l.IsChain L.Joined

/-- The nodes met when following `next` from `p` up to the node `stop`. -/
def walk [DecidableEq N] (L : Links N) (stop : N) : ℕ → Option N → List N
  | 0,_ => []
  | _+1,none => []
  | n+1,some p => if p = stop then [] else p :: L.walk stop n (L.next p)

lemma Threads.next_eq {L : Links N} {a b : N} {l : List N} (h : L.Threads (a :: b :: l)) :
    L.next a = some b := (List.isChain_cons_cons.mp h).1.1

lemma Threads.tail {L : Links N} {a : N} {l : List N} (h : L.Threads (a :: l)) :
    L.Threads l := List.IsChain.tail h

lemma Threads.around {L : Links N} {xs ys : List N} {a c b : N}
    (h : L.Threads (xs ++ a :: c :: b :: ys)) :
    L.prev c = some a ∧ L.next c = some b := by
  have h' := List.IsChain.right_of_append h
  exact ⟨(List.isChain_cons_cons.mp h').1.2,(Threads.tail h').next_eq⟩

/-- A list falls apart at two neighbours; the seam is the pair itself. -/
lemma threads_seam {L : Links N} {xs ys : List N} {a b : N} :
    L.Threads (xs ++ a :: b :: ys) ↔
      L.Threads (xs ++ [a]) ∧ L.Joined a b ∧ L.Threads (b :: ys) :=
  List.isChain_append_cons_cons

/-- A list reads `next` of all its nodes but the last and `prev` of all but the first. -/
lemma Threads.congr {L L' : Links N} {l : List N} (h : L.Threads l)
    (hn : ∀ x ∈ l.dropLast, L'.next x = L.next x)
    (hp : ∀ x ∈ l.tail, L'.prev x = L.prev x) :
    L'.Threads l := by
  induction l with
  | nil => exact List.isChain_nil
  | cons a l ih =>
    cases l with
    | nil => exact List.isChain_singleton a
    | cons b l =>
      obtain ⟨hab,hl⟩ := List.isChain_cons_cons.mp h
      refine List.isChain_cons_cons.mpr ⟨⟨?_,?_⟩,ih hl ?_ ?_⟩
      · exact (hn a (by simp)).trans hab.1
      · exact (hp b (by simp)).trans hab.2
      · intro x hx; exact hn x (by simp [hx])
      · intro x hx; exact hp x (List.mem_of_mem_tail hx)

/-- Walking from the node after the first one meets exactly the inner nodes. -/
lemma Threads.walk_eq [DecidableEq N] {L : Links N} {stop : N} (l : List N) (a : N) (n : ℕ)
    (h : L.Threads (a :: l ++ [stop])) (hs : stop ∉ l) (hn : l.length ≤ n) :
    L.walk stop n (L.next a) = l := by
  induction l generalizing a n with
  | nil =>
    rw [Threads.next_eq h]
    cases n <;> simp [walk]
  | cons b l ih =>
    obtain ⟨hb,hl⟩ := not_or.mp (mt List.mem_cons.mpr hs)
    cases n with
    | zero => simp at hn
    | succ n =>
      rw [Threads.next_eq h]
      simp only [walk,if_neg (Ne.symm hb)]
      rw [ih b n (Threads.tail h) hl (by simpa using hn)]

/-- A node outside the list is linked in front of `b`, after its predecessor `a`. -/
theorem Threads.insert {L L' : Links N} (xs : List N) {ys : List N} {a c b : N}
    (h : L.Threads (xs ++ a :: b :: ys)) (hnd : (xs ++ a :: c :: b :: ys).Nodup)
    (hac : L'.Joined a c) (hcb : L'.Joined c b)
    (hn : ∀ x, x ≠ a → x ≠ c → L'.next x = L.next x)
    (hp : ∀ x, x ≠ b → x ≠ c → L'.prev x = L.prev x) :
    L'.Threads (xs ++ a :: c :: b :: ys) := by
  obtain ⟨hl,-,hr⟩ := threads_seam.mp h
  simp only [List.nodup_append,List.nodup_cons,List.mem_cons] at hnd
  refine threads_seam.mpr ⟨hl.congr ?_ ?_,hac,List.isChain_cons_cons.mpr ⟨hcb,hr.congr ?_ ?_⟩⟩
  · intro x hx
    simp only [List.dropLast_concat] at hx
    exact hn x (by grind) (by grind)
  · intro x hx
    have hx' := List.mem_of_mem_tail hx
    exact hp x (by grind) (by grind)
  · intro x hx
    have hx' := List.dropLast_subset _ hx
    exact hn x (by grind) (by grind)
  · intro x hx
    simp only [List.tail_cons] at hx
    exact hp x (by grind) (by grind)

section Edits
variable [DecidableEq N]

def setNext (L : Links N) (a : N) (v : Option N) : Links N :=
  ⟨Function.update L.next a v,L.prev⟩

def setPrev (L : Links N) (a : N) (v : Option N) : Links N :=
  ⟨L.next,Function.update L.prev a v⟩

@[simp] lemma setNext_next (L : Links N) (a x : N) (v : Option N) :
    (L.setNext a v).next x = if x = a then v else L.next x := by
  simp [setNext,Function.update_apply]
@[simp] lemma setNext_prev (L : Links N) (a x : N) (v : Option N) :
    (L.setNext a v).prev x = L.prev x := rfl
@[simp] lemma setPrev_prev (L : Links N) (a x : N) (v : Option N) :
    (L.setPrev a v).prev x = if x = a then v else L.prev x := by
  simp [setPrev,Function.update_apply]
@[simp] lemma setPrev_next (L : Links N) (a x : N) (v : Option N) :
    (L.setPrev a v).next x = L.next x := rfl

/-- Joining the two neighbours of a node takes the node out of the list. -/
theorem Threads.unlink {L : Links N} {xs ys : List N} {a c b : N}
    (h : L.Threads (xs ++ a :: c :: b :: ys)) (hnd : (xs ++ a :: c :: b :: ys).Nodup) :
    ((L.setNext a (some b)).setPrev b (some a)).Threads (xs ++ a :: b :: ys) := by
  obtain ⟨hl,-,hr⟩ := threads_seam.mp h
  simp only [List.nodup_append,List.nodup_cons,List.mem_cons] at hnd
  refine threads_seam.mpr ⟨hl.congr ?_ ?_,⟨by simp,by simp⟩,hr.tail.congr ?_ ?_⟩
  · intro x hx
    have hxa : x ≠ a := by simp only [List.dropLast_concat] at hx; grind
    simp [hxa]
  · intro x hx
    have hxb : x ≠ b := by have := List.mem_of_mem_tail hx; grind
    simp [hxb]
  · intro x hx
    have hxa : x ≠ a := by have := List.dropLast_subset _ hx; grind
    simp [hxa]
  · intro x hx
    have hxb : x ≠ b := by simp only [List.tail_cons] at hx; grind
    simp [hxb]

end Edits
end Links
end ElasticTranslations.Structures
