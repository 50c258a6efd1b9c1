import ElasticTranslations.Pcc.SetRuns

/-! A hit takes its line off the list and relies on the policy to put it back. Policies 0 and
2 do; policy 1 forgets the line when it was not hit often enough. -/
namespace ElasticTranslations.Pcc
open Structures

namespace CacheSet
variable {associativity policy : ℕ} {cs cs' : CacheSet associativity policy}
  {order : List LinePtr}

/-- A lookup of a resident tag returns true and leaves the same lines linked, with their
tags. -/
def HitKeepsLines (cs : CacheSet associativity policy) : SetOp → Prop
  | .access t offset isLoad => cs.find t ≠ none →
      ∃ cs', cs.access t offset isLoad = .ok (true,cs') ∧ cs'.linked.Perm cs.linked ∧
        ∀ p, (cs'.lines p).addr = (cs.lines p).addr
  | _ => True

/-- Linked and free lines share out the line objects, the links agree from the head to the
tail, and the next operation works. -/
structure Consistent (cs : CacheSet associativity policy) : Prop where
  intact : cs.Intact
  count : cs.linked.length + cs.freeEntries.length = associativity
  access : ∀ t offset isLoad, ∃ r, cs.access t offset isLoad = .ok r
  insert : ∀ t offset isLoad out, ∃ r, cs.insert t offset isLoad out = .ok r
  evict : ∀ t, cs.find t ≠ none → ∃ r, cs.evict t = .ok r

/-- In a run: at every hit, and in every state reached. -/
def HitsKeepLines (associativity policy : ℕ) (ops : List SetOp) : Prop :=
  EachStep record (start associativity policy) ops (fun _ s op => s.2.HitKeepsLines op) ∧
    Reached record (start associativity policy) ops fun _ s => s.2.Consistent

lemma decayAtMax_links (hth : cs.links.Threads (LinePtr.head :: order ++ [LinePtr.tail]))
    (hnd : (LinePtr.head :: order ++ [LinePtr.tail]).Nodup) (hl : order.length ≤ associativity)
    (c : LinePtr) : ∃ cs', cs.decayAtMax c = .ok cs' ∧ cs'.links = cs.links := by
  by_cases hd : (cs.lines c).freq = maxFreq
  · have ht : LinePtr.tail ∉ order := by
      simp only [List.cons_append,List.nodup_cons,List.nodup_append,List.mem_append] at hnd
      grind
    obtain ⟨cs',hr,-,-,hlinks,-⟩ := decayLoop_spec order (associativity+1) cs hth
      (hnd.sublist (List.sublist_append_left _ _)) ht (by omega)
    exact ⟨cs',by simpa [decayAtMax,hd,decayFreqs] using hr,hlinks⟩
  · exact ⟨cs,by simp [decayAtMax,hd],rfl⟩

/-- Policy 1 drops the line of a hit whose frequency is below half of the associativity. -/
theorem access_drop {cs : CacheSet associativity 1} (h : cs.Represents order) {t : UInt64}
    {c : LinePtr} (hc : cs.find t = some c) (hlow : (cs.lines c).freq < associativity/2)
    (offset : UInt64) (isLoad : Bool) :
    ∃ cs', cs.access t offset isLoad = .ok (true,cs') ∧ cs'.linked = order.erase c := by
  have hco : c ∈ order := (h.indexed t c hc).1
  have h₀ := h.touch t
  obtain ⟨cs₁,hr₁,hrel,hth⟩ := deleteNode_order _ h₀.threads h₀.nodes_nodup hco
  have hlen : (order.erase c).length ≤ associativity := by
    have hcount := h.count
    have := List.length_erase_le (a := c) (l := order)
    omega
  have hnodup : (LinePtr.head :: order.erase c ++ [LinePtr.tail]).Nodup :=
    h.nodes_nodup.sublist ((List.erase_sublist.cons_cons _).append (List.Sublist.refl _))
  have hrelink : cs₁.relink c = .ok cs₁ := by
    have hf : (cs₁.lines c).freq < associativity/2 := by
      rw [hrel.freq]
      simpa using hlow
    simp [relink,Nat.not_le.mpr hf]
  have hth₂ : (cs₁.recordHit c offset isLoad).links.Threads
      (LinePtr.head :: order.erase c ++ [LinePtr.tail]) := by
    rw [recordHit_links]
    exact hth
  obtain ⟨cs',hr',hlinks⟩ := decayAtMax_links hth₂ hnodup hlen c
  refine ⟨cs',by simp only [access,find_touch,hc,hr₁,hrelink,hr',ok_bind,pure_ok],?_⟩
  apply Links.Threads.walk_eq (order.erase c) .head associativity (hlinks ▸ hth₂) _ hlen
  exact fun hm => (h.not_sentinel (List.mem_of_mem_erase hm)).2 rfl

lemma evict_absent {t : UInt64} (h : cs.find t = none) :
    cs.evict t = .error .nullDereference := by
  simp only [evict,find_touch,h]
  rfl

lemma relinks_or_low (cs : CacheSet associativity policy) (t offset : UInt64) (isLoad : Bool) :
    cs.Relinks (.access t offset isLoad) ∨
      policy = 1 ∧ ∃ c, cs.find t = some c ∧ (cs.lines c).freq < associativity/2 := by
  by_cases h : cs.Relinks (.access t offset isLoad)
  · exact Or.inl h
  · simp only [Relinks] at h
    push Not at h
    exact Or.inr h

/-- Whatever the next operation does, it does it on a list that is in order. -/
lemma Sane.consistent (h : cs.Sane) (hpol : policy ≤ 2) (hassoc : 0 < associativity) :
    cs.Consistent where
  intact := h.intact
  count := h.intact.count
  access t offset isLoad := by
    rcases cs.relinks_or_low t offset isLoad with hrel | ⟨rfl,c,hc,hlow⟩
    · obtain ⟨cs',hr,-⟩ := access_contents hpol h.intact t offset isLoad hrel
      exact ⟨_,hr⟩
    · obtain ⟨cs',hr,-⟩ := access_drop h.intact hc hlow offset isLoad
      exact ⟨_,hr⟩
  insert t offset isLoad out := by
    obtain ⟨cs',c,out',hr,-⟩ := insert_contents hpol hassoc h.intact t offset isLoad out
    exact ⟨_,hr⟩
  evict t ht := by
    obtain ⟨c,hc⟩ := Option.ne_none_iff_exists'.mp ht
    obtain ⟨cs',hr,-⟩ := evict_contents h.intact hc
    exact ⟨_,hr⟩

/-- A hit that links its line again keeps the lines. -/
lemma Sane.hitKeepsLines (h : cs.Sane) (hpol : policy ≤ 2) {op : SetOp} (hrel : cs.Relinks op) :
    cs.HitKeepsLines op := by
  cases op with
  | access t offset isLoad =>
    intro ht
    obtain ⟨c,hc⟩ := Option.ne_none_iff_exists'.mp ht
    obtain ⟨cs',hr,hs,-⟩ := access_contents hpol h.intact t offset isLoad hrel
    exact ⟨cs',by simpa [hc] using hr,hs.linked,hs.addr⟩
  | insert t offset isLoad out => trivial
  | evict t => trivial
  | flush => trivial

/-- A hit that does not link its line again loses it. -/
lemma Sane.not_hitKeepsLines (h : cs.Sane) {op : SetOp} (hrel : ¬ cs.Relinks op) :
    ¬ cs.HitKeepsLines op := by
  cases op with
  | access t offset isLoad =>
    obtain ⟨rfl,c,hc,hlow⟩ := (cs.relinks_or_low t offset isLoad).resolve_left hrel
    obtain ⟨cs',hr,hlinked⟩ := access_drop h.intact hc hlow offset isLoad
    intro hkeep
    obtain ⟨cs'',hr',hperm,-⟩ := hkeep (by simp [hc])
    obtain rfl : cs' = cs'' := by simpa [hr] using hr'
    have hmem : c ∈ cs.linked := (h.intact.indexed t c hc).1
    rw [← hperm.mem_iff,hlinked] at hmem
    exact h.intact.order_nodup.not_mem_erase hmem
  | insert t offset isLoad out => exact absurd trivial hrel
  | evict t => exact absurd trivial hrel
  | flush => exact absurd trivial hrel

/-- The step lemma of a run that inserts absent tags only; an eviction of an absent tag stops
the run. -/
lemma Sane.record (hpol : policy ≤ 2) (hassoc : 0 < associativity)
    {s s' : List SetAnswer × CacheSet associativity policy} (h : s.2.Sane) {op : SetOp}
    (hins : s.2.InsertsAbsent op) (hrel : s.2.Relinks op) (hr : CacheSet.record s op = .ok s') :
    s'.2.Sane := by
  obtain ⟨answer,hp,-⟩ := record_ok hr
  have hev : s.2.EvictsResident op := by
    cases op with
    | evict t =>
      intro ht
      rw [CacheSet.perform,evict_absent ht] at hp
      cases hp
    | access t offset isLoad => trivial
    | insert t offset isLoad out => trivial
    | flush => trivial
  obtain ⟨answer',cs',hp',hs'⟩ := h.perform hpol hassoc ⟨hins,hev⟩ hrel
  obtain ⟨-,rfl⟩ : _ ∧ cs' = s'.2 := by simpa [hp] using hp'.symm
  exact hs'

/-- Hits keep the lines along a run exactly when they link their line again. -/
lemma eachStep_hitKeepsLines (hpol : policy ≤ 2) (hassoc : 0 < associativity) {ops : List SetOp}
    (hins : EachStep record (start associativity policy) ops fun _ s op => s.2.InsertsAbsent op) :
    EachStep record (start associativity policy) ops (fun _ s op => s.2.HitKeepsLines op) ↔
      EachStep record (start associativity policy) ops fun _ s op => s.2.Relinks op := by
  have hiff : EachStep record (start associativity policy) ops
      (fun _ s op => s.2.InsertsAbsent op ∧ s.2.HitKeepsLines op) ↔
      EachStep record (start associativity policy) ops
        fun _ s op => s.2.InsertsAbsent op ∧ s.2.Relinks op := by
    apply eachStep_iff (I := fun _ s => s.2.Sane) new_sane
    · intro _ s op h hc
      exact ⟨⟨hc.1,h.hitKeepsLines hpol hc.2⟩,fun s' hr => h.record hpol hassoc hc.1 hc.2 hr⟩
    · intro _ s op h hc hq
      exact h.not_hitKeepsLines (fun hrel => hc ⟨hq.1,hrel⟩) hq.2
  exact ⟨fun h => (hiff.mp (hins.and h)).mono fun _ _ _ h => h.2,
    fun h => (hiff.mpr (hins.and h)).mono fun _ _ _ h => h.2⟩

/-- In a run that inserts absent tags only, no hit loses a line and every state is consistent
exactly when no hit under policy 1 is on a line with a frequency below half of the
associativity. -/
theorem hitsKeepLines_iff (associativity policy : ℕ) (hassoc : 0 < associativity)
    (hpol : policy ≤ 2) (ops : List SetOp)
    (hins : EachStep record (start associativity policy) ops fun _ s op => s.2.InsertsAbsent op) :
    HitsKeepLines associativity policy ops ↔
      EachStep record (start associativity policy) ops fun _ s op => s.2.Relinks op := by
  refine ⟨fun h => (eachStep_hitKeepsLines hpol hassoc hins).mp h.1,fun h => ⟨?_,?_⟩⟩
  · exact (eachStep_hitKeepsLines hpol hassoc hins).mpr h
  · intro pre hp s hs
    have hsane := Reached.of_steps (I := fun _ s => s.2.Sane) new_sane
      (fun _ s op h hc s' hr => h.record hpol hassoc hc.1 hc.2 hr) (hins.and h) pre hp s hs
    exact hsane.consistent hpol hassoc

/-- An insertion and a hit on the new line. -/
def insertThenHit : List SetOp := [.insert 1 10 true {},.access 1 11 true]

lemma insertThenHit_insertsAbsent :
    EachStep record (start 2 1) insertThenHit fun _ s op => s.2.InsertsAbsent op := by
  refine EachStep.mono (fun _ _ _ h => And.left h) (admissible_of_stepsMeet ?_)
  decide +kernel

theorem hitsKeepLines_iff_insertThenHit :
    EachStep record (start 2 1) insertThenHit (fun _ s op => s.2.InsertsAbsent op) ∧
      (HitsKeepLines 2 1 insertThenHit ↔
        EachStep record (start 2 1) insertThenHit fun _ s op => s.2.Relinks op) := by
  have hins := insertThenHit_insertsAbsent
  exact ⟨hins,hitsKeepLines_iff 2 1 (by decide) (by decide) _ hins⟩

/-- Under policy 1 the hit loses the line in a set of two ways. -/
theorem not_hitsKeepLines_after_two :
    ¬ ∀ associativity policy ops, 0 < associativity → policy ≤ 2 →
      EachStep record (start associativity policy) ops (fun _ s op => s.2.InsertsAbsent op) →
      HitsKeepLines associativity policy ops := by
  intro h
  have hins := insertThenHit_insertsAbsent
  have hkeep := (h 2 1 insertThenHit (by decide) (by decide) hins).1
  have hrel := (eachStep_hitKeepsLines (by decide) (by decide) hins).mp hkeep
  obtain ⟨s,hs,hlow⟩ := exists_of_endsWith record (start 2 1) [.insert 1 10 true {}]
    (fun s => decide (s.2.find 1 = some (.entry 1)) && decide ((s.2.lines (.entry 1)).freq = 0))
    (by decide +kernel)
  simp only [Bool.and_eq_true,decide_eq_true_eq] at hlow
  have := hrel [.insert 1 10 true {}] (.access 1 11 true) (List.prefix_refl _) s hs rfl _ hlow.1
  rw [hlow.2] at this
  exact absurd this (by decide)

end CacheSet
end ElasticTranslations.Pcc
