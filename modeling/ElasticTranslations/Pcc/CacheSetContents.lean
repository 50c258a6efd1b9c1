import ElasticTranslations.Pcc.CacheSetOperations

/-! Sets without their list order: which lines are linked, which tag finds which line, and
when the map is exact, that is, when every linked line is found under its own tag. -/
namespace ElasticTranslations.Pcc
open Structures

namespace CacheSet
variable {associativity policy : ℕ} {cs cs' cs'' : CacheSet associativity policy}
  {order : List LinePtr}

/-- The set is in order, whatever that order is. -/
def Intact (cs : CacheSet associativity policy) : Prop := cs.Represents cs.linked

lemma Represents.intact (h : cs.Represents order) : cs.Intact := by
  unfold Intact
  rw [h.linked_eq]
  exact h

/-- Every linked line is found under its own tag. -/
def Exact (cs : CacheSet associativity policy) : Prop :=
  ∀ p ∈ cs.linked, cs.find (cs.lines p).addr = some p

lemma new_intact : (new associativity policy).Intact := new_represents.intact

lemma new_linked : (new associativity policy).linked = [] := new_represents.linked_eq

lemma new_exact : (new associativity policy).Exact := by
  intro p hp
  rw [new_linked] at hp
  simp at hp

/-- Tags that two linked lines share are found as one of them only. -/
lemma Exact.addr_injective (h : cs.Exact) {p q : LinePtr} (hp : p ∈ cs.linked)
    (hq : q ∈ cs.linked) (he : (cs.lines p).addr = (cs.lines q).addr) : p = q := by
  have := (h p hp).symm.trans ((congrArg cs.find he).trans (h q hq))
  simpa using this

/-- A lookup may reorder the lines and change their offset, dirty bit and frequency. -/
structure SameContents (cs cs' : CacheSet associativity policy) : Prop where
  intact : cs'.Intact
  find : ∀ u, cs'.find u = cs.find u
  addr : ∀ p, (cs'.lines p).addr = (cs.lines p).addr
  linked : cs'.linked.Perm cs.linked
  freeEntries : cs'.freeEntries = cs.freeEntries

lemma SameContents.refl (h : cs.Intact) : SameContents cs cs :=
  ⟨h,fun _ => rfl,fun _ => rfl,List.Perm.refl _,rfl⟩

lemma SameContents.trans (h : SameContents cs cs') (h' : SameContents cs' cs'') :
    SameContents cs cs'' :=
  ⟨h'.intact,fun u => (h'.find u).trans (h.find u),fun p => (h'.addr p).trans (h.addr p),
    h'.linked.trans h.linked,h'.freeEntries.trans h.freeEntries⟩

lemma SameContents.exact (h : SameContents cs cs') (he : cs.Exact) : cs'.Exact := by
  intro p hp
  rw [h.addr,h.find]
  exact he p (h.linked.mem_iff.mp hp)

theorem access_contents (hpol : policy ≤ 2) (h : cs.Intact) (t offset : UInt64) (isLoad : Bool)
    (hkeep : policy = 1 → ∀ c, cs.find t = some c → associativity/2 ≤ (cs.lines c).freq) :
    ∃ cs', cs.access t offset isLoad = .ok ((cs.find t).isSome,cs') ∧ SameContents cs cs' ∧
      ∀ p, (cs'.lines p).offset = if cs.find t = some p then offset else (cs.lines p).offset := by
  cases hc : cs.find t with
  | none =>
    have ht := Represents.touch t h
    refine ⟨cs.touch t,by simp [access_miss hc],⟨ht.intact,find_touch t,by simp,?_,by simp⟩,
      by simp⟩
    rw [ht.linked_eq]
  | some c =>
    obtain ⟨cs',xs,ys,hr,hxy,-,h',hf,hm,hd⟩ :=
      access_hit hpol h offset isLoad hc fun hp => hkeep hp c hc
    have hco : c ∈ cs.linked := (h.indexed t c hc).1
    refine ⟨cs',hr,⟨h'.intact,hm,fun p => ?_,?_,hf⟩,fun p => ?_⟩
    · have := congrArg LineData.addr (hd p)
      by_cases hp : p = c
      · subst hp
        split_ifs at this <;> simpa [hitData,LineData.decayed,CacheLine.data] using this
      · split_ifs at this <;> simpa [hitData,LineData.decayed,CacheLine.data,hp] using this
    · rw [h'.linked_eq]
      exact (List.perm_middle.trans (hxy ▸ List.Perm.refl _)).trans
        (List.perm_cons_erase hco).symm
    · have := congrArg LineData.offset (hd p)
      by_cases hp : c = p
      · subst hp
        split_ifs at this <;> simpa [hitData,LineData.decayed,CacheLine.data] using this
      · have hp' : p ≠ c := Ne.symm hp
        split_ifs at this <;> simpa [hitData,LineData.decayed,CacheLine.data,hp,hp'] using this

/-- What an insertion that fills the line `c` does, with and without an eviction. -/
structure Filled (cs cs' : CacheSet associativity policy) (c : LinePtr) (t offset : UInt64)
    (isLoad : Bool) (out out' : EvictOut) : Prop where
  intact : cs'.Intact
  linked : cs'.linked.Perm (c :: cs.linked.erase c)
  find : ∀ u, cs'.find u = if u = t then some c else
    if c ∈ cs.linked ∧ u = (cs.lines c).addr then none else cs.find u
  data : ∀ p, (cs'.lines p).data = cs.newData c t offset isLoad p
  freeEntries : cs'.freeEntries = cs.freeEntries.tail
  room : cs.freeEntries ≠ [] → c ∉ cs.linked ∧ out' = out
  full : cs.freeEntries = [] → c ∈ cs.linked ∧
    out' = ⟨(cs.lines c).dirty,(cs.lines c).addr.toInt64,(cs.lines c).offset⟩

theorem insert_contents (hpol : policy ≤ 2) (hassoc : 0 < associativity)
    (h : cs.Intact) (t offset : UInt64) (isLoad : Bool) (out : EvictOut) :
    ∃ cs' c out', cs.insert t offset isLoad out = .ok (out',cs') ∧
      Filled cs cs' c t offset isLoad out out' := by
  cases hf : cs.freeEntries with
  | nil =>
    obtain ⟨v,l,cs',xs,ys,hlv,hxy,hr,h',hf',hm',hd',-⟩ :=
      insert_full hpol hassoc h hf t offset isLoad out
    have hv : v ∈ cs.linked := by rw [hlv]; simp
    have hperm : cs.linked.Perm (v :: l) := by rw [hlv]; exact List.perm_append_singleton v l
    refine ⟨cs',v,_,hr,h'.intact,?_,fun u => ?_,hd',?_,fun hne => ?_,fun _ => ⟨hv,rfl⟩⟩
    · rw [h'.linked_eq]
      apply List.perm_middle.trans
      rw [← hxy]
      exact List.Perm.cons v (by simpa using (hperm.erase v).symm)
    · rw [hm']; simp [hv]
    · rw [hf',hf]; rfl
    · exact absurd hf hne
  | cons c rest =>
    obtain ⟨cs',xs,ys,hxy,hr,h',hf',hm',hd',-⟩ := insert_free hpol h hf t offset isLoad out
    have hc : c ∉ cs.linked := by
      have hnd := h.nodup
      rw [hf] at hnd
      simp only [List.nodup_append] at hnd
      exact fun hm => hnd.2.2 c hm c (by simp) rfl
    refine ⟨cs',c,out,hr,h'.intact,?_,fun u => ?_,hd',?_,fun _ => ⟨hc,rfl⟩,fun he => ?_⟩
    · rw [h'.linked_eq,List.erase_of_not_mem hc,hxy]
      exact List.perm_middle
    · rw [hm']; simp [hc]
    · rw [hf',hf]; rfl
    · simp [hf] at he

namespace Filled
variable {c : LinePtr} {t offset : UInt64} {isLoad : Bool} {out out' : EvictOut}

lemma find_self (h : Filled cs cs' c t offset isLoad out out') : cs'.find t = some c := by
  rw [h.find]; simp

lemma find_subset (h : Filled cs cs' c t offset isLoad out out') {u : UInt64} {p : LinePtr}
    (hu : u ≠ t) (hp : cs'.find u = some p) : cs.find u = some p := by
  rw [h.find,if_neg hu] at hp
  split_ifs at hp
  exact hp

lemma addr_self (h : Filled cs cs' c t offset isLoad out out') : (cs'.lines c).addr = t := by
  have := congrArg LineData.addr (h.data c)
  simpa [newData,CacheLine.data] using this

lemma data_other (h : Filled cs cs' c t offset isLoad out out') {p : LinePtr} (hp : p ≠ c) :
    (cs'.lines p).data = (cs.lines p).data := by
  rw [h.data]; simp [newData,hp]

lemma mem_linked (h : Filled cs cs' c t offset isLoad out out') (hc : cs.Intact) {p : LinePtr} :
    p ∈ cs'.linked ↔ p = c ∨ p ∈ cs.linked ∧ p ≠ c := by
  rw [h.linked.mem_iff,List.mem_cons,hc.order_nodup.mem_erase_iff]
  tauto

/-- The map stays exact when the inserted tag was absent. -/
lemma exact (h : Filled cs cs' c t offset isLoad out out') (hc : cs.Intact) (he : cs.Exact)
    (ht : cs.find t = none) : cs'.Exact := by
  intro p hp
  rcases (h.mem_linked hc).mp hp with rfl | ⟨hp,hpc⟩
  · rw [h.addr_self,h.find_self]
  · have ha : (cs'.lines p).addr = (cs.lines p).addr := congrArg LineData.addr (h.data_other hpc)
    have hpt : (cs.lines p).addr ≠ t := fun hpt => by simp [← hpt,he p hp] at ht
    rw [ha,h.find,if_neg hpt,if_neg,he p hp]
    rintro ⟨hcl,hpa⟩
    exact hpc (he.addr_injective hp hcl hpa)

end Filled

/-- What an eviction of the line `c` does. -/
structure Evicted (cs cs' : CacheSet associativity policy) (c : LinePtr) (t : UInt64) : Prop where
  intact : cs'.Intact
  linked : cs'.linked = cs.linked.erase c
  find : ∀ u, cs'.find u = if u = t then none else cs.find u
  data : ∀ p, (cs'.lines p).data = (cs.lines p).data
  freeEntries : cs'.freeEntries = c :: cs.freeEntries

theorem evict_contents (h : cs.Intact) {t : UInt64} {c : LinePtr} (hc : cs.find t = some c) :
    ∃ cs', cs.evict t = .ok ((cs.lines c).dirty,cs') ∧ Evicted cs cs' c t := by
  obtain ⟨cs',hr,h',hf,hm,hd⟩ := evict_spec h hc
  exact ⟨cs',hr,h'.intact,h'.linked_eq,hm,hd,hf⟩

lemma Evicted.exact {c : LinePtr} {t : UInt64} (h : Evicted cs cs' c t) (hcs : cs.Intact)
    (hc : cs.find t = some c) (he : cs.Exact) : cs'.Exact := by
  intro p hp
  rw [h.linked,hcs.order_nodup.mem_erase_iff] at hp
  obtain ⟨hpc,hp⟩ := hp
  have ha : (cs'.lines p).addr = (cs.lines p).addr := congrArg LineData.addr (h.data p)
  have hpt : (cs.lines p).addr ≠ t := fun hpt => by
    have := he p hp
    rw [hpt,hc] at this
    exact hpc (by simpa using this.symm)
  rw [ha,h.find,if_neg hpt,he p hp]

end CacheSet
end ElasticTranslations.Pcc
