import ElasticTranslations.Pcc.CacheSetOrder

/-! What `access`, `insert`, `evict`, `get_freq` and `get_set` do to a set whose lines are
in order: the new list, the new map and the data of every line. -/
namespace ElasticTranslations.Pcc
open Structures

namespace CacheSet
variable {associativity policy : ℕ} {cs cs' : CacheSet associativity policy}
  {order : List LinePtr}

section Touch
variable (t u : UInt64)

@[simp] lemma touch_lines : (cs.touch t).lines = cs.lines := by
  unfold touch; split <;> rfl
@[simp] lemma touch_freeEntries : (cs.touch t).freeEntries = cs.freeEntries := by
  unfold touch; split <;> rfl

/-- A planted null entry is no entry. -/
@[simp] lemma find_touch : (cs.touch t).find u = cs.find u := by
  unfold touch find
  split
  · rfl
  · rename_i h
    by_cases hu : u = t
    · subst hu; simp [h]
    · simp [Function.update_of_ne hu]

lemma Represents.touch (h : cs.Represents order) : (cs.touch t).Represents order where
  threads := by simpa [links] using h.threads
  objects := by simpa using h.objects
  indexed u p hu := by simpa using h.indexed u p (by simpa using hu)
  sentinel := by simpa using h.sentinel

end Touch

@[simp] lemma mapErase_lines (t : UInt64) : (cs.mapErase t).lines = cs.lines := rfl
@[simp] lemma mapAssign_lines (t : UInt64) (c : LinePtr) :
    (cs.mapAssign t c).lines = cs.lines := rfl

lemma find_mapErase (t u : UInt64) :
    (cs.mapErase t).find u = if u = t then none else cs.find u := by
  by_cases hu : u = t <;> simp [mapErase,find,hu]

lemma find_mapAssign (t u : UInt64) (c : LinePtr) :
    (cs.mapAssign t c).find u = if u = t then some c else cs.find u := by
  by_cases hu : u = t <;> simp [mapAssign,find,hu]

/-- The data of a line after a hit on `c`, before any decay. -/
def hitData (cs : CacheSet associativity policy) (c : LinePtr) (offset : UInt64) (isLoad : Bool)
    (p : LinePtr) : LineData :=
  if p = c then
    ⟨(cs.lines c).addr,offset,if isLoad then (cs.lines c).dirty else true,
      ((cs.lines c).freq+1) % 2^16⟩
  else (cs.lines p).data

lemma recordHit_links (cs : CacheSet associativity policy) (c : LinePtr) (offset : UInt64)
    (isLoad : Bool) :
    (cs.recordHit c offset isLoad).links = cs.links :=
  cs.modifyLine_links c (fun _ => rfl) fun _ => rfl

lemma recordHit_data (cs : CacheSet associativity policy) (c p : LinePtr) (offset : UInt64)
    (isLoad : Bool) :
    ((cs.recordHit c offset isLoad).lines p).data = cs.hitData c offset isLoad p := by
  by_cases hp : p = c
  · subst hp; simp [recordHit,hitData,CacheLine.data]
  · simp [recordHit,hitData,hp]

/-- The same lines in another order, with the same tags and the same map. -/
lemma Represents.reorder {order' : List LinePtr} (h : cs.Represents order)
    (hperm : order.Perm order')
    (hth : cs'.links.Threads (LinePtr.head :: order' ++ [LinePtr.tail]))
    (hf : cs'.freeEntries = cs.freeEntries) (hm : ∀ u, cs'.find u = cs.find u)
    (ha : ∀ p, (cs'.lines p).addr = (cs.lines p).addr) (hs : (cs'.lines .tail).freq = 0) :
    cs'.Represents order' := by
  refine ⟨hth,?_,fun u p hu => ?_,hs⟩
  · rw [hf]
    exact (hperm.symm.append_right _).trans h.objects
  · obtain ⟨hp,hpa⟩ := h.indexed u p (hm u ▸ hu)
    exact ⟨hperm.mem_iff.mp hp,(ha p).trans hpa⟩

lemma Represents.recordHit (h : cs.Represents order) {c : LinePtr} (hc : c ∈ order)
    (offset : UInt64) (isLoad : Bool) : (cs.recordHit c offset isLoad).Represents order := by
  have hct : LinePtr.tail ≠ c := (h.not_sentinel hc).2.symm
  refine h.reorder (List.Perm.refl _)
    ((recordHit_links cs c offset isLoad).symm ▸ h.threads)
    rfl (fun u => rfl) (fun p => ?_) ?_
  · have hd := congrArg LineData.addr (recordHit_data cs c p offset isLoad)
    by_cases hp : p = c
    · subst hp; simpa [hitData,CacheLine.data] using hd
    · simpa [hitData,CacheLine.data,hp] using hd
  · have hd := congrArg LineData.freq (recordHit_data cs c .tail offset isLoad)
    simpa [hitData,CacheLine.data,hct,h.sentinel] using hd

/-- The decay after a hit, when it happens, reaches every linked line. -/
lemma Represents.decayAtMax (h : cs.Represents order) (c : LinePtr) :
    ∃ cs', cs.decayAtMax c = .ok cs' ∧ cs'.Represents order ∧
      cs'.freeEntries = cs.freeEntries ∧ (∀ u, cs'.find u = cs.find u) ∧
      ∀ p, (cs'.lines p).data = if (cs.lines c).freq = maxFreq ∧ p ∈ order then
        (cs.lines p).data.decayed else (cs.lines p).data := by
  have ht : LinePtr.tail ∉ order := fun hm => (h.not_sentinel hm).2 rfl
  by_cases hd : (cs.lines c).freq = maxFreq
  · have hlen := h.count
    obtain ⟨cs',hr,hf,hm,hl,hdata⟩ := decayLoop_spec order (associativity+1) cs h.threads
      (List.Nodup.of_append_left h.nodes_nodup) ht (by omega)
    have hfind : ∀ u, cs'.find u = cs.find u := fun u => by simp [find,hm]
    refine ⟨cs',by rw [CacheSet.decayAtMax,if_pos hd]; exact hr,?_,hf,hfind,fun p => ?_⟩
    · refine h.reorder (List.Perm.refl _) (hl ▸ h.threads) hf hfind (fun p => ?_) ?_
      · have := congrArg LineData.addr (hdata p)
        split_ifs at this <;> simpa [CacheLine.data,LineData.decayed] using this
      · have := congrArg LineData.freq (hdata .tail)
        simpa [ht,CacheLine.data,h.sentinel] using this
    · rw [hdata p]
      simp only [hd,true_and]
  · exact ⟨cs,by rw [CacheSet.decayAtMax,if_neg hd]; rfl,h,rfl,fun _ => rfl,
      fun p => by rw [if_neg fun hh => hd hh.1]⟩

/-- A lookup of an absent tag leaves everything but a null entry unchanged. -/
theorem access_miss {t offset : UInt64} {isLoad : Bool} (hc : cs.find t = none) :
    cs.access t offset isLoad = .ok (false,cs.touch t) := by
  simp [access,hc]

/-- A hit that re-links the line; lines, free lines and map keep their contents. -/
theorem access_hit (hpol : policy ≤ 2) (h : cs.Represents order)
    (offset : UInt64) (isLoad : Bool) {t : UInt64} {c : LinePtr} (hc : cs.find t = some c)
    (hkeep : policy = 1 → associativity/2 ≤ (cs.lines c).freq) :
    ∃ cs' xs ys, cs.access t offset isLoad = .ok (true,cs') ∧ order.erase c = xs ++ ys ∧
      Position cs c xs ys ∧ cs'.Represents (xs ++ c :: ys) ∧
      cs'.freeEntries = cs.freeEntries ∧ (∀ u, cs'.find u = cs.find u) ∧
      ∀ p, (cs'.lines p).data =
        if ((cs.lines c).freq+1) % 2^16 = maxFreq ∧ p ∈ order then
          (cs.hitData c offset isLoad p).decayed
        else cs.hitData c offset isLoad p := by
  have hco : c ∈ order := (h.indexed t c hc).1
  have h₀ := h.touch t
  have hperm : order.Perm (c :: order.erase c) := List.perm_cons_erase hco
  obtain ⟨cs₁,hr₁,hrel₁,hth₁⟩ := deleteNode_order _ h₀.threads h₀.nodes_nodup hco
  obtain ⟨cs₂,xs,ys,hxy,hr₂,hrel₂,hth₂,hpos⟩ := relink_spec _ hpol
    (fun hp => by rw [hrel₁.freq]; simpa using hkeep hp) hth₁
    ((List.Perm.nodup_iff (hperm.append_right _ |>.cons _)).mp h.nodes_nodup)
    (by rw [hrel₁.freq]; simpa using h.sentinel)
    (by have := h.count; have := hperm.length_eq; simp only [List.length_cons] at this; omega)
  have hrel := hrel₁.trans hrel₂
  have hperm' : order.Perm (xs ++ c :: ys) :=
    (hperm.trans (hxy ▸ List.Perm.refl _)).trans List.perm_middle.symm
  have h₂ : cs₂.Represents (xs ++ c :: ys) :=
    h₀.reorder hperm' hth₂ hrel.freeEntries hrel.find hrel.addr
      ((hrel.freq _).trans h₀.sentinel)
  obtain ⟨cs',hr',h',hf',hm',hd'⟩ :=
    (h₂.recordHit (c := c) (by simp) offset isLoad).decayAtMax c
  have hhit : ∀ p, cs₂.hitData c offset isLoad p = cs.hitData c offset isLoad p := fun p => by
    have hd := hrel.data c
    simp only [CacheLine.data,touch_lines,LineData.mk.injEq] at hd
    simp only [hitData,hd,hrel.data p,touch_lines]
  have hfreq : ((cs₂.recordHit c offset isLoad).lines c).freq = ((cs.lines c).freq+1) % 2^16 := by
    have hd := congrArg LineData.freq (recordHit_data cs₂ c c offset isLoad)
    rw [hhit] at hd
    simpa [hitData,CacheLine.data] using hd
  refine ⟨cs',xs,ys,?_,hxy,?_,h',?_,?_,fun p => ?_⟩
  · simp only [access,find_touch,hc,hr₁,hr₂,hr',ok_bind,pure_ok]
  · refine ⟨hpos.front,fun hp p hm => ?_,fun hp p hm => ?_⟩
    · simpa [hrel₁.freq] using hpos.above hp p hm
    · simpa [hrel₁.freq] using hpos.below hp p hm
  · simpa [CacheSet.recordHit,hrel.freeEntries] using hf'
  · intro u
    exact (hm' u).trans ((hrel.find u).trans (find_touch t u))
  · rw [hd' p,hfreq,recordHit_data,hhit]
    simp only [hperm'.mem_iff]

/-- A line goes from the list to the free lines and its tag leaves the map. -/
lemma Represents.release {c : LinePtr} (h : cs.Represents order) (hco : c ∈ order)
    (hth : cs'.links.Threads (LinePtr.head :: order.erase c ++ [LinePtr.tail]))
    (hfree : cs'.freeEntries = c :: cs.freeEntries)
    (hfind : ∀ u, cs'.find u = if u = (cs.lines c).addr then none else cs.find u)
    (hdata : ∀ p, (cs'.lines p).data = (cs.lines p).data) : cs'.Represents (order.erase c) := by
  have hperm : order.Perm (c :: order.erase c) := List.perm_cons_erase hco
  refine ⟨hth,?_,fun u p hu => ?_,?_⟩
  · refine List.Perm.trans ?_ h.objects
    rw [hfree]
    exact List.perm_middle.trans (hperm.symm.append_right _)
  · have hut : u ≠ (cs.lines c).addr := fun he => by simp [hfind,he] at hu
    obtain ⟨hp,hpa⟩ := h.indexed u p (by simpa [hfind,hut] using hu)
    have hpc : p ≠ c := fun he => hut (by rw [← hpa,he])
    exact ⟨(List.mem_erase_of_ne hpc).mpr hp,(congrArg LineData.addr (hdata p)).trans hpa⟩
  · exact (congrArg LineData.freq (hdata .tail)).trans h.sentinel

/-- A line leaves the list when its tag is evicted. -/
theorem evict_spec (h : cs.Represents order) {t : UInt64} {c : LinePtr}
    (hc : cs.find t = some c) :
    ∃ cs', cs.evict t = .ok ((cs.lines c).dirty,cs') ∧ cs'.Represents (order.erase c) ∧
      cs'.freeEntries = c :: cs.freeEntries ∧
      (∀ u, cs'.find u = if u = t then none else cs.find u) ∧
      ∀ p, (cs'.lines p).data = (cs.lines p).data := by
  obtain ⟨hco,hca⟩ := h.indexed t c hc
  obtain ⟨hch,-⟩ := h.not_sentinel hco
  obtain ⟨cs₁,hr,hrel,hth⟩ :=
    deleteNode_order ((cs.touch t).mapErase t) (h.touch t).threads h.nodes_nodup hco
  have hfind : ∀ u, cs₁.find u = if u = t then none else cs.find u := fun u => by
    rw [hrel.find,find_mapErase,find_touch]
  have hdata : ∀ p, (cs₁.lines p).data = (cs.lines p).data := fun p => by
    simpa [mapErase] using hrel.data p
  have hfree : cs₁.freeEntries = cs.freeEntries := by simpa [mapErase] using hrel.freeEntries
  refine ⟨{ cs₁ with freeEntries := c :: cs₁.freeEntries },?_,?_,by simp [hfree],hfind,hdata⟩
  · simp only [evict,find_touch,hc,Option.some.injEq,hch,if_false,deref_some,ok_bind,
      touch_lines,hca,hr,pure_ok,mapErase_lines]
  · exact h.release hco hth (by rw [hfree]) (by rw [hca]; exact hfind) hdata

/-- The loop of `flush` releases the first line of the list in every round. -/
lemma flushLoop_spec (n : ℕ) (h : cs.Represents order) (hn : order.length < n) :
    ∃ cs', flushLoop n (cs.lines .head).next cs = .ok cs' ∧ cs'.Represents [] ∧
      ∀ p, (cs'.lines p).data = (cs.lines p).data := by
  induction order generalizing cs n with
  | nil =>
    obtain ⟨n,rfl⟩ := Nat.exists_eq_add_one_of_ne_zero (Nat.ne_of_gt hn)
    have ha : (cs.lines .head).next = some .tail := Links.Threads.next_eq h.threads
    exact ⟨cs,by simp [flushLoop,ha],h,fun _ => rfl⟩
  | cons p order ih =>
    obtain ⟨n,rfl⟩ := Nat.exists_eq_add_one_of_ne_zero (Nat.ne_of_gt (Nat.zero_lt_of_lt hn))
    have hth := h.threads
    obtain ⟨b,bs,hb⟩ := List.exists_cons_of_ne_nil (l := order ++ [LinePtr.tail]) (by simp)
    simp only [List.cons_append,hb] at hth
    have ha : (cs.lines .head).next = some p := hth.next_eq
    obtain ⟨hpb,hbp⟩ := (List.isChain_cons_cons.mp hth.tail).1
    have hp : p ≠ .tail := (h.not_sentinel (by simp)).2
    let cs₀ : CacheSet associativity policy :=
      { cs.mapErase (cs.lines p).addr with freeEntries := p :: cs.freeEntries }
    obtain ⟨cs₁,hr,hrel,hth₁⟩ :=
      deleteNode_order cs₀ (p := p) h.threads h.nodes_nodup (by simp)
    have h₁ : cs₁.Represents order := by
      have := h.release (c := p) (by simp) hth₁ hrel.freeEntries
        (fun u => (hrel.find u).trans (find_mapErase _ u)) hrel.data
      simpa using this
    obtain ⟨cs',hr',h',hd'⟩ := ih n h₁ (by simpa using hn)
    have hb₁ : (cs₁.lines .head).next = some b := by
      rw [List.erase_cons_head,List.cons_append,hb] at hth₁
      exact hth₁.next_eq
    refine ⟨cs',?_,h',fun q => (hd' q).trans (hrel.data q)⟩
    rw [hb₁] at hr'
    have hnext : (cs₀.lines p).next = some b := hpb
    have hprev : (cs₀.lines b).prev = some p := hbp
    simp only [flushLoop,ha,Option.some.injEq,hp,if_false,deref_some,ok_bind]
    rw [hnext,deref_some,ok_bind,hprev,deref_some,ok_bind]
    change (cs₀.deleteNode p >>= fun cs => flushLoop n (some b) cs) = .ok cs'
    rw [hr,ok_bind,hr']

/-- `flush` frees every line and leaves its data alone. -/
theorem flush_spec (h : cs.Represents order) :
    ∃ cs', cs.flush = .ok cs' ∧ cs'.Represents [] ∧
      ∀ p, (cs'.lines p).data = (cs.lines p).data :=
  flushLoop_spec (associativity+1) h (by have := h.count; omega)

theorem getFreq_spec (h : cs.Represents order) {t : UInt64} {c : LinePtr}
    (hc : cs.find t = some c) : cs.getFreq t = .ok (cs.lines c).freq := by
  have hch := (h.not_sentinel (h.indexed t c hc).1).1
  have hm : cs.addrMap t = some (some c) := Option.join_eq_some_iff.mp hc
  simp [getFreq,hm,hc,hch]

lemma getSetLoop_spec {a : LinePtr} (n : ℕ)
    (h : cs.links.Threads (a :: order ++ [LinePtr.tail])) (ht : LinePtr.tail ∉ order)
    (hn : order.length < n) :
    cs.getSetLoop n (cs.lines a).next = .ok (order.map fun p => (cs.lines p).addr) := by
  induction order generalizing a n with
  | nil =>
    obtain ⟨n,rfl⟩ := Nat.exists_eq_add_one_of_ne_zero (Nat.ne_of_gt hn)
    have ha : (cs.lines a).next = some .tail := Links.Threads.next_eq h
    simp [getSetLoop,ha]
  | cons p order ih =>
    obtain ⟨n,rfl⟩ := Nat.exists_eq_add_one_of_ne_zero (Nat.ne_of_gt (Nat.zero_lt_of_lt hn))
    have ha : (cs.lines a).next = some p := Links.Threads.next_eq h
    have hp : p ≠ .tail := fun he => ht (by simp [he])
    have hi := ih (a := p) n (Links.Threads.tail h) (fun he => ht (List.mem_cons_of_mem p he))
      (by simpa using hn)
    simp [getSetLoop,ha,hp,hi]

/-- `get_set` terminates and lists the tags in list order. -/
theorem getSet_spec (h : cs.Represents order) :
    cs.getSet = .ok (order.map fun p => (cs.lines p).addr) := by
  apply getSetLoop_spec _ h.threads (fun hm => (h.not_sentinel hm).2 rfl)
  have := h.count
  omega

/-- The data of a line after an insertion that fills `c`. -/
def newData (cs : CacheSet associativity policy) (c : LinePtr) (t offset : UInt64) (isLoad : Bool)
    (p : LinePtr) : LineData :=
  if p = c then ⟨t,offset,!isLoad,0⟩ else (cs.lines p).data

lemma fillLine_data (cs : CacheSet associativity policy) (c : LinePtr) (t offset : UInt64)
    (isLoad : Bool) (p : LinePtr) :
    ((((cs.mapAssign t c).modifyLine c fun l =>
      { l with addr := t, offset := offset, dirty := !isLoad, freq := 0 }).lines p).data) =
      cs.newData c t offset isLoad p := by
  by_cases hp : p = c
  · subst hp
    simp [newData,CacheLine.data]
  · simp [newData,hp]

/-- The line objects are none of the sentinels. -/
lemma ne_sentinel {c p : LinePtr} {free : List LinePtr}
    (hobj : (c :: order ++ free).Perm (lineObjects associativity)) (hp : p ∈ c :: order) :
    p ≠ .head ∧ p ≠ .tail := by
  have hm := hobj.mem_iff.mp (List.mem_append_left _ hp)
  simp only [lineObjects,List.mem_map,List.mem_range] at hm
  obtain ⟨i,-,rfl⟩ := hm
  exact ⟨by simp,by simp⟩

lemma nodup_between {c : LinePtr} {free : List LinePtr}
    (hobj : (c :: order ++ free).Perm (lineObjects associativity)) :
    (LinePtr.head :: c :: order ++ [LinePtr.tail]).Nodup := by
  have hnd : (c :: order).Nodup :=
    List.Nodup.of_append_left (hobj.nodup_iff.mpr lineObjects_nodup)
  have hobjs := fun p hp => ne_sentinel (p := p) hobj hp
  simp only [List.cons_append,List.nodup_cons,List.nodup_append,List.mem_cons,List.mem_append]
    at hnd ⊢
  grind

/-- Filling a line that is off the list and linking it back. -/
lemma fill_spec (cs₀ : CacheSet associativity policy) {c : LinePtr} (t offset : UInt64)
    (isLoad : Bool) (hpol : policy ≤ 2)
    (hth : cs₀.links.Threads (LinePtr.head :: order ++ [LinePtr.tail]))
    (hobj : (c :: order ++ cs₀.freeEntries).Perm (lineObjects associativity))
    (hfind : ∀ u p, u ≠ t → cs₀.find u = some p → p ∈ order ∧ (cs₀.lines p).addr = u)
    (hs : (cs₀.lines .tail).freq = 0) :
    ∃ cs' xs ys, order = xs ++ ys ∧
      ((cs₀.mapAssign t c).modifyLine c fun l =>
        { l with addr := t, offset := offset, dirty := !isLoad, freq := 0 }).placeNew c = .ok cs' ∧
      cs'.Represents (xs ++ c :: ys) ∧ cs'.freeEntries = cs₀.freeEntries ∧
      (∀ u, cs'.find u = if u = t then some c else cs₀.find u) ∧
      (∀ p, (cs'.lines p).data = cs₀.newData c t offset isLoad p) ∧ Position cs' c xs ys := by
  have hnodes := nodup_between hobj
  obtain ⟨hct,-⟩ := List.nodup_cons.mp (List.Nodup.of_append_left (List.nodup_cons.mp hnodes).2)
  have hctail := (ne_sentinel hobj (p := c) (by simp)).2
  let cs₁ := (cs₀.mapAssign t c).modifyLine c fun l =>
    { l with addr := t, offset := offset, dirty := !isLoad, freq := 0 }
  have hl₁ : cs₁.links = cs₀.links :=
    (cs₀.mapAssign t c).modifyLine_links c (fun _ => rfl) fun _ => rfl
  have hd₁ : ∀ p, (cs₁.lines p).data = cs₀.newData c t offset isLoad p :=
    cs₀.fillLine_data c t offset isLoad
  have hs₁ : (cs₁.lines .tail).freq = 0 := by
    have := congrArg LineData.freq (hd₁ .tail)
    simpa [newData,CacheLine.data,hctail.symm,hs] using this
  have hlen : order.length ≤ associativity := by
    have := hobj.length_eq
    simp only [lineObjects,List.length_map,List.length_range,List.length_append,
      List.length_cons] at this
    omega
  obtain ⟨cs',xs,ys,hxy,hr,hrel,hth',hpos⟩ :=
    placeNew_spec cs₁ hpol (hl₁.symm ▸ hth) hnodes hs₁ hlen
  have hfind' : ∀ u, cs'.find u = if u = t then some c else cs₀.find u := fun u => by
    rw [hrel.find,← find_mapAssign]; rfl
  have hperm : (c :: order).Perm (xs ++ c :: ys) := hxy ▸ List.perm_middle.symm
  refine ⟨cs',xs,ys,hxy,hr,⟨hth',?_,fun u p hu => ?_,(hrel.freq _).trans hs₁⟩,
    hrel.freeEntries,hfind',fun p => (hrel.data p).trans (hd₁ p),hrel.position hpos⟩
  · rw [hrel.freeEntries]
    exact (hperm.symm.append_right _).trans hobj
  · rw [hfind'] at hu
    rw [hrel.addr]
    have hd := congrArg LineData.addr (hd₁ p)
    by_cases hut : u = t
    · subst hut
      obtain rfl : c = p := by simpa using hu
      exact ⟨by simp,by simpa [newData,CacheLine.data] using hd⟩
    · obtain ⟨hp,hpa⟩ := hfind u p hut (by simpa [hut] using hu)
      have hpc : p ≠ c := fun he => hct (he ▸ hp)
      exact ⟨hperm.mem_iff.mp (List.mem_cons_of_mem c hp),
        by simpa [newData,CacheLine.data,hpc,hpa] using hd⟩

/-- With a free line nothing is evicted and the out-parameters keep their values. -/
theorem insert_free (hpol : policy ≤ 2) (h : cs.Represents order) {c : LinePtr}
    {rest : List LinePtr} (hf : cs.freeEntries = c :: rest) (t offset : UInt64) (isLoad : Bool)
    (out : EvictOut) :
    ∃ cs' xs ys, order = xs ++ ys ∧ cs.insert t offset isLoad out = .ok (out,cs') ∧
      cs'.Represents (xs ++ c :: ys) ∧ cs'.freeEntries = rest ∧
      (∀ u, cs'.find u = if u = t then some c else cs.find u) ∧
      (∀ p, (cs'.lines p).data = cs.newData c t offset isLoad p) ∧ Position cs' c xs ys := by
  let cs₀ : CacheSet associativity policy := { cs.touch t with freeEntries := rest }
  have hfind : ∀ u, cs₀.find u = cs.find u := find_touch t
  have hobj : (c :: order ++ rest).Perm (lineObjects associativity) := by
    refine List.Perm.trans ?_ h.objects
    rw [hf]
    exact List.perm_middle.symm
  obtain ⟨cs',xs,ys,hxy,hr,h',hf',hm',hd',hpos⟩ :=
    fill_spec cs₀ t offset isLoad hpol (h.touch t).threads hobj
      (fun u p _ hu => by simpa [cs₀] using h.indexed u p (hfind u ▸ hu)) (h.touch t).sentinel
  refine ⟨cs',xs,ys,hxy,?_,h',hf',fun u => by rw [hm',hfind],fun p => ?_,hpos⟩
  · simp only [insert,takeLine,touch_freeEntries,hf,pure_ok,ok_bind]
    simp only [cs₀] at hr
    rw [hr]; rfl
  · rw [hd']
    simp [newData,cs₀]

/-- The line in front of the tail is the last one of the order. -/
lemma Represents.tail_prev {l : List LinePtr} {v : LinePtr} (h : cs.Represents (l ++ [v])) :
    (cs.lines .tail).prev = some v := by
  have hth := h.threads
  have hsplit : LinePtr.head :: (l ++ [v]) ++ [LinePtr.tail] =
      (LinePtr.head :: l) ++ v :: LinePtr.tail :: [] := by simp
  rw [hsplit] at hth
  exact (Links.threads_seam.mp hth).2.1.2

lemma Represents.exists_last (h : cs.Represents order) (hassoc : 0 < associativity)
    (hf : cs.freeEntries = []) : ∃ l v, order = l ++ [v] := by
  have hne : order ≠ [] := by
    intro he
    have := h.count
    simp [he,hf] at this
    omega
  obtain ⟨l,v,hlv⟩ := (List.eq_nil_or_concat order).resolve_left hne
  exact ⟨l,v,by simpa using hlv⟩

/-- In a full set the last line is taken off the list, its tag leaves the map. -/
lemma takeLine_full {l : List LinePtr} {v : LinePtr} (h : cs.Represents (l ++ [v]))
    (hf : cs.freeEntries = []) (out : EvictOut) :
    ∃ cs₁, cs.takeLine out =
        .ok (v,⟨(cs.lines v).dirty,(cs.lines v).addr.toInt64,(cs.lines v).offset⟩,cs₁) ∧
      Relinked (cs.mapErase (cs.lines v).addr) cs₁ ∧
      cs₁.links.Threads (LinePtr.head :: l ++ [LinePtr.tail]) := by
  have hv : v ∈ l ++ [v] := by simp
  have herase : (l ++ [v]).erase v = l := by
    have := h.order_nodup
    rw [List.erase_append_right _ (by
      simp only [List.nodup_append,List.mem_singleton] at this
      grind)]
    simp
  have hprev : (cs.lines .tail).prev = some v := h.tail_prev
  obtain ⟨hvh,-⟩ := h.not_sentinel hv
  obtain ⟨cs₁,hr,hrel,hth⟩ :=
    deleteNode_order (cs.mapErase (cs.lines v).addr) h.threads h.nodes_nodup hv
  rw [herase] at hth
  refine ⟨cs₁,?_,hrel,hth⟩
  simp only [takeLine,hf,hprev,deref_some,ok_bind,hvh,if_false,mapErase_lines,hr,pure_ok]

/-- In a full set the last line is evicted and reported. -/
theorem insert_full (hpol : policy ≤ 2) (hassoc : 0 < associativity)
    (h : cs.Represents order) (hf : cs.freeEntries = []) (t offset : UInt64) (isLoad : Bool)
    (out : EvictOut) :
    ∃ v l cs' xs ys, order = l ++ [v] ∧ l = xs ++ ys ∧
      cs.insert t offset isLoad out =
        .ok (⟨(cs.lines v).dirty,(cs.lines v).addr.toInt64,(cs.lines v).offset⟩,cs') ∧
      cs'.Represents (xs ++ v :: ys) ∧ cs'.freeEntries = [] ∧
      (∀ u, cs'.find u = if u = t then some v else
        if u = (cs.lines v).addr then none else cs.find u) ∧
      (∀ p, (cs'.lines p).data = cs.newData v t offset isLoad p) ∧ Position cs' v xs ys := by
  obtain ⟨l,v,rfl⟩ := h.exists_last hassoc hf
  obtain ⟨cs₁,hr₁,hrel,hth⟩ := takeLine_full (h.touch t) (by simpa using hf) out
  have hfree : cs₁.freeEntries = [] := by simpa [mapErase,hf] using hrel.freeEntries
  have hdata : ∀ p, (cs₁.lines p).data = (cs.lines p).data := fun p => by
    simpa using hrel.data p
  have hfind : ∀ u, cs₁.find u = if u = (cs.lines v).addr then none else cs.find u := fun u => by
    rw [hrel.find,find_mapErase,find_touch,touch_lines]
  have hobj : (v :: l ++ cs₁.freeEntries).Perm (lineObjects associativity) := by
    refine List.Perm.trans ?_ h.objects
    rw [hfree,hf,List.append_nil,List.append_nil]
    exact (List.perm_append_singleton v l).symm
  have hindexed : ∀ u p, u ≠ t → cs₁.find u = some p → p ∈ l ∧ (cs₁.lines p).addr = u := by
    intro u p _ hu
    rw [hfind] at hu
    have huv : u ≠ (cs.lines v).addr := fun he => by simp [he] at hu
    obtain ⟨hp,hpa⟩ := h.indexed u p (by simpa [huv] using hu)
    have hpv : p ≠ v := fun he => huv (by rw [← hpa,he])
    exact ⟨by simpa [hpv] using hp,(congrArg LineData.addr (hdata p)).trans hpa⟩
  obtain ⟨cs',xs,ys,hxy,hr,h',hf',hm',hd',hpos⟩ :=
    fill_spec cs₁ t offset isLoad hpol hth hobj hindexed
      ((congrArg LineData.freq (hdata .tail)).trans h.sentinel)
  refine ⟨v,l,cs',xs,ys,rfl,hxy,?_,h',hf'.trans hfree,fun u => by rw [hm',hfind],fun p => ?_,hpos⟩
  · simp only [touch_lines] at hr₁
    simp only [insert,hr₁,ok_bind,hr,pure_ok]
  · rw [hd']
    simp only [newData,hdata]

end CacheSet
end ElasticTranslations.Pcc
