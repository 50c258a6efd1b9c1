import ElasticTranslations.Structures.Ranked
import ElasticTranslations.Pcc.SetRuns

/-! A set with policy 2 keeps its lines in non-increasing order of frequency, although a hit
is counted only after the line has been linked again and a decay halves the counters in
place. -/
namespace ElasticTranslations.Pcc
open Structures

namespace CacheSet
variable {associativity policy : ℕ} {cs cs' : CacheSet associativity policy}
  {order : List LinePtr}

/-- The counter of a line. -/
def freqOf (cs : CacheSet associativity policy) (p : LinePtr) : ℕ := (cs.lines p).freq

/-- The lines are in order of frequency and no counter is at the maximum. -/
structure LfuOrdered (cs : CacheSet associativity policy) : Prop where
  sorted : Descending cs.freqOf cs.linked
  bounded : ∀ p, cs.freqOf p ≤ maxFreq - 1

/-- The scan of `insertLFU` for a place for `c` ends, at a linked line or at the tail. -/
def ScanStops (cs : CacheSet associativity policy) (c : LinePtr) : Prop :=
  ∃ p ∈ cs.linked ++ [LinePtr.tail],
    cs.scanLFU c (associativity+1) (cs.lines .head).next = .ok p

/-- The scan that the operation makes, in the set that it hands to `insertLFU`. -/
def ScansStop (cs : CacheSet associativity policy) : SetOp → Prop
  | .access t _ _ => ∀ c cs₁, cs.find t = some c → (cs.touch t).deleteNode c = .ok cs₁ →
      cs₁.ScanStops c
  | .insert t offset isLoad out => ∀ c out' cs₁, (cs.touch t).takeLine out = .ok (c,out',cs₁) →
      ((cs₁.mapAssign t c).modifyLine c fun l =>
        { l with addr := t, offset := offset, dirty := !isLoad, freq := 0 }).ScanStops c
  | _ => True

/-- An insertion into a full set evicts, and reports, a line of least frequency. -/
def EvictsRarest (cs : CacheSet associativity policy) : SetOp → Prop
  | .insert t offset isLoad out => cs.freeEntries = [] →
      ∃ v ∈ cs.linked, (∀ p ∈ cs.linked, cs.freqOf v ≤ cs.freqOf p) ∧
        ∃ cs', cs.insert t offset isLoad out =
            .ok (⟨(cs.lines v).dirty,(cs.lines v).addr.toInt64,(cs.lines v).offset⟩,cs') ∧
          ∀ u ≠ t, cs'.find u = if u = (cs.lines v).addr then none else cs.find u
  | _ => True

lemma freqOf_data (p : LinePtr) : cs.freqOf p = (cs.lines p).data.freq := rfl

lemma Represents.sorted (h : cs.Represents order) :
    Descending cs.freqOf cs.linked ↔ Descending cs.freqOf order := by rw [h.linked_eq]

lemma new_lfuOrdered : (new associativity policy).LfuOrdered where
  sorted := by
    rw [new_linked]
    exact List.Pairwise.nil
  bounded p := by cases p <;> simp [freqOf,new]

/-- A lookup that misses and an eviction change no counter and no order. -/
lemma LfuOrdered.sublist (h : cs.LfuOrdered) (h' : cs'.Represents order)
    (hsub : List.Sublist order cs.linked) (hd : ∀ p, (cs'.lines p).data = (cs.lines p).data) :
    cs'.LfuOrdered := by
  have hfreq : ∀ p, cs'.freqOf p = cs.freqOf p := fun p => by rw [freqOf_data,hd]; rfl
  refine ⟨h'.sorted.mpr ((h.sorted.sublist hsub).congr fun p _ => hfreq p),fun p => ?_⟩
  rw [hfreq]
  exact h.bounded p

/-- The counters after a hit on `c` and before any decay; the 16 bits do not overflow. -/
def countHit (cs : CacheSet associativity policy) (c p : LinePtr) : ℕ :=
  if p = c then cs.freqOf c+1 else cs.freqOf p

lemma hitData_freq {c : LinePtr} (hc : cs.freqOf c ≤ maxFreq - 1) (offset : UInt64)
    (isLoad : Bool) (p : LinePtr) :
    (cs.hitData c offset isLoad p).freq = cs.countHit c p := by
  have hmod : (cs.freqOf c+1) % 2^16 = cs.freqOf c+1 := by
    apply Nat.mod_eq_of_lt
    simp only [maxFreq] at hc
    omega
  by_cases hp : p = c
  · simp only [hitData,countHit,hp,if_true]
    exact hmod
  · simp [hitData,countHit,hp,CacheLine.data,freqOf]

/-- The hit line was linked behind the lines above its old count, so it may be counted. -/
lemma countHit_sorted {cs : CacheSet associativity 2} {c : LinePtr} {xs ys : List LinePtr}
    (h : Descending cs.freqOf (xs ++ ys)) (hc : c ∉ xs ++ ys) (hpos : Position cs c xs ys) :
    Descending (cs.countHit c) (xs ++ c :: ys) := by
  have hself : cs.countHit c c = cs.freqOf c+1 := by simp [countHit]
  have hother : ∀ p ∈ xs ++ ys, cs.countHit c p = cs.freqOf p := fun p hp => by
    have hpc : p ≠ c := fun he => hc (he ▸ hp)
    simp [countHit,hpc]
  apply Descending.place (h.congr hother)
  · intro p hp
    rw [hself,hother p (List.mem_append_left _ hp)]
    exact hpos.above rfl p hp
  · intro p hp
    rw [hself,hother p (List.mem_append_right _ (List.mem_of_mem_head? hp))]
    exact (hpos.below rfl p hp).trans (Nat.le_succ _)

/-- At most the hit line reaches the maximum, and then every linked line is halved. -/
lemma countHit_bounded {c p : LinePtr} (hb : ∀ p, cs.freqOf p ≤ maxFreq - 1) (hc : c ∈ order) :
    (if cs.countHit c c = maxFreq ∧ p ∈ order then cs.countHit c p/2 else cs.countHit c p)
      ≤ maxFreq - 1 := by
  have hbp := hb p
  have hbc := hb c
  by_cases hp : p = c
  · subst hp
    simp only [countHit,if_true,hc,and_true,maxFreq] at *
    split_ifs <;> omega
  · simp only [countHit,if_true,hp,if_false,maxFreq] at *
    split_ifs <;> omega

/-- A hit keeps the order, with and without a decay. -/
theorem access_lfu {cs : CacheSet associativity 2} (hs : cs.Intact) (h : cs.LfuOrdered)
    (t offset : UInt64) (isLoad : Bool) {res : Bool}
    {cs' : CacheSet associativity 2} (hr : cs.access t offset isLoad = .ok (res,cs')) :
    cs'.LfuOrdered := by
  cases hc : cs.find t with
  | none =>
    obtain ⟨-,rfl⟩ : _ ∧ cs.touch t = cs' := by simpa [access_miss hc] using hr
    exact h.sublist (Represents.touch t hs) (List.Sublist.refl _) (by simp)
  | some c =>
    obtain ⟨cs'',xs,ys,hr',hxy,hpos,h',-,-,hd⟩ :=
      access_hit (by omega) hs offset isLoad hc (by omega)
    obtain ⟨-,rfl⟩ : _ ∧ cs'' = cs' := by simpa [hr] using hr'.symm
    have hco : c ∈ cs.linked := (hs.indexed t c hc).1
    have hperm : cs.linked.Perm (xs ++ c :: ys) :=
      (List.perm_cons_erase hco).trans (hxy ▸ List.perm_middle.symm)
    have hcount := hitData_freq (h.bounded c) offset isLoad
    have hfreq : ∀ p, cs''.freqOf p =
        if cs.countHit c c = maxFreq ∧ p ∈ cs.linked then cs.countHit c p/2
        else cs.countHit c p := fun p => by
      rw [freqOf_data,hd p,← hcount c,← hcount p]
      simp only [hitData,if_true]
      split_ifs <;> rfl
    have hsorted : Descending (cs.countHit c) (xs ++ c :: ys) := by
      apply countHit_sorted
      · rw [← hxy]
        exact h.sorted.sublist List.erase_sublist
      · rw [← hxy]
        exact hs.order_nodup.not_mem_erase
      · exact hpos
    refine ⟨h'.sorted.mpr (hsorted.rerank fun p hp q hq hpq => ?_),fun p => ?_⟩
    · rw [hfreq,hfreq]
      simp only [hperm.mem_iff,hp,hq,and_true]
      split_ifs
      · exact Nat.div_le_div_right hpq
      · exact hpq
    · rw [hfreq]
      exact countHit_bounded h.bounded hco

/-- A new line starts with frequency zero, behind all lines that were ever hit. -/
lemma lfuOrdered_fill {c : LinePtr} {xs ys : List LinePtr} {t offset : UInt64} {isLoad : Bool}
    {cs cs' : CacheSet associativity 2} (hsort : Descending cs.freqOf (xs ++ ys))
    (hb : ∀ p, cs.freqOf p ≤ maxFreq - 1) (h' : cs'.Represents (xs ++ c :: ys))
    (hd : ∀ p, (cs'.lines p).data = cs.newData c t offset isLoad p)
    (hpos : Position cs' c xs ys) : cs'.LfuOrdered := by
  have hother : ∀ p, p ≠ c → cs'.freqOf p = cs.freqOf p := fun p hp => by
    rw [freqOf_data,hd]
    simp [newData,hp,CacheLine.data,freqOf]
  have hself : cs'.freqOf c = 0 := by
    rw [freqOf_data,hd]
    simp [newData]
  have hc : c ∉ xs ++ ys := by
    have := h'.order_nodup
    rw [List.nodup_middle] at this
    exact (List.nodup_cons.mp this).1
  refine ⟨h'.sorted.mpr (Descending.place ?_ ?_ (hpos.below rfl)),fun p => ?_⟩
  · exact hsort.congr fun p hp => hother p fun he => hc (he ▸ hp)
  · exact fun p hp => (hpos.above rfl p hp).le
  · by_cases hp : p = c
    · rw [hp,hself]
      exact Nat.zero_le _
    · rw [hother p hp]
      exact hb p

theorem insert_lfu {cs : CacheSet associativity 2} (hassoc : 0 < associativity) (hs : cs.Intact)
    (h : cs.LfuOrdered) (t offset : UInt64) (isLoad : Bool) (out : EvictOut) {out' : EvictOut}
    {cs' : CacheSet associativity 2} (hr : cs.insert t offset isLoad out = .ok (out',cs')) :
    cs'.LfuOrdered := by
  cases hf : cs.freeEntries with
  | cons c rest =>
    obtain ⟨cs'',xs,ys,hxy,hr',h',-,-,hd,hpos⟩ := insert_free (by omega) hs hf t offset isLoad out
    obtain ⟨-,rfl⟩ : _ ∧ cs'' = cs' := by simpa [hr] using hr'.symm
    exact lfuOrdered_fill (hxy ▸ h.sorted) h.bounded h' hd hpos
  | nil =>
    obtain ⟨v,l,cs'',xs,ys,hlv,hxy,hr',h',-,-,hd,hpos⟩ :=
      insert_full (by omega) hassoc hs hf t offset isLoad out
    obtain ⟨-,rfl⟩ : _ ∧ cs'' = cs' := by simpa [hr] using hr'.symm
    have hl : Descending cs.freqOf l := by
      apply h.sorted.sublist
      rw [hlv]
      exact List.sublist_append_left l [v]
    exact lfuOrdered_fill (hxy ▸ hl) h.bounded h' hd hpos

/-- The sentinel's counter is zero, so no scan passes the tail. -/
lemma scanStops (hth : cs.links.Threads (LinePtr.head :: order ++ [LinePtr.tail]))
    (ht : LinePtr.tail ∉ order) (hs : (cs.lines .tail).freq = 0) (hl : order.length ≤ associativity)
    (c : LinePtr) : cs.ScanStops c := by
  obtain ⟨xs,ys,b,bs,hxy,hb,hr,-⟩ := scanLFU_spec (c := c) order (associativity+1) hth hs (by omega)
  have hlinked : cs.linked = order := hth.walk_eq order .head associativity ht hl
  refine ⟨b,?_,hr⟩
  have hmem : b ∈ ys ++ [LinePtr.tail] := by simp [hb]
  rw [hlinked,hxy,List.append_assoc]
  exact List.mem_append_right xs hmem

/-- The scan of a hit runs over the other lines, that of an insertion over the lines that
stay; both end. -/
theorem Sane.scansStop (h : cs.Sane) (hassoc : 0 < associativity) (op : SetOp) :
    cs.ScansStop op := by
  have htail : LinePtr.tail ∉ cs.linked := fun hm => (h.intact.not_sentinel hm).2 rfl
  have hcount := h.intact.count
  cases op with
  | access t offset isLoad =>
    intro c cs₁ hc hr
    have h₀ := Represents.touch t h.intact
    have hco : c ∈ cs.linked := (h.intact.indexed t c hc).1
    obtain ⟨cs₂,hr₂,hrel,hth⟩ := deleteNode_order _ h₀.threads h₀.nodes_nodup hco
    obtain rfl : cs₂ = cs₁ := by simpa [hr] using hr₂.symm
    apply scanStops hth (fun hm => htail (List.mem_of_mem_erase hm))
    · rw [hrel.freq]
      exact h₀.sentinel
    · have := List.length_erase_le (a := c) (l := cs.linked)
      omega
  | insert t offset isLoad out =>
    intro c out' cs₁ hr
    have h₀ := Represents.touch t h.intact
    have hfill : ∀ order : List LinePtr, c ≠ .tail → LinePtr.tail ∉ order →
        cs₁.links.Threads (LinePtr.head :: order ++ [LinePtr.tail]) →
        (cs₁.lines .tail).freq = 0 → order.length ≤ associativity →
        ((cs₁.mapAssign t c).modifyLine c fun l =>
          { l with addr := t, offset := offset, dirty := !isLoad, freq := 0 }).ScanStops c := by
      intro order hct hto hth hs hl
      refine scanStops ?_ hto ?_ hl c
      · have hl := (cs₁.mapAssign t c).modifyLine_links c (f := fun l =>
          { l with addr := t, offset := offset, dirty := !isLoad, freq := 0 })
          (fun _ => rfl) fun _ => rfl
        rw [hl]
        exact hth
      · simpa [hct.symm] using hs
    cases hf : cs.freeEntries with
    | cons d rest =>
      obtain ⟨rfl,-,rfl⟩ : d = c ∧ _ ∧ { cs.touch t with freeEntries := rest } = cs₁ := by
        simpa [takeLine,hf] using hr
      obtain ⟨i,-,rfl⟩ := h.intact.mem_objects (p := d) (by simp [hf])
      exact hfill cs.linked (by simp) htail h₀.threads h₀.sentinel (by omega)
    | nil =>
      obtain ⟨l,v,hlv⟩ := h.intact.exists_last hassoc hf
      obtain ⟨cs₂,hr₂,hrel,hth⟩ := takeLine_full (hlv ▸ h₀) (by simpa using hf) out
      obtain ⟨rfl,-,rfl⟩ : v = c ∧ _ ∧ cs₂ = cs₁ := by simpa [hr] using hr₂.symm
      refine hfill l (h.intact.not_sentinel (by simp [hlv])).2 (fun hm => htail ?_) hth ?_ ?_
      · rw [hlv]
        exact List.mem_append_left [v] hm
      · rw [hrel.freq]
        exact h₀.sentinel
      · rw [hlv,List.length_append] at hcount
        omega
  | evict t => trivial
  | flush => trivial

/-- The last line of the order is evicted, and none is below it. -/
theorem LfuOrdered.evictsRarest {cs : CacheSet associativity 2} (h : cs.LfuOrdered)
    (hs : cs.Intact) (hassoc : 0 < associativity) (op : SetOp) : cs.EvictsRarest op := by
  cases op with
  | access t offset isLoad => trivial
  | insert t offset isLoad out =>
    intro hf
    obtain ⟨v,l,cs',xs,ys,hlv,hxy,hr,-,-,hfind,-⟩ :=
      insert_full (by omega) hassoc hs hf t offset isLoad out
    refine ⟨v,by simp [hlv],?_,cs',hr,fun u hu => by rw [hfind,if_neg hu]⟩
    have hsorted := h.sorted
    rw [hlv] at hsorted ⊢
    exact hsorted.last_le
  | evict t => trivial
  | flush => trivial

/-- One operation used as intended keeps the order. -/
theorem perform_lfu {cs cs' : CacheSet associativity 2} (hassoc : 0 < associativity)
    (hs : cs.Sane) (h : cs.LfuOrdered) {op : SetOp} (hadm : cs.Admissible op) {answer : SetAnswer}
    (hr : cs.perform op = .ok (answer,cs')) : cs'.LfuOrdered := by
  cases op with
  | access t offset isLoad =>
    obtain ⟨cs'',hr',-⟩ := access_contents (by omega) hs.intact t offset isLoad (by omega)
    obtain ⟨-,rfl⟩ : _ ∧ cs'' = cs' := by simpa [hr] using (perform_access hr').symm
    exact access_lfu hs.intact h t offset isLoad hr'
  | insert t offset isLoad out =>
    obtain ⟨cs'',c,out',hr',-⟩ :=
      insert_contents (by omega) hassoc hs.intact t offset isLoad out
    obtain ⟨-,rfl⟩ : _ ∧ cs'' = cs' := by simpa [hr] using (perform_insert hr').symm
    exact insert_lfu hassoc hs.intact h t offset isLoad out hr'
  | evict t =>
    obtain ⟨c,hc⟩ := Option.ne_none_iff_exists'.mp hadm.2
    obtain ⟨cs'',hr',h',-,-,hd⟩ := evict_spec hs.intact hc
    obtain ⟨-,rfl⟩ : _ ∧ cs'' = cs' := by simpa [hr] using (perform_evict hr').symm
    exact h.sublist h' List.erase_sublist hd
  | flush =>
    obtain ⟨cs'',hr',h',hd⟩ := flush_spec hs.intact
    obtain ⟨-,rfl⟩ : _ ∧ cs'' = cs' := by simpa [hr] using (perform_flush hr').symm
    exact h.sublist h' (List.nil_sublist _) hd

/-- In every run of operations used as intended nothing fails, the lines are in order of
frequency and no counter is at the maximum after every operation, every scan ends at the tail
at the latest, and every insertion into a full set evicts a line of least frequency. -/
theorem lfu_ordered (associativity : ℕ) (hassoc : 0 < associativity) (ops : List SetOp)
    (hadm : EachStep record (start associativity 2) ops fun _ s op => s.2.Admissible op) :
    Throughout record (start associativity 2) ops (fun _ s => s.2.LfuOrdered) ∧
      EachStep record (start associativity 2) ops fun _ s op =>
        s.2.ScansStop op ∧ s.2.EvictsRarest op := by
  have hrun : Throughout record (start associativity 2) ops fun _ s =>
      s.2.Sane ∧ s.2.LfuOrdered := by
    refine .of_steps ⟨new_sane,new_lfuOrdered⟩ (fun pre s op h hc => ?_) hadm
    obtain ⟨hs,hl⟩ := h
    obtain ⟨answer,cs',hr,hs'⟩ := hs.perform le_rfl hassoc hc (relinks_of_ne_one (by omega) op)
    exact ⟨_,record_of_perform hr,hs',perform_lfu hassoc hs hl hc hr⟩
  refine ⟨hrun.mono fun _ _ h => h.2,fun pre op hp s hs => ?_⟩
  obtain ⟨hsane,hl⟩ := hrun.reached pre ((List.prefix_append pre [op]).trans hp) s hs
  exact ⟨hsane.scansStop hassoc op,hl.evictsRarest hsane.intact hassoc op⟩

/-- Hits, an insertion into a full set, an eviction and a flush. -/
def frequencyOps : List SetOp :=
  [.insert 1 10 true {},.access 1 11 false,.insert 2 20 false {},.insert 3 30 true {},
    .access 3 31 true,.access 3 32 true,.evict 1,.insert 4 40 true {},.flush]

theorem lfu_ordered_frequencyOps :
    EachStep record (start 2 2) frequencyOps (fun _ s op => s.2.Admissible op) ∧
      Throughout record (start 2 2) frequencyOps (fun _ s => s.2.LfuOrdered) ∧
      EachStep record (start 2 2) frequencyOps fun _ s op =>
        s.2.ScansStop op ∧ s.2.EvictsRarest op := by
  have hadm : EachStep record (start 2 2) frequencyOps fun _ s op => s.2.Admissible op := by
    apply admissible_of_stepsMeet
    decide +kernel
  exact ⟨hadm,lfu_ordered 2 (by decide) _ hadm⟩

end CacheSet
end ElasticTranslations.Pcc
