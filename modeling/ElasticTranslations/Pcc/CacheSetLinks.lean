import ElasticTranslations.Pcc.CacheSet

/-! What the pointer operations of a set do to its list: every one keeps `prev` and `next`
consistent from the head sentinel to the tail sentinel, and none writes a data field that
the source does not write. -/
namespace ElasticTranslations.Pcc
open Structures

@[simp] lemma deref_some (p : LinePtr) : deref (some p) = .ok p := rfl
@[simp] lemma assertNonNull_some (p : LinePtr) : assertNonNull (some p) = .ok p := rfl

-- Not `rfl` lemmas: `simp` then records the rewrite and the kernel does not run the step again.
@[simp] lemma ok_bind {α β : Type} (x : α) (f : α → Except Fault β) :
    ((Except.ok x : Except Fault α) >>= f) = f x := by rfl
@[simp] lemma pure_ok {α : Type} (x : α) : (pure x : Except Fault α) = .ok x := by rfl

/-- The fields of a line other than its two links. -/
structure LineData where
  addr : UInt64
  offset : UInt64
  dirty : Bool
  freq : ℕ

def CacheLine.data (l : CacheLine) : LineData := ⟨l.addr,l.offset,l.dirty,l.freq⟩

/-- The data of a line after a decay. -/
def LineData.decayed (d : LineData) : LineData := { d with freq := d.freq/2 }

namespace CacheSet
variable {associativity policy : ℕ} {cs cs' cs'' : CacheSet associativity policy}

def links (cs : CacheSet associativity policy) : Links LinePtr :=
  ⟨fun p => (cs.lines p).next,fun p => (cs.lines p).prev⟩

@[simp] lemma links_next (p : LinePtr) : cs.links.next p = (cs.lines p).next := rfl
@[simp] lemma links_prev (p : LinePtr) : cs.links.prev p = (cs.lines p).prev := rfl

@[simp] lemma modifyLine_lines (p q : LinePtr) (f : CacheLine → CacheLine) :
    (cs.modifyLine p f).lines q = if q = p then f (cs.lines p) else cs.lines q := by
  simp [modifyLine,Function.update_apply]
@[simp] lemma modifyLine_freeEntries (p : LinePtr) (f : CacheLine → CacheLine) :
    (cs.modifyLine p f).freeEntries = cs.freeEntries := rfl

/-- Writing to the data of a line leaves the links alone. -/
lemma modifyLine_links (cs : CacheSet associativity policy) (p : LinePtr)
    {f : CacheLine → CacheLine} (hn : ∀ l, (f l).next = l.next) (hp : ∀ l, (f l).prev = l.prev) :
    (cs.modifyLine p f).links = cs.links := by
  have hnext : ∀ q, ((cs.modifyLine p f).lines q).next = (cs.lines q).next := fun q => by
    rw [modifyLine_lines]
    split_ifs with hq
    · rw [hn,hq]
    · rfl
  have hprev : ∀ q, ((cs.modifyLine p f).lines q).prev = (cs.lines q).prev := fun q => by
    rw [modifyLine_lines]
    split_ifs with hq
    · rw [hp,hq]
    · rfl
  simp only [links,hnext,hprev]

@[simp] lemma setNext_next (p q : LinePtr) (v : Option LinePtr) :
    ((cs.setNext p v).lines q).next = if q = p then v else (cs.lines q).next := by
  simp only [setNext,modifyLine_lines]; split_ifs <;> rfl
@[simp] lemma setNext_prev (p q : LinePtr) (v : Option LinePtr) :
    ((cs.setNext p v).lines q).prev = (cs.lines q).prev := by
  simp only [setNext,modifyLine_lines]; split_ifs with h <;> simp [h]
@[simp] lemma setPrev_prev (p q : LinePtr) (v : Option LinePtr) :
    ((cs.setPrev p v).lines q).prev = if q = p then v else (cs.lines q).prev := by
  simp only [setPrev,modifyLine_lines]; split_ifs <;> rfl
@[simp] lemma setPrev_next (p q : LinePtr) (v : Option LinePtr) :
    ((cs.setPrev p v).lines q).next = (cs.lines q).next := by
  simp only [setPrev,modifyLine_lines]; split_ifs with h <;> simp [h]

/-- `cs'` is `cs` with other links. -/
structure Relinked (cs cs' : CacheSet associativity policy) : Prop where
  freeEntries : cs'.freeEntries = cs.freeEntries
  addrMap : cs'.addrMap = cs.addrMap
  data : ∀ p, (cs'.lines p).data = (cs.lines p).data

lemma Relinked.trans (h : Relinked cs cs') (h' : Relinked cs' cs'') : Relinked cs cs'' :=
  ⟨h'.1.trans h.1,h'.2.trans h.2,fun p => (h'.3 p).trans (h.3 p)⟩

lemma Relinked.find (h : Relinked cs cs') (t : UInt64) : cs'.find t = cs.find t := by
  simp [CacheSet.find,h.addrMap]

lemma Relinked.addr (h : Relinked cs cs') (p : LinePtr) :
    (cs'.lines p).addr = (cs.lines p).addr := congrArg LineData.addr (h.data p)
lemma Relinked.freq (h : Relinked cs cs') (p : LinePtr) :
    (cs'.lines p).freq = (cs.lines p).freq := congrArg LineData.freq (h.data p)

lemma relinked_setNext (p : LinePtr) (v : Option LinePtr) : Relinked cs (cs.setNext p v) := by
  refine ⟨rfl,rfl,fun q => ?_⟩
  simp only [setNext,modifyLine_lines]
  split_ifs with h
  · subst h; rfl
  · rfl

lemma relinked_setPrev (p : LinePtr) (v : Option LinePtr) : Relinked cs (cs.setPrev p v) := by
  refine ⟨rfl,rfl,fun q => ?_⟩
  simp only [setPrev,modifyLine_lines]
  split_ifs with h
  · subst h; rfl
  · rfl

/-- A line with neighbours on both sides leaves the list; neither assertion fails. -/
theorem deleteNode_spec {xs ys : List LinePtr} {a c b : LinePtr}
    (h : cs.links.Threads (xs ++ a :: c :: b :: ys)) (hnd : (xs ++ a :: c :: b :: ys).Nodup) :
    ∃ cs', cs.deleteNode c = .ok cs' ∧ Relinked cs cs' ∧
      cs'.links.Threads (xs ++ a :: b :: ys) := by
  obtain ⟨hp,hn⟩ := h.around
  simp only [links_prev,links_next] at hp hn
  refine ⟨(cs.setNext a (some b)).setPrev b (some a),?_,?_,?_⟩
  · simp [deleteNode,hp,hn]
  · exact (relinked_setNext a _).trans (relinked_setPrev b _)
  · refine (h.unlink hnd).congr (fun x _ => ?_) (fun x _ => ?_)
    · simp
    · simp

/-- A line outside the list is linked in front of `b`. -/
theorem linkBefore_spec {xs ys : List LinePtr} {a c b : LinePtr}
    (h : cs.links.Threads (xs ++ a :: b :: ys)) (hnd : (xs ++ a :: c :: b :: ys).Nodup) :
    ∃ cs', cs.linkBefore c b = .ok cs' ∧ Relinked cs cs' ∧
      cs'.links.Threads (xs ++ a :: c :: b :: ys) := by
  have hb : (cs.lines b).prev = some a := (Links.threads_seam.mp h).2.1.2
  have hne : c ≠ a ∧ c ≠ b ∧ a ≠ b := by
    simp only [List.nodup_append,List.nodup_cons,List.mem_cons] at hnd
    grind
  obtain ⟨hca,hcb,hab⟩ := hne
  refine ⟨(((cs.setNext c (some b)).setPrev c (some a)).setPrev b (some c)).setNext a (some c),
    ?_,?_,?_⟩
  · simp [linkBefore,hb,hcb]
  · exact (((relinked_setNext c _).trans (relinked_setPrev c _)).trans
      (relinked_setPrev b _)).trans (relinked_setNext a _)
  · refine h.insert xs hnd ⟨?_,?_⟩ ⟨?_,?_⟩ (fun x hxa hxc => ?_) (fun x hxb hxc => ?_)
    · simp
    · simp [hcb]
    · simp [hca]
    · simp
    · simp [hxa,hxc]
    · simp [hxb,hxc]

/-- `insertFront` links a line in front of the node after the head. -/
theorem insertFront_spec {ys : List LinePtr} {a c b : LinePtr}
    (h : cs.links.Threads (a :: b :: ys)) (hnd : (a :: c :: b :: ys).Nodup) :
    ∃ cs', cs.insertFront c a = .ok cs' ∧ Relinked cs cs' ∧
      cs'.links.Threads (a :: c :: b :: ys) := by
  have hb : (cs.lines a).next = some b := h.next_eq
  have hne : c ≠ a ∧ c ≠ b := by
    simp only [List.nodup_cons,List.mem_cons] at hnd
    grind
  obtain ⟨hca,hcb⟩ := hne
  refine ⟨(((cs.setNext c (some b)).setPrev c (some a)).setNext a (some c)).setPrev b (some c),
    ?_,?_,?_⟩
  · simp [insertFront,hb,hca]
  · exact (((relinked_setNext c _).trans (relinked_setPrev c _)).trans
      (relinked_setNext a _)).trans (relinked_setPrev b _)
  · refine Links.Threads.insert [] h hnd ⟨?_,?_⟩ ⟨?_,?_⟩ (fun x hxa hxc => ?_)
      (fun x hxb hxc => ?_)
    · simp
    · simp [hcb]
    · simp [hca]
    · simp
    · simp [hxa,hxc]
    · simp [hxb,hxc]

/-- The scan of `insertLFU` passes the nodes of higher frequency and stops in front of the
first other one, which is the tail sentinel at the latest. -/
theorem scanLFU_spec {c a : LinePtr} (order : List LinePtr) (n : ℕ)
    (h : cs.links.Threads (a :: order ++ [.tail])) (ht : (cs.lines .tail).freq = 0)
    (hn : order.length < n) :
    ∃ xs ys b bs, order = xs ++ ys ∧ ys ++ [LinePtr.tail] = b :: bs ∧
      cs.scanLFU c n (cs.lines a).next = .ok b ∧
      (∀ p ∈ xs, (cs.lines c).freq < (cs.lines p).freq) ∧
      (cs.lines b).freq ≤ (cs.lines c).freq := by
  induction order generalizing a n with
  | nil =>
    obtain ⟨n,rfl⟩ := Nat.exists_eq_add_one_of_ne_zero (Nat.ne_of_gt hn)
    have ha : (cs.lines a).next = some .tail := Links.Threads.next_eq h
    exact ⟨[],[],.tail,[],rfl,rfl,by simp [scanLFU,ha,ht],by simp,by simp [ht]⟩
  | cons p order ih =>
    obtain ⟨n,rfl⟩ := Nat.exists_eq_add_one_of_ne_zero (Nat.ne_of_gt (Nat.zero_lt_of_lt hn))
    have ha : (cs.lines a).next = some p := Links.Threads.next_eq h
    by_cases hp : (cs.lines c).freq < (cs.lines p).freq
    · obtain ⟨xs,ys,b,bs,he,hbs,hr,hxs,hb⟩ :=
        ih (a := p) n (Links.Threads.tail h) (by simpa using hn)
      refine ⟨p :: xs,ys,b,bs,by simp [he],hbs,by simpa [scanLFU,ha,hp] using hr,?_,hb⟩
      intro q hq
      rcases List.mem_cons.mp hq with rfl | hq
      · exact hp
      · exact hxs q hq
    · exact ⟨[],p :: order,p,order ++ [.tail],rfl,rfl,by simp [scanLFU,ha,hp],by simp,by omega⟩

/-- The scan of `insertHalf` passes some of the nodes and stops in front of another one,
which is the tail sentinel at the latest. -/
theorem scanHalf_spec {a : LinePtr} (order : List LinePtr) (n : ℕ)
    (h : cs.links.Threads (a :: order ++ [.tail])) (ht : LinePtr.tail ∉ order) :
    ∃ xs ys b bs, order = xs ++ ys ∧ ys ++ [LinePtr.tail] = b :: bs ∧
      cs.scanHalf n (cs.lines a).next = .ok b := by
  induction n generalizing a order with
  | zero =>
    obtain ⟨b,bs,hb⟩ := List.exists_cons_of_ne_nil (l := order ++ [LinePtr.tail]) (by simp)
    have ha : (cs.lines a).next = some b := by
      rw [List.cons_append,hb] at h
      exact h.next_eq
    exact ⟨[],order,b,bs,rfl,hb,by simp [scanHalf,ha]⟩
  | succ n ih =>
    cases order with
    | nil =>
      have ha : (cs.lines a).next = some .tail := Links.Threads.next_eq h
      exact ⟨[],[],.tail,[],rfl,rfl,by simp [scanHalf,ha]⟩
    | cons p order =>
      have ha : (cs.lines a).next = some p := Links.Threads.next_eq h
      have hp : p ≠ .tail := fun he => ht (by simp [he])
      obtain ⟨xs,ys,b,bs,he,hbs,hr⟩ := ih (a := p) order (Links.Threads.tail h)
        (fun hm => ht (List.mem_cons_of_mem p hm))
      exact ⟨p :: xs,ys,b,bs,by simp [he],hbs,by simpa [scanHalf,ha,hp] using hr⟩

/-- `decay_freqs` terminates and halves the frequency of exactly the linked lines. -/
theorem decayLoop_spec {a : LinePtr} (order : List LinePtr) (n : ℕ)
    (cs : CacheSet associativity policy) (h : cs.links.Threads (a :: order ++ [.tail]))
    (hnd : (a :: order).Nodup) (ht : LinePtr.tail ∉ order) (hn : order.length < n) :
    ∃ cs', decayLoop n (cs.lines a).next cs = .ok cs' ∧ cs'.freeEntries = cs.freeEntries ∧
      cs'.addrMap = cs.addrMap ∧ cs'.links = cs.links ∧
      ∀ p, (cs'.lines p).data = if p ∈ order then (cs.lines p).data.decayed
        else (cs.lines p).data := by
  induction order generalizing a n cs with
  | nil =>
    obtain ⟨n,rfl⟩ := Nat.exists_eq_add_one_of_ne_zero (Nat.ne_of_gt hn)
    have ha : (cs.lines a).next = some .tail := Links.Threads.next_eq h
    exact ⟨cs,by simp [decayLoop,ha],rfl,rfl,rfl,by simp⟩
  | cons p order ih =>
    obtain ⟨n,rfl⟩ := Nat.exists_eq_add_one_of_ne_zero (Nat.ne_of_gt (Nat.zero_lt_of_lt hn))
    have ha : (cs.lines a).next = some p := Links.Threads.next_eq h
    have hp : p ≠ .tail := fun he => ht (by simp [he])
    let cs₁ := cs.modifyLine p fun l => { l with freq := l.freq/2 }
    have hl₁ : cs₁.links = cs.links := cs.modifyLine_links p (fun _ => rfl) fun _ => rfl
    obtain ⟨hpo,hnd'⟩ := List.nodup_cons.mp (List.nodup_cons.mp hnd).2
    obtain ⟨cs',hr,hf,hm,hl,hd⟩ :=
      ih (a := p) n cs₁ (by rw [hl₁]; exact Links.Threads.tail h)
      (List.nodup_cons.mp hnd).2 (fun he => ht (List.mem_cons_of_mem p he)) (by simpa using hn)
    refine ⟨cs',?_,hf,hm,hl.trans hl₁,fun q => ?_⟩
    · simpa [decayLoop,ha,hp,cs₁] using hr
    · rw [hd q]
      by_cases hq : q = p
      · subst hq
        simp [hpo,cs₁,CacheLine.data,LineData.decayed]
      · simp [hq,cs₁]

end CacheSet
end ElasticTranslations.Pcc
