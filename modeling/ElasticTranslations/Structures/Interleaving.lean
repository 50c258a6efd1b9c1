import Mathlib.Algebra.Ring.Nat
import Mathlib.Data.List.Range
import Mathlib.Tactic.Common

/-! Threads that take turns on a state which they share. In a turn, one of those that are not done
yet takes a step; which one is up to whoever gives the turns. -/
namespace ElasticTranslations.Structures
universe u
variable {σ τ : Type u}

structure Team (σ τ : Type u) where
  shared : σ
  threads : List τ

section Parts
variable {t t' : τ} {pre post : List τ} {P Q : τ → Prop}

/-- What all threads have is kept, if it is for the one that took a step. -/
lemma forall_turn (h : ∀ a ∈ pre++t :: post,P a) (ht : P t → Q t')
    (hothers : ∀ a ∈ pre++post,P a → Q a) : ∀ a ∈ pre++t' :: post,Q a := by
  intro a ha
  rcases List.mem_append.mp ha with ha | ha
  · exact hothers a (by simp [ha]) (h a (by simp [ha]))
  · rcases List.mem_cons.mp ha with rfl | ha
    · exact ht (h t (by simp))
    · exact hothers a (by simp [ha]) (h a (by simp [ha]))

lemma exists_turn (h : ∃ a ∈ pre++t :: post,P a) (ht : P t → Q t')
    (hothers : ∀ a ∈ pre++post,P a → Q a) : ∃ a ∈ pre++t' :: post,Q a := by
  obtain ⟨a,ha,hP⟩ := h
  rcases List.mem_append.mp ha with ha | ha
  · exact ⟨a,by simp [ha],hothers a (by simp [ha]) hP⟩
  · rcases List.mem_cons.mp ha with rfl | ha
    · exact ⟨t',by simp,ht hP⟩
    · exact ⟨a,by simp [ha],hothers a (by simp [ha]) hP⟩

/-- What one of the threads has, for a step that changes none of it. -/
lemma exists_turn_iff (ht : P t' ↔ P t) :
    (∃ a ∈ pre++t' :: post,P a) ↔ ∃ a ∈ pre++t :: post,P a :=
  ⟨fun h => exists_turn h ht.mp fun _ _ ha => ha,fun h => exists_turn h ht.mpr fun _ _ ha => ha⟩

/-- What is still to be done is done, or one of the threads will do it. -/
lemma or_exists_turn {D D' : Prop} (h : D ∨ ∃ a ∈ pre++t :: post,P a) (hD : D → D')
    (ht : P t → D' ∨ P t') : D' ∨ ∃ a ∈ pre++t' :: post,P a := by
  by_cases hdone : D'
  · exact .inl hdone
  · have hex := h.resolve_left fun hd => hdone (hD hd)
    exact .inr (exists_turn hex (fun hP => (ht hP).resolve_left hdone) fun _ _ ha => ha)

/-- What the threads own is not shared. -/
lemma disjoint_of_nodup_flatMap {α : Type*} {owned : τ → List α}
    (h : ((pre++t :: post).flatMap owned).Nodup) {a : τ} (ha : a ∈ pre++post) {x : α}
    (hx : x ∈ owned a) : x ∉ owned t := by
  intro hxt
  rw [List.flatMap_append,List.flatMap_cons,List.nodup_append,List.nodup_append] at h
  obtain ⟨-,⟨-,-,hpost⟩,hpre⟩ := h
  rcases List.mem_append.mp ha with ha | ha
  · exact hpre x (List.mem_flatMap.mpr ⟨a,ha,hx⟩) x (by simp [hxt]) rfl
  · exact hpost x hxt x (List.mem_flatMap.mpr ⟨a,ha,hx⟩) rfl

lemma sum_turn_lt (f : τ → ℕ) (hlt : f t' < f t) :
    ((pre++t' :: post).map f).sum < ((pre++t :: post).map f).sum := by
  simp only [List.map_append,List.map_cons,List.sum_append,List.sum_cons]
  omega

/-- A step may cost the others a bit, if it gains enough. -/
lemma sum_le_sum_add {f f' : τ → ℕ} {k : ℕ} (h : ∀ a,f' a ≤ f a+k) (l : List τ) :
    (l.map f').sum ≤ (l.map f).sum+l.length*k := by
  induction l with
  | nil => simp
  | cons a l ih =>
    have := h a
    rw [List.map_cons,List.map_cons,List.sum_cons,List.sum_cons,List.length_cons,Nat.succ_mul]
    omega

end Parts

namespace Team
variable (step : σ → τ → Option (σ × τ)) (done : τ → Bool)

/-- The places of the threads that are not done. -/
def waiting (ts : List τ) : List ℕ :=
  (List.range ts.length).filter fun i => (ts[i]?.map done) == some false

def turn (s : Team σ τ) (i : ℕ) : Option (Team σ τ) := do
  let t ← s.threads[i]?
  let (shared,t) ← step s.shared t
  some ⟨shared,s.threads.set i t⟩

/-- `turns` says which of the waiting threads is the next one. -/
def run (turns : ℕ → ℕ) : ℕ → Team σ τ → Option (Team σ τ)
  | 0,s => if waiting done s.threads = [] then some s else none
  | fuel+1,s =>
    match (waiting done s.threads)[turns fuel % (waiting done s.threads).length]? with
    | none => some s
    | some i => do
      let s ← turn step s i
      run turns fuel s

section Rules
variable {done} {ts : List τ} {i : ℕ}

lemma mem_waiting : i ∈ waiting done ts ↔ ∃ t,ts[i]? = some t ∧ done t = false := by
  rw [waiting,List.mem_filter,List.mem_range,beq_iff_eq,Option.map_eq_some_iff]
  constructor
  · exact And.right
  · rintro ⟨t,ht,hdone⟩
    exact ⟨(List.getElem?_eq_some_iff.mp ht).1,t,ht,hdone⟩

lemma waiting_eq_nil_iff : waiting done ts = [] ↔ ∀ t ∈ ts,done t = true := by
  rw [List.eq_nil_iff_forall_not_mem]
  constructor
  · intro h t ht
    obtain ⟨i,hi⟩ := List.mem_iff_getElem?.mp ht
    by_contra hdone
    exact h i (mem_waiting.mpr ⟨t,hi,by simpa using hdone⟩)
  · intro h i hi
    obtain ⟨t,ht,hdone⟩ := mem_waiting.mp hi
    rw [h t (List.mem_iff_getElem?.mpr ⟨i,ht⟩)] at hdone
    cases hdone

lemma exists_parts {t : τ} (ht : ts[i]? = some t) :
    ∃ pre post,ts = pre++t :: post ∧ ∀ t',ts.set i t' = pre++t' :: post := by
  obtain ⟨hi,rfl⟩ := List.getElem?_eq_some_iff.mp ht
  refine ⟨ts.take i,ts.drop (i+1),?_,fun t' => ?_⟩
  · rw [List.getElem_cons_drop,List.take_append_drop]
  · rw [List.set_eq_take_append_cons_drop,if_pos hi]

/-- Whoever gets the turns: what each step of a thread keeps holds once all threads are done, and
they get done if each step leaves less to do. -/
lemma run_rule (step : σ → τ → Option (σ × τ)) (done : τ → Bool) (I : σ → List τ → Prop)
    (μ : σ → List τ → ℕ)
    (hstep : ∀ s pre t post,I s (pre++t :: post) → done t = false →
      ∃ s' t',step s t = some (s',t') ∧ I s' (pre++t' :: post) ∧
        μ s' (pre++t' :: post) < μ s (pre++t :: post))
    (turns : ℕ → ℕ) {fuel : ℕ} {s : Team σ τ} (h : I s.shared s.threads)
    (hfuel : μ s.shared s.threads ≤ fuel) :
    ∃ s',run step done turns fuel s = some s' ∧ I s'.shared s'.threads ∧
      ∀ t ∈ s'.threads,done t = true := by
  induction fuel generalizing s with
  | zero =>
    have hnone : waiting done s.threads = [] := by
      rw [List.eq_nil_iff_forall_not_mem]
      intro i hi
      obtain ⟨t,ht,hdone⟩ := mem_waiting.mp hi
      obtain ⟨pre,post,hparts,-⟩ := exists_parts ht
      rw [hparts] at h hfuel
      obtain ⟨s',t',-,-,hlt⟩ := hstep s.shared pre t post h hdone
      omega
    exact ⟨s,by rw [run,if_pos hnone],h,waiting_eq_nil_iff.mp hnone⟩
  | succ fuel ih =>
    cases hnext : (waiting done s.threads)[turns fuel % (waiting done s.threads).length]? with
    | none =>
      have hnone : waiting done s.threads = [] := by
        by_contra hne
        have hpos := List.length_pos_iff.mpr hne
        rw [List.getElem?_eq_getElem (Nat.mod_lt _ hpos)] at hnext
        cases hnext
      exact ⟨s,by simp [run,hnext],h,waiting_eq_nil_iff.mp hnone⟩
    | some i =>
      obtain ⟨t,ht,hdone⟩ := mem_waiting.mp (List.mem_iff_getElem?.mpr ⟨_,hnext⟩)
      obtain ⟨pre,post,hparts,hset⟩ := exists_parts ht
      rw [hparts] at h hfuel
      obtain ⟨shared,t',hs',hI,hlt⟩ := hstep s.shared pre t post h hdone
      have hturn : turn step s i = some ⟨shared,pre++t' :: post⟩ := by
        simp only [turn,ht,hs',hset,Option.bind_eq_bind,Option.bind_some]
      obtain ⟨s'',hrun,hrest⟩ := ih (s := ⟨shared,pre++t' :: post⟩) hI (by
        change μ shared (pre++t' :: post) ≤ fuel
        omega)
      exact ⟨s'',by simp only [run,hnext,hturn,Option.bind_eq_bind,Option.bind_some,hrun],hrest⟩

end Rules

end Team

end ElasticTranslations.Structures
