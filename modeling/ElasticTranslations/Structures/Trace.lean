import Mathlib.Data.List.Induction
import Mathlib.Tactic.Common

/-! Runs of a step that can fail over a list of inputs. A run is observed at every prefix,
so an invariant, and the condition under which a step keeps it, may speak of the inputs
consumed so far. -/
namespace ElasticTranslations.Structures
variable {σ ι ε : Type*} {step : σ → ι → Except ε σ} {init : σ} {xs : List ι}

/-- A sequence of two computations went through where each of them did. -/
lemma bind_eq_ok {α β : Type _} {x : Except ε α} {f : α → Except ε β} {b : β}
    (h : x >>= f = .ok b) : ∃ a, x = .ok a ∧ f a = .ok b := by
  cases x with
  | error e => cases h
  | ok a => exact ⟨a,rfl,h⟩

lemma map_eq_ok {α β : Type _} {x : Except ε α} {f : α → β} {b : β} (h : f <$> x = .ok b) :
    ∃ a, x = .ok a ∧ f a = b := by
  cases x with
  | error e => cases h
  | ok a => exact ⟨a,rfl,Except.ok.inj h⟩

lemma map_eq_error {α β : Type _} {x : Except ε α} {f : α → β} {e : ε} (h : f <$> x = .error e) :
    x = .error e := by
  cases x with
  | error e' => rw [Except.error.inj h]
  | ok a => cases h

lemma foldlM_snoc (step : σ → ι → Except ε σ) (init : σ) (xs : List ι) (x : ι) :
    (xs ++ [x]).foldlM step init = xs.foldlM step init >>= fun s => step s x := by
  rw [List.foldlM_append]
  exact bind_congr fun s => by simp

lemma foldlM_snoc_ok {s : σ} (h : xs.foldlM step init = .ok s) (x : ι) :
    (xs ++ [x]).foldlM step init = step s x := by
  rw [foldlM_snoc,h]; rfl

/-- The prefix before a place in a list. -/
lemma exists_prefix_snoc {n : ℕ} (hn : n < xs.length) :
    ∃ pre x, pre ++ [x] <+: xs ∧ pre.length = n := by
  refine ⟨xs.take n,xs[n],?_,by rw [List.length_take]; omega⟩
  rw [← List.take_succ_eq_append_getElem hn]
  exact List.take_prefix _ _

/-- The state after every prefix of the inputs has the property. -/
def Throughout (step : σ → ι → Except ε σ) (init : σ) (xs : List ι) (P : List ι → σ → Prop) :
    Prop :=
  ∀ pre, pre <+: xs → ∃ s, pre.foldlM step init = .ok s ∧ P pre s

/-- Every step of the run is taken under the condition. -/
def EachStep (step : σ → ι → Except ε σ) (init : σ) (xs : List ι)
    (C : List ι → σ → ι → Prop) : Prop :=
  ∀ pre x, pre ++ [x] <+: xs → ∀ s, pre.foldlM step init = .ok s → C pre s x

lemma EachStep.mono {C D : List ι → σ → ι → Prop} (h : ∀ pre s x, C pre s x → D pre s x)
    (hC : EachStep step init xs C) : EachStep step init xs D :=
  fun pre x hp s hs => h pre s x (hC pre x hp s hs)

lemma EachStep.and {C D : List ι → σ → ι → Prop} (hC : EachStep step init xs C)
    (hD : EachStep step init xs D) : EachStep step init xs fun pre s x => C pre s x ∧ D pre s x :=
  fun pre x hp s hs => ⟨hC pre x hp s hs,hD pre x hp s hs⟩

lemma EachStep.snoc {C : List ι → σ → ι → Prop} {x : ι} (hC : EachStep step init xs C)
    (hx : ∀ s, xs.foldlM step init = .ok s → C xs s x) : EachStep step init (xs ++ [x]) C := by
  intro pre y hp s hs
  rcases List.prefix_concat_iff.mp hp with he | hp
  · obtain ⟨rfl,hy⟩ := List.append_inj' he rfl
    obtain rfl : y = x := by simpa using hy
    exact hx s hs
  · exact hC pre y hp s hs

lemma eachStep_snoc_iff {C : List ι → σ → ι → Prop} {x : ι} {s : σ}
    (hs : xs.foldlM step init = .ok s) :
    EachStep step init (xs ++ [x]) C ↔ EachStep step init xs C ∧ C xs s x := by
  constructor
  · intro h
    refine ⟨fun pre y hp => h pre y (hp.trans (List.prefix_append xs [x])),?_⟩
    exact h xs x (List.prefix_refl _) s hs
  · rintro ⟨h,hx⟩
    apply h.snoc
    intro t ht
    obtain rfl : s = t := by simpa [hs] using ht
    exact hx

lemma Throughout.mono {P Q : List ι → σ → Prop} (h : ∀ pre s, P pre s → Q pre s)
    (hP : Throughout step init xs P) : Throughout step init xs Q := fun pre hp => by
  obtain ⟨s,hs,hPs⟩ := hP pre hp
  exact ⟨s,hs,h pre s hPs⟩

/-- What holds at the start and is kept by the steps of the run holds throughout. -/
theorem Throughout.of_steps {I : List ι → σ → Prop} {C : List ι → σ → ι → Prop}
    (hinit : I [] init)
    (hstep : ∀ pre s x, I pre s → C pre s x → ∃ s', step s x = .ok s' ∧ I (pre ++ [x]) s')
    (hC : EachStep step init xs C) : Throughout step init xs I := by
  intro pre
  induction pre using List.reverseRecOn with
  | nil => exact fun _ => ⟨init,rfl,hinit⟩
  | append_singleton pre x ih =>
    intro hp
    obtain ⟨s,hs,hI⟩ := ih ((List.prefix_append pre [x]).trans hp)
    obtain ⟨s',hs',hI'⟩ := hstep pre s x hI (hC pre x hp s hs)
    exact ⟨s',(foldlM_snoc_ok hs x).trans hs',hI'⟩

/-- An invariant that every step keeps. -/
theorem Throughout.of_invariant {I : List ι → σ → Prop} (hinit : I [] init)
    (hstep : ∀ pre s x, I pre s → ∃ s', step s x = .ok s' ∧ I (pre ++ [x]) s') (xs : List ι) :
    Throughout step init xs I :=
  .of_steps (C := fun _ _ _ => True) hinit (fun pre s x h _ => hstep pre s x h)
    fun _ _ _ _ _ => trivial

lemma Throughout.final {P : List ι → σ → Prop} (h : Throughout step init xs P) :
    ∃ s, xs.foldlM step init = .ok s ∧ P xs s := h xs (List.prefix_refl xs)

/-- A test of the last state of a run. -/
def endsWith (step : σ → ι → Except ε σ) (init : σ) (xs : List ι) (test : σ → Bool) : Bool :=
  match xs.foldlM step init with
  | .ok s => test s
  | .error _ => false

lemma exists_of_endsWith (step : σ → ι → Except ε σ) (init : σ) (xs : List ι) (test : σ → Bool)
    (h : endsWith step init xs test = true) :
    ∃ s, xs.foldlM step init = .ok s ∧ test s = true := by
  unfold endsWith at h
  split at h
  · exact ⟨_,‹_›,h⟩
  · cases h

lemma Throughout.meets {P : List ι → σ → Prop} (h : Throughout step init xs P) (test : σ → Bool)
    (ht : endsWith step init xs test = true) :
    ∃ s, xs.foldlM step init = .ok s ∧ P xs s ∧ test s = true := by
  obtain ⟨s,hs,hP⟩ := h.final
  obtain ⟨s',hs',ht'⟩ := exists_of_endsWith step init xs test ht
  obtain rfl : s = s' := Except.ok.inj (hs.symm.trans hs')
  exact ⟨s,hs,hP,ht'⟩

/-- A test of every step of a run. -/
def stepsMeet (step : σ → ι → Except ε σ) (test : σ → ι → Bool) : σ → List ι → Bool
  | _,[] => true
  | s,x :: xs => test s x && match step s x with
    | .ok s' => stepsMeet step test s' xs
    | .error _ => true

lemma EachStep.of_stepsMeet (test : σ → ι → Bool) (h : stepsMeet step test init xs = true) :
    EachStep step init xs fun _ s x => test s x = true := by
  induction xs generalizing init with
  | nil => exact fun pre x hp => absurd (List.prefix_nil.mp hp) (by simp)
  | cons y ys ih =>
    simp only [stepsMeet,Bool.and_eq_true] at h
    intro pre x hp s hs
    cases pre with
    | nil =>
      obtain rfl : init = s := by simpa [pure,Except.pure] using hs
      obtain ⟨rfl,-⟩ := List.cons_prefix_cons.mp hp
      exact h.1
    | cons z pre =>
      obtain ⟨rfl,hp'⟩ := List.cons_prefix_cons.mp hp
      rw [List.foldlM_cons] at hs
      obtain ⟨t,hz,hs⟩ := bind_eq_ok hs
      simp only [hz] at h
      exact ih h.2 pre x hp' s hs

/-- Every state that the run reaches has the property; the run may stop early. -/
def Reached (step : σ → ι → Except ε σ) (init : σ) (xs : List ι) (P : List ι → σ → Prop) : Prop :=
  ∀ pre, pre <+: xs → ∀ s, pre.foldlM step init = .ok s → P pre s

lemma Throughout.reached {P : List ι → σ → Prop} (h : Throughout step init xs P) :
    Reached step init xs P := fun pre hp s hs => by
  obtain ⟨t,ht,hP⟩ := h pre hp
  obtain rfl : t = s := by simpa [ht] using hs
  exact hP

/-- A step after a prefix that went through. -/
lemma foldlM_snoc_inv {s' : σ} {x : ι} (h : (xs ++ [x]).foldlM step init = .ok s') :
    ∃ s, xs.foldlM step init = .ok s ∧ step s x = .ok s' := by
  rw [foldlM_snoc] at h
  exact bind_eq_ok h

/-- What holds at the start and is kept by the steps that go through holds of every state
reached. -/
theorem Reached.of_steps {I : List ι → σ → Prop} {C : List ι → σ → ι → Prop} (hinit : I [] init)
    (hstep : ∀ pre s x, I pre s → C pre s x → ∀ s', step s x = .ok s' → I (pre ++ [x]) s')
    (hC : EachStep step init xs C) : Reached step init xs I := by
  intro pre
  induction pre using List.reverseRecOn with
  | nil =>
    intro _ s hs
    obtain rfl : init = s := by simpa [pure,Except.pure] using hs
    exact hinit
  | append_singleton pre x ih =>
    intro hp s' hs'
    obtain ⟨s,hs,hx⟩ := foldlM_snoc_inv hs'
    exact hstep pre s x (ih ((List.prefix_append pre [x]).trans hp) s hs) (hC pre x hp s hs) s' hx

/-- Steps have a property in a whole run exactly when they are taken under the condition
that ensures it, if the first step outside the condition misses the property. -/
theorem eachStep_iff {I : List ι → σ → Prop} {C Q : List ι → σ → ι → Prop} (hinit : I [] init)
    (hstep : ∀ pre s x, I pre s → C pre s x →
      Q pre s x ∧ ∀ s', step s x = .ok s' → I (pre ++ [x]) s')
    (hfail : ∀ pre s x, I pre s → ¬ C pre s x → ¬ Q pre s x) :
    EachStep step init xs Q ↔ EachStep step init xs C := by
  constructor
  · intro hQ
    have hI : Reached step init xs I := by
      refine Reached.of_steps (C := Q) hinit (fun pre s x h hq => ?_) hQ
      have hC : C pre s x := by_contra fun hC => hfail pre s x h hC hq
      exact (hstep pre s x h hC).2
    intro pre x hp s hs
    have hIs := hI pre ((List.prefix_append pre [x]).trans hp) s hs
    exact by_contra fun hC => hfail pre s x hIs hC (hQ pre x hp s hs)
  · intro hC pre x hp s hs
    have hIs := Reached.of_steps hinit (fun pre s x h hc => (hstep pre s x h hc).2) hC pre
      ((List.prefix_append pre [x]).trans hp) s hs
    exact (hstep pre s x hIs (hC pre x hp s hs)).1

/-- The same for a property of states. -/
theorem throughout_iff {I P : List ι → σ → Prop} {C : List ι → σ → ι → Prop} (hinit : I [] init)
    (hIP : ∀ pre s, I pre s → P pre s)
    (hstep : ∀ pre s x, I pre s → C pre s x → ∃ s', step s x = .ok s' ∧ I (pre ++ [x]) s')
    (hfail : ∀ pre s x, I pre s → ¬ C pre s x → ∃ s', step s x = .ok s' ∧ ¬ P (pre ++ [x]) s') :
    Throughout step init xs P ↔ EachStep step init xs C := by
  refine ⟨fun hP => ?_,fun hC => (Throughout.of_steps hinit hstep hC).mono hIP⟩
  rw [← eachStep_iff (Q := fun pre s x => ∀ s', step s x = .ok s' → P (pre ++ [x]) s') hinit]
  · intro pre x hp s hs s' hs'
    obtain ⟨t,ht,hPt⟩ := hP (pre ++ [x]) hp
    rw [foldlM_snoc_ok hs,hs'] at ht
    obtain rfl : s' = t := by simpa using ht
    exact hPt
  · intro pre s x hI hC
    obtain ⟨s',hs',hI'⟩ := hstep pre s x hI hC
    have hall : ∀ t, step s x = .ok t → I (pre ++ [x]) t := fun t ht => by
      obtain rfl : s' = t := by simpa [hs'] using ht
      exact hI'
    exact ⟨fun t ht => hIP _ _ (hall t ht),hall⟩
  · intro pre s x hI hC hQ
    obtain ⟨s',hs',hP'⟩ := hfail pre s x hI hC
    exact hP' (hQ s' hs')

/-- Conditions on a run may be read off a run that carries more along. -/
theorem eachStep_project {τ : Type*} {step' : τ → ι → Except ε τ} {init' : τ} (proj : τ → σ)
    {C : List ι → σ → ι → Prop}
    (hrun : Throughout step' init' xs fun pre t => pre.foldlM step init = .ok (proj t)) :
    EachStep step' init' xs (fun pre t x => C pre (proj t) x) ↔ EachStep step init xs C := by
  constructor
  · intro h pre x hp s hs
    obtain ⟨t,ht,hts⟩ := hrun pre ((List.prefix_append pre [x]).trans hp)
    obtain rfl : proj t = s := by simpa [hts] using hs
    exact h pre x hp t ht
  · intro h pre x hp t ht
    obtain ⟨t',ht',hts⟩ := hrun pre ((List.prefix_append pre [x]).trans hp)
    obtain rfl : t' = t := by simpa [ht'] using ht
    exact h pre x hp (proj t') hts

/-- One party of a run: if its own inputs, taken under the condition, lead both the run and a
run of its own inputs alone from related states to related ones, and the inputs of others do
not show, then the run is related to that of its own inputs alone. -/
theorem Throughout.filtered {τ : Type*} {solo : τ → ι → τ} {start : τ} {own : ι → Bool}
    {R : σ → τ → Prop} {C : List ι → σ → ι → Prop} (hinit : R init start)
    (hown : ∀ pre s t x, R s t → C pre s x → own x = true →
      ∃ s', step s x = .ok s' ∧ R s' (solo t x))
    (hother : ∀ s t x, R s t → own x = false → ∃ s', step s x = .ok s' ∧ R s' t)
    (hC : EachStep step init xs C) :
    Throughout step init xs fun pre s => R s ((pre.filter own).foldl solo start) := by
  refine .of_steps hinit (fun pre s x hR hc => ?_) hC
  cases hx : own x with
  | true =>
    obtain ⟨s',hs',hR'⟩ := hown pre s _ x hR hc hx
    exact ⟨s',hs',by simpa [List.filter_append,hx] using hR'⟩
  | false =>
    obtain ⟨s',hs',hR'⟩ := hother s _ x hR hx
    exact ⟨s',hs',by simpa [List.filter_append,hx] using hR'⟩

/-- A step that cannot fail. -/
def total (step : σ → ι → σ) : σ → ι → Except Empty σ := fun s x => .ok (step s x)

end ElasticTranslations.Structures
