import ElasticTranslations.Epochs.Steps

/-! The order of the loads of one instance. Its jobs load one at a time and in the order of
their snapshots as long as every `flock` of a job finds the lock free; a `flock` that finds it
held by another job of the instance succeeds all the same and breaks the order. -/
namespace ElasticTranslations.Epochs
open Function (update)
open Structures
variable {ι Line Digest : Type}

/-- The load of a job into the CA table comes right before its load into the khuge table. -/
def Load.Before (l l' : Load) : Prop :=
  l.snapshot < l'.snapshot ∨ l.snapshot = l'.snapshot ∧ l.table = .ca ∧ l'.table = .khuge

instance (l l' : Load) : Decidable (l.Before l') := by unfold Load.Before; infer_instance

/-- At most one job of the instance is in its locked section, and no load comes after one of
a later snapshot. -/
structure Instance.InOrder (i : Instance Line Digest) : Prop where
  exclusive : ∀ s t, i.inSection s = true → i.inSection t = true → s = t
  increasing : i.loads.Pairwise Load.Before

/-- What a job in its section knows of the number its instance wrote last. -/
def Stage.Numbered (written s : ℕ) : Stage Line Digest → Prop
  | .mark => written ≤ s
  | .loadCa | .loadKhuge | .unlockLoaded => written = s
  | _ => True

lemma Stage.Numbered.of_inSection_eq_false {st : Stage Line Digest} (h : st.inSection = false)
    (written s : ℕ) : st.Numbered written s := by
  cases st with
  | mark | loadCa | loadKhuge | unlockLoaded => cases h
  | preparing | lock | check | unlockOlder | finished => trivial

namespace World

/-- If the next step is a `flock` of a job of the instance, the lock is free. -/
def LockFree (w : World ι Line Digest) (a : ι) (e : Event ι) : Prop :=
  e.owner = a → w.standing e = some .lock → w.holder = none

instance [DecidableEq ι] [DecidableEq Line] [DecidableEq Digest] (w : World ι Line Digest)
    (a : ι) (e : Event ι) : Decidable (w.LockFree a e) :=
  inferInstanceAs (Decidable (_ → _ → _))

/-- If the next step is the test of `.lockfile` by a job of the instance, it comes out as it
would on the number the instance last wrote. -/
def OwnNumber (w : World ι Line Digest) (a : ι) : Event ι → Prop
  | .main _ => True
  | .job b s => b = a → (w.inst b).jobs s = some .check →
      (s < w.number ↔ s < (w.inst a).written)

instance [DecidableEq ι] [DecidableEq Line] [DecidableEq Digest] (w : World ι Line Digest)
    (a : ι) : ∀ e : Event ι, Decidable (w.OwnNumber a e)
  | .main _ => inferInstanceAs (Decidable True)
  | .job b s => inferInstanceAs (Decidable (b = a → _ → (s < w.number ↔ _)))

/-- The order of one instance, whatever the others do. -/
structure Ordered (w : World ι Line Digest) (a : ι) : Prop extends (w.inst a).InOrder where
  idle : (w.inst a).main ≠ .looping → (w.inst a).snapshot = 0
  spawned : ∀ s st, (w.inst a).jobs s = some st → s < (w.inst a).snapshot
  holds : w.holder = some a ↔ ∃ s, (w.inst a).inSection s = true
  numbered : ∀ s st, (w.inst a).jobs s = some st → st.Numbered (w.inst a).written s
  loaded : ∀ l ∈ (w.inst a).loads, l.snapshot ≤ (w.inst a).written ∧
    (w.inst a).hasLoaded l.table l.snapshot = true

variable {w w' : World ι Line Digest} {a : ι} {s : ℕ} {st st' : Stage Line Digest}

lemma initial_ordered (found : ℕ) (a : ι) : (initial ι Line Digest found).Ordered a where
  idle := fun _ => rfl
  spawned := fun s st h => by cases h
  exclusive := fun s t h => by cases h
  holds := by simp [initial,Instance.inSection]
  numbered := fun s st h => by cases h
  loaded := fun l h => by cases h
  increasing := List.Pairwise.nil

/-- The order depends on the instance and its hold on the lock only. -/
lemma Ordered.congr (h : w.Ordered a) (hi : w'.inst a = w.inst a)
    (hh : w'.holder = some a ↔ w.holder = some a) : w'.Ordered a where
  idle := hi ▸ h.idle
  spawned := hi ▸ h.spawned
  exclusive := hi ▸ h.exclusive
  holds := hi ▸ hh.trans h.holds
  numbered := hi ▸ h.numbered
  loaded := hi ▸ h.loaded
  increasing := hi ▸ h.increasing

/-- Before the main loop starts a job there is none. -/
lemma Ordered.no_job (h : w.Ordered a) (hm : (w.inst a).main ≠ .looping) (s : ℕ) :
    (w.inst a).jobs s = none := by
  cases hs : (w.inst a).jobs s with
  | none => rfl
  | some st => exact absurd (h.idle hm ▸ h.spawned s st hs) (Nat.not_lt_zero s)

/-- The next job is new. -/
lemma Ordered.not_started (h : w.Ordered a) :
    (w.inst a).jobs (w.inst a).snapshot = none := by
  by_contra hj
  obtain ⟨st,hst⟩ := Option.ne_none_iff_exists'.mp hj
  exact Nat.lt_irrefl _ (h.spawned _ st hst)

lemma Ordered.looping (h : w.Ordered a) (hs : (w.inst a).jobs s = some st) :
    (w.inst a).main = .looping := by
  by_contra hm
  rw [h.no_job hm] at hs
  cases hs

lemma Ordered.no_load (h : w.Ordered a) (hm : (w.inst a).main ≠ .looping) :
    (w.inst a).loads = [] := by
  apply List.eq_nil_iff_forall_not_mem.mpr
  intro l hl
  have hj := (h.loaded l hl).2
  simp [Instance.hasLoaded,h.no_job hm] at hj

/-- Nobody but the job of snapshot `s` is in the section. -/
lemma Ordered.alone (h : w.Ordered a) (hs : (w.inst a).inSection s = true ∨ w.holder = none)
    {t : ℕ} (ht : t ≠ s) : (w.inst a).inSection t = false := by
  apply Bool.eq_false_iff.mpr
  intro hin
  rcases hs with hs | hs
  · exact ht (h.exclusive t s hin hs)
  · exact absurd (h.holds.mpr ⟨t,hin⟩) (by simp [hs])

/-- A job starts outside the section, or moves there. -/
lemma Ordered.quiet (h : w.Ordered a) (hst : (w.inst a).inSection s = false)
    (hl : ∀ table, (w.inst a).hasLoaded table s = false) (hst' : st'.inSection = false)
    (hidle : (w'.inst a).main ≠ .looping → (w'.inst a).snapshot = 0)
    (hsnapshot : (w.inst a).snapshot ≤ (w'.inst a).snapshot) (hlt : s < (w'.inst a).snapshot)
    (hjobs : (w'.inst a).jobs = update (w.inst a).jobs s (some st'))
    (hwritten : (w'.inst a).written = (w.inst a).written)
    (hloads : (w'.inst a).loads = (w.inst a).loads) (hh : w'.holder = w.holder) :
    w'.Ordered a := by
  have hin : ∀ t, (w'.inst a).inSection t = (w.inst a).inSection t := by
    intro t
    rw [Instance.inSection_of_jobs hjobs]
    split_ifs with ht
    · rw [ht,hst,hst']
    · rfl
  refine ⟨⟨?_,hloads ▸ h.increasing⟩,hidle,?_,?_,?_,?_⟩
  · simpa only [hin] using h.exclusive
  · intro t u ht
    rw [hjobs,Function.update_apply] at ht
    split_ifs at ht with hts
    · exact hts ▸ hlt
    · exact (h.spawned t u ht).trans_le hsnapshot
  · simpa only [hin,hh] using h.holds
  · intro t u ht
    rw [hjobs,Function.update_apply] at ht
    rw [hwritten]
    split_ifs at ht with hts
    · cases ht; exact .of_inSection_eq_false hst' _ _
    · exact h.numbered t u ht
  · intro l hl'
    rw [hloads] at hl'
    obtain ⟨hle,hj⟩ := h.loaded l hl'
    refine ⟨hwritten ▸ hle,?_⟩
    rw [Instance.hasLoaded_of_jobs hjobs]
    split_ifs with hls
    · rw [hls,hl] at hj; cases hj
    · exact hj

/-- A job that is alone enters the section, moves in it, or leaves it. -/
lemma Ordered.move (h : w.Ordered a) (hs : (w.inst a).jobs s = some st)
    (halone : st.inSection = true ∨ w.holder = none)
    (hmain : (w'.inst a).main = (w.inst a).main)
    (hsnapshot : (w'.inst a).snapshot = (w.inst a).snapshot)
    (hjobs : (w'.inst a).jobs = update (w.inst a).jobs s (some st'))
    (hholds : w'.holder = some a ↔ st'.inSection = true)
    (hnum : st'.Numbered (w'.inst a).written s)
    (hloaded : ∀ l ∈ (w'.inst a).loads, l.snapshot ≤ (w'.inst a).written ∧
      (w'.inst a).hasLoaded l.table l.snapshot = true)
    (hincreasing : (w'.inst a).loads.Pairwise Load.Before) : w'.Ordered a := by
  have hother : ∀ t, t ≠ s → (w.inst a).inSection t = false := fun t =>
    h.alone (halone.imp_left fun hst => by simpa [Instance.inSection,hs] using hst)
  have hin : ∀ t, (w'.inst a).inSection t = true ↔ t = s ∧ st'.inSection = true := by
    intro t
    rw [Instance.inSection_of_jobs hjobs]
    split_ifs with ht
    · simp [ht]
    · simp [ht,hother t ht]
  refine ⟨⟨?_,hincreasing⟩,?_,?_,?_,?_,hloaded⟩
  · intro t u ht hu
    rw [((hin t).mp ht).1,((hin u).mp hu).1]
  · exact hmain ▸ hsnapshot ▸ h.idle
  · intro t u ht
    rw [hjobs,Function.update_apply] at ht
    rw [hsnapshot]
    split_ifs at ht with hts
    · exact hts ▸ h.spawned s st hs
    · exact h.spawned t u ht
  · simp only [hin,hholds,exists_eq_left]
  · intro t u ht
    rw [hjobs,Function.update_apply] at ht
    split_ifs at ht with hts
    · cases ht; exact hts ▸ hnum
    · refine .of_inSection_eq_false ?_ _ _
      simpa [Instance.inSection,ht] using hother t hts

/-- The loads of an instance stand when a job moves on and the number grows. -/
lemma Ordered.loaded_of_jobs (h : w.Ordered a) (hs : (w.inst a).jobs s = some st)
    (hl : ∀ table, st.hasLoaded table = true → st'.hasLoaded table = true)
    {i : Instance Line Digest} (hjobs : i.jobs = update (w.inst a).jobs s (some st'))
    (hw : (w.inst a).written ≤ i.written) :
    ∀ l ∈ (w.inst a).loads, l.snapshot ≤ i.written ∧ i.hasLoaded l.table l.snapshot = true := by
  intro l hl'
  obtain ⟨hle,hj⟩ := h.loaded l hl'
  refine ⟨hle.trans hw,?_⟩
  rw [Instance.hasLoaded_of_jobs hjobs]
  split_ifs with hls
  · exact hl _ (by simpa [Instance.hasLoaded,hls,hs] using hj)
  · exact hj

/-- A job that is alone moves without a load. -/
lemma Ordered.goto (h : w.Ordered a) (hs : (w.inst a).jobs s = some st)
    (halone : st.inSection = true ∨ w.holder = none) {n : ℕ} (hn : (w.inst a).written ≤ n)
    (hi : w'.inst a = {w.inst a with written := n}.goto s st')
    (hholds : w'.holder = some a ↔ st'.inSection = true) (hnum : st'.Numbered n s)
    (hl : ∀ table, st.hasLoaded table = true → st'.hasLoaded table = true) : w'.Ordered a := by
  refine h.move hs halone ?_ ?_ ?_ hholds ?_ ?_ ?_ <;> rw [hi]
  · rfl
  · rfl
  · rfl
  · exact hnum
  · exact h.loaded_of_jobs hs hl rfl hn
  · exact h.increasing

/-- The job whose number was written last makes a load: it comes after all others. -/
lemma Ordered.load (h : w.Ordered a) (hs : (w.inst a).jobs s = some st)
    (halone : st.inSection = true) (hw : (w.inst a).written = s) {c : Settings} {table : Table}
    (hi : w'.inst a = ((w.inst a).load c table s).goto s st')
    (hholds : w'.holder = some a ↔ st'.inSection = true) (hnum : st'.Numbered s s)
    (hl : ∀ u, st.hasLoaded u = true → st'.hasLoaded u = true) (ht : st'.hasLoaded table = true)
    (hbefore : ∀ u, st.hasLoaded u = true → u = .ca ∧ table = .khuge) : w'.Ordered a := by
  refine h.move hs (Or.inl halone) ?_ ?_ ?_ hholds ?_ ?_ ?_ <;> rw [hi]
  · rfl
  · rfl
  · rfl
  · exact hw ▸ hnum
  · intro l hl'
    rcases List.mem_append.mp hl' with hl' | hl'
    · exact h.loaded_of_jobs hs hl (i := ((w.inst a).load c table s).goto s st') rfl le_rfl l hl'
    · obtain rfl := List.mem_singleton.mp hl'
      exact ⟨hw.ge,by simpa [Instance.hasLoaded] using ht⟩
  · refine List.pairwise_append.mpr ⟨h.increasing,List.pairwise_singleton _ _,fun l hl' k hk => ?_⟩
    obtain rfl := List.mem_singleton.mp hk
    obtain ⟨hle,hj⟩ := h.loaded l hl'
    rcases (hle.trans_eq hw).lt_or_eq with hlt | heq
    · exact Or.inl hlt
    · exact Or.inr ⟨heq,hbefore _ (by simpa [Instance.hasLoaded,heq,hs] using hj)⟩

lemma ownNumber_of_eq (h : w.number = (w.inst a).written) (e : Event ι) : w.OwnNumber a e := by
  cases e with
  | main b => trivial
  | job b s => exact fun _ _ => by rw [h]

variable [DecidableEq ι]

/-- A step of the main loop keeps the order. -/
lemma Ordered.keeps_mainLoop (h : w.Ordered a) (S : Setup ι Line Digest) :
    (mainLoop S a w).Ordered a := by
  have hstart : (w.inst a).main ≠ .looping → ∀ m : MainStage,
      (({w with number := 0} : World ι Line Digest).setInst a
        {w.inst a with main := m,written := 0}).Ordered a := by
    intro hm m
    have hj := h.no_job hm
    refine ⟨⟨?_,?_⟩,?_,?_,?_,?_,?_⟩ <;> simp [Instance.inSection,hj,h.no_load hm,h.idle hm]
    simpa [Instance.inSection,hj] using h.holds
  unfold mainLoop
  cases hm : (w.inst a).main with
  | start | opened => exact hstart (by simp [hm]) _
  | looping =>
    have hnone := h.not_started
    have hreport : (Stage.preparing (.report (S.perfReport a (w.inst a).snapshot)) :
        Stage Line Digest).inSection = false := rfl
    refine h.quiet (s := (w.inst a).snapshot) (by simp [Instance.inSection,hnone])
      (by simp [Instance.hasLoaded,hnone])  hreport ?_ ?_ ?_ ?_ ?_ ?_ ?_ <;> simp [hm]

variable [DecidableEq Digest]

/-- Under a free lock and a faithful number the steps of a job keep the order. -/
lemma Ordered.keeps_profile (h : w.Ordered a) (S : Setup ι Line Digest)
    (hs : (w.inst a).jobs s = some st) (hf : w.LockFree a (.job a s))
    (hn : w.OwnNumber a (.job a s)) : (profile S a s w st).Ordered a := by
  have hin : (w.inst a).inSection s = st.inSection := by simp [Instance.inSection,hs]
  have hld : ∀ table, (w.inst a).hasLoaded table s = st.hasLoaded table := fun table => by
    simp [Instance.hasLoaded,hs]
  have hlt := h.spawned s st hs
  have hhold : st.inSection = true → w.holder = some a := fun hst => h.holds.mpr ⟨s,hin.trans hst⟩
  cases st with
  | preparing p =>
    obtain ⟨st',hst',-,hg⟩ := prepare_generates S a s (w.inst a) p
    refine h.quiet hin (fun table => hld table) hst' ?_ ?_ ?_ ?_ ?_ ?_ rfl <;>
      simp [profile,hg.main,hg.snapshot,hg.jobs,hg.written,hg.loads,hlt]
    exact h.idle
  | lock =>
    have hfree := hf rfl hs
    simp only [profile,hfree,true_or,if_true]
    exact h.goto hs (Or.inr hfree) le_rfl (goto_inst_self _ _ _ _) (iff_of_true rfl rfl) trivial
      (fun _ hu => absurd hu Bool.false_ne_true)
  | check =>
    have hnum : ¬ s < w.number → (w.inst a).written ≤ s := fun hlt =>
      not_lt.mp fun h => hlt ((hn rfl hs).mpr h)
    simp only [profile]
    split_ifs with hold
    · exact h.goto hs (Or.inl rfl) le_rfl (goto_inst_self _ _ _ _)
        (iff_of_true (hhold rfl) rfl) trivial (fun _ hu => absurd hu Bool.false_ne_true)
    · exact h.goto hs (Or.inl rfl) le_rfl (goto_inst_self _ _ _ _)
        (iff_of_true (hhold rfl) rfl) (hnum hold) (fun _ hu => absurd hu Bool.false_ne_true)
  | mark =>
    exact h.goto hs (Or.inl rfl) (h.numbered s _ hs) (setInst_inst_self _ _ _)
      (iff_of_true (hhold rfl) rfl) rfl (fun _ hu => absurd hu Bool.false_ne_true)
  | loadCa =>
    exact h.load hs rfl (h.numbered s _ hs) (setInst_inst_self _ _ _)
      (iff_of_true (hhold rfl) rfl) rfl (fun _ hu => absurd hu Bool.false_ne_true) rfl
      (fun _ hu => absurd hu Bool.false_ne_true)
  | loadKhuge =>
    exact h.load hs rfl (h.numbered s _ hs) (setInst_inst_self _ _ _)
      (iff_of_true (hhold rfl) rfl) rfl (fun _ _ => rfl) rfl
      (fun _ hu => ⟨of_decide_eq_true hu,rfl⟩)
  | unlockOlder =>
    exact h.goto hs (Or.inl rfl) le_rfl (goto_inst_self _ _ _ _)
      (iff_of_false (w.release_holder_self a) Bool.false_ne_true) trivial
      (fun _ hu => absurd hu Bool.false_ne_true)
  | unlockLoaded =>
    exact h.goto hs (Or.inl rfl) le_rfl (goto_inst_self _ _ _ _)
      (iff_of_false (w.release_holder_self a) Bool.false_ne_true) trivial (fun _ _ => rfl)
  | finished e => exact h

/-- Every step keeps the order under the two conditions. -/
theorem Ordered.keeps_step (h : w.Ordered a) (S : Setup ι Line Digest) {e : Event ι}
    (hf : w.LockFree a e) (hn : w.OwnNumber a e) : (step S w e).Ordered a := by
  by_cases he : e.owner = a
  · cases e with
    | main b => exact (show b = a from he) ▸ h.keeps_mainLoop S
    | job b s =>
      obtain rfl : b = a := he
      simp only [step]
      cases hs : (w.inst b).jobs s with
      | none => exact h
      | some st => exact h.keeps_profile S hs hf hn
  · obtain ⟨hi,hh⟩ := step_other S w he
    exact h.congr hi hh

/-- A job that takes the lock from another job of the instance joins it in the section. -/
lemma Ordered.not_inOrder (h : w.Ordered a) (S : Setup ι Line Digest) {e : Event ι}
    (hother : ∀ b, w.holder = some b → b = a) (hf : ¬ w.LockFree a e) :
    ¬ ((step S w e).inst a).InOrder := by
  simp only [LockFree,Classical.not_imp] at hf
  obtain ⟨he,hs,hne⟩ := hf
  cases e with
  | main b => cases hs
  | job b s =>
    obtain rfl : b = a := he
    obtain ⟨c,hc⟩ := Option.ne_none_iff_exists'.mp hne
    obtain rfl := hother c hc
    obtain ⟨t,ht⟩ := h.holds.mp hc
    have hs' : (w.inst c).jobs s = some .lock := hs
    have hts : t ≠ s := fun hts => by simp [Instance.inSection,hts,hs',Stage.inSection] at ht
    intro ho
    simp only [step,hs',profile,hc,or_true,if_true,goto_inst_self] at ho
    exact hts (ho.exclusive t s (by rw [Instance.goto_inSection,if_neg hts,ht])
      (by rw [Instance.goto_inSection,if_pos rfl]; rfl))

/-- Alone, an instance finds in `.lockfile` what it wrote last. -/
lemma step_solo_number [Subsingleton ι] (S : Setup ι Line Digest) (e : Event ι) (a : ι)
    (h : w.number = (w.inst a).written) :
    (step S w e).number = ((step S w e).inst a).written := by
  obtain rfl := Subsingleton.elim e.owner a
  rcases step_number S w e with ⟨hn,hw⟩ | hn
  · rw [hn,hw,h]
  · exact hn

end World

open World
variable [DecidableEq Digest]

/-- The jobs of one instance load their hints one at a time and in the order of their
snapshots, in every state of a run, exactly when every `flock` of the run finds the lock
free. -/
theorem inOrder_iff (S : Setup Unit Line Digest) (found : ℕ) (es : List (Event Unit)) :
    Throughout (total (step S)) (initial Unit Line Digest found) es
        (fun _ w => (w.inst ()).InOrder) ↔
      EachStep (total (step S)) (initial Unit Line Digest found) es
        fun _ w e => w.LockFree () e := by
  refine throughout_iff (I := fun _ w => w.Ordered () ∧ w.number = (w.inst ()).written)
    ⟨initial_ordered found (),rfl⟩ (fun _ _ h => h.1.toInOrder)
    (fun _ w e h hf => ⟨step S w e,rfl,h.1.keeps_step S hf (ownNumber_of_eq h.2 e),
      step_solo_number S e () h.2⟩)
    fun _ w e h hf => ⟨step S w e,rfl,h.1.not_inOrder S (fun _ _ => rfl) hf⟩

/-- Every line of a report names a 2 MiB page, and `leshy` hints the pages of an epoch. -/
def pageHints (ι : Type) : Setup ι ℕ (List Hint) where
  settings := fun _ => {
    argument := "btree"
    leshyInterval := 5
    khugePages := 4096
    khugeSleep := 1000}
  perfReport := fun _ s => [s]
  leshy := fun _ _ epoch => epoch.map fun n => ⟨n*2^21,(n + 1)*2^21⟩
  sha256sum := id

/-- Job 1 loads its hints between the two loads of job 0, and ends up below its older ones. -/
theorem not_inOrder_after_overlap :
    ¬ ∀ (S : Setup Unit ℕ (List Hint)) found es,
      Throughout (total (step S)) (initial Unit ℕ (List Hint) found) es
        fun _ w => (w.inst ()).InOrder := by
  intro h
  obtain ⟨w,-,ho,ht⟩ := (h (pageHints Unit) 0 (.replicate 4 (.main ()) ++
      .replicate 13 (.job () 0) ++ .replicate 18 (.job () 1) ++ [.job () 0])).meets
    (fun w => !decide ((w.inst ()).loads.Pairwise Load.Before)) (by decide +kernel)
  simp [ho.increasing] at ht

end ElasticTranslations.Epochs
