import ElasticTranslations.Epochs.LoadOrder

/-! The samples that a job hands to `leshy`: those of its own snapshot, and those of the snapshot
before as far as the other job has written them. They are whole exactly when the `cat` of the
other dump came after the end of its `perf report`; nothing in the script makes it wait. -/
namespace ElasticTranslations.Epochs
open Function (update)
open Structures
variable {ι Line Digest : Type}

/-- What the epoch of a snapshot should hold, given the reports of all snapshots. -/
def samples (report : ℕ → List Line) (s : ℕ) : List Line :=
  report s ++ if s = 0 then [] else report (s-1)

/-- `perf report` has written all its lines. -/
def Stage.reported : Stage Line Digest → Bool
  | .preparing (.report rest) => rest.isEmpty
  | _ => true

/-- The job has not yet put its epoch together. -/
def Stage.collecting : Stage Line Digest → Bool
  | .preparing (.report _) | .preparing .catOwn | .preparing .catPrev => true
  | _ => false

namespace Instance

def reported (i : Instance Line Digest) (s : ℕ) : Bool := (i.jobs s).any Stage.reported

/-- The files of a job by where it stands. `read` says that its `cat` of the dump before, if it
has been run, found that dump written. -/
def Collects (i : Instance Line Digest) (report : ℕ → List Line) (read : Prop) (s : ℕ) :
    Option (Stage Line Digest) → Prop
  | none => i.dump s = [] ∧ i.epoch s = [] ∧ read
  | some (.preparing (.report rest)) => i.dump s ++ rest = report s ∧ i.epoch s = [] ∧ read
  | some (.preparing .catOwn) => i.dump s = report s ∧ i.epoch s = [] ∧ read
  | some (.preparing .catPrev) => s ≠ 0 ∧ i.dump s = report s ∧ i.epoch s = report s ∧ read
  | some _ => i.dump s = report s ∧ (i.epoch s = samples report s ↔ read)

/-- The jobs have been started in order, and account for their dumps and epochs. -/
structure Collecting (i : Instance Line Digest) (report : ℕ → List Line) (read : ℕ → Prop) :
    Prop where
  idle : i.main ≠ .looping → i.snapshot = 0
  spawned : ∀ t, i.jobs t = none ↔ i.snapshot ≤ t
  files : ∀ s, i.Collects report (read s) s (i.jobs s)

variable {i i' : Instance Line Digest} {report : ℕ → List Line} {read read' : ℕ → Prop} {s : ℕ}
  {st st' : Stage Line Digest}

lemma Collects.congr {p q : Prop} {o : Option (Stage Line Digest)}
    (h : i.Collects report p s o) (hd : i'.dump s = i.dump s) (he : i'.epoch s = i.epoch s)
    (hpq : p ↔ q) : i'.Collects report q s o := by
  obtain rfl : p = q := propext hpq
  revert h
  unfold Collects
  split <;> (rw [hd,he]; exact id)

lemma collects_of_not_collecting {p : Prop} (hst : st.collecting = false) :
    i.Collects report p s (some st) ↔
      i.dump s = report s ∧ (i.epoch s = samples report s ↔ p) := by
  cases st with
  | preparing p => cases p with
    | report | catOwn | catPrev => cases hst
    | epochTest | leshy | fullTest | filter | hintsTest | digest | digestPrev => exact Iff.rfl
  | lock | check | mark | loadCa | loadKhuge | unlockOlder | unlockLoaded | finished =>
    exact Iff.rfl

/-- A dump is whole when its job is past the report. -/
lemma Collecting.dump_eq_iff (h : i.Collecting report read) (hs : i.jobs s = some st) :
    i.dump s = report s ↔ i.reported s = true := by
  have hfiles := h.files s
  rw [hs] at hfiles
  simp only [reported,hs,Option.any_some]
  by_cases hst : st.collecting = true
  · cases st with
    | preparing p => cases p with
      | report rest =>
        obtain ⟨hdump,-,-⟩ := hfiles
        rw [← hdump]
        simp [Stage.reported]
      | catOwn => exact ⟨fun _ => rfl,fun _ => hfiles.1⟩
      | catPrev => exact ⟨fun _ => rfl,fun _ => hfiles.2.1⟩
      | epochTest | leshy | fullTest | filter | hintsTest | digest | digestPrev => cases hst
    | lock | check | mark | loadCa | loadKhuge | unlockOlder | unlockLoaded | finished => cases hst
  · have hdump := ((collects_of_not_collecting (Bool.eq_false_iff.mpr hst)).mp hfiles).1
    refine ⟨fun _ => ?_,fun _ => hdump⟩
    cases st with
    | preparing p => cases p with
      | report => exact absurd rfl hst
      | catOwn | catPrev | epochTest | leshy | fullTest | filter | hintsTest | digest
      | digestPrev => rfl
    | lock | check | mark | loadCa | loadKhuge | unlockOlder | unlockLoaded | finished => rfl

/-- A job moves on, and writes only to its own files. -/
lemma Collecting.move (h : i.Collecting report read) (hs : i.jobs s = some st)
    (hmain : i'.main = i.main) (hsnapshot : i'.snapshot = i.snapshot)
    (hjobs : i'.jobs = update i.jobs s (some st'))
    (hdump : ∀ t,t ≠ s → i'.dump t = i.dump t) (hepoch : ∀ t,t ≠ s → i'.epoch t = i.epoch t)
    (hread : ∀ t,t ≠ s → (read t ↔ read' t))
    (hst' : i'.Collects report (read' s) s (some st')) : i'.Collecting report read' where
  idle := by
    rw [hmain,hsnapshot]
    exact h.idle
  spawned := fun t => by
    rw [hjobs,hsnapshot,← h.spawned t]
    by_cases ht : t = s
    · subst ht
      simp [hs]
    · rw [Function.update_of_ne ht]
  files := fun t => by
    rw [hjobs]
    by_cases ht : t = s
    · subst ht
      rwa [Function.update_self]
    · rw [Function.update_of_ne ht]
      exact (h.files t).congr (hdump t ht) (hepoch t ht) (hread t ht)

end Instance

section Steps
variable [DecidableEq Digest] {i : Instance Line Digest} {read read' : ℕ → Prop} {s : ℕ}
  {st : Stage Line Digest}
open Instance

/-- A step before the epoch is put together, and the `cat` that decides whether it is whole. -/
lemma Instance.Collecting.keeps_prepare (S : Setup ι Line Digest) (a : ι)
    {p : Preparing Line Digest} (h : i.Collecting (S.perfReport a) read)
    (hs : i.jobs s = some (.preparing p))
    (hp : (Stage.preparing p : Stage Line Digest).collecting = true)
    (hread : ∀ t,read' t ↔
      read t ∧ (t = s → p = .catPrev → i.reported (s-1) = true)) :
    (prepare S a s i p).Collecting (S.perfReport a) read' := by
  have hothers : ∀ t,t ≠ s → (read t ↔ read' t) := fun t ht => by simp [hread,ht]
  have hfiles := h.files s
  rw [hs] at hfiles
  cases p with
  | report rest =>
    have hkeep : read' s ↔ read s := by simp [hread]
    obtain ⟨hdump,hepoch,hpast⟩ := hfiles
    cases rest with
    | nil =>
      refine h.move hs rfl rfl rfl (fun _ _ => rfl) (fun _ _ => rfl) hothers ?_
      rw [List.append_nil] at hdump
      exact ⟨hdump,hepoch,hkeep.mpr hpast⟩
    | cons line rest =>
      refine h.move hs rfl rfl rfl (fun t ht => Function.update_of_ne ht _ _) (fun _ _ => rfl)
        hothers ?_
      refine ⟨?_,hepoch,hkeep.mpr hpast⟩
      change update i.dump s (i.dump s ++ [line]) s ++ rest = S.perfReport a s
      rw [Function.update_self,List.append_assoc]
      exact hdump
  | catOwn =>
    have hkeep : read' s ↔ read s := by simp [hread]
    obtain ⟨hdump,hepoch,hpast⟩ := hfiles
    have hnew : update i.epoch s (i.epoch s ++ i.dump s) s = S.perfReport a s := by
      rw [Function.update_self,hepoch,hdump,List.nil_append]
    refine h.move hs rfl rfl rfl (fun _ _ => rfl) (fun t ht => Function.update_of_ne ht _ _)
      hothers ?_
    by_cases hzero : s = 0
    · rw [if_pos hzero]
      refine ⟨hdump,fun _ => hkeep.mpr hpast,fun _ => ?_⟩
      rw [samples,if_pos hzero,List.append_nil]
      exact hnew
    · rw [if_neg hzero]
      exact ⟨hzero,hdump,hnew,hkeep.mpr hpast⟩
  | catPrev =>
    obtain ⟨hzero,hdump,hepoch,hpast⟩ := hfiles
    refine h.move hs rfl rfl rfl (fun _ _ => rfl) (fun t ht => Function.update_of_ne ht _ _)
      hothers ?_
    refine ⟨hdump,?_⟩
    obtain ⟨st,hprev⟩ := Option.ne_none_iff_exists'.mp fun hnone =>
      absurd ((h.spawned (s-1)).mp hnone) (by
        have hstarted := mt (h.spawned s).mpr (by simp [hs])
        omega)
    have hnew : update i.epoch s (i.epoch s ++ i.dump (s-1)) s =
        S.perfReport a s ++ i.dump (s-1) := by rw [Function.update_self,hepoch]
    change update i.epoch s (i.epoch s ++ i.dump (s-1)) s = _ ↔ _
    rw [hnew,samples,if_neg hzero,List.append_cancel_left_eq,h.dump_eq_iff hprev,hread]
    simp [hpast]
  | epochTest | leshy | fullTest | filter | hintsTest | digest | digestPrev => cases hp

/-- Afterwards a job does not touch its dump and its epoch again. -/
lemma profile_keeps [DecidableEq ι] (S : Setup ι Line Digest) (a : ι) (w : World ι Line Digest)
    (hs : (w.inst a).jobs s = some st) (hst : st.collecting = false) :
    ∃ st',st'.collecting = false ∧
      ((profile S a s w st).inst a).jobs = update (w.inst a).jobs s (some st') ∧
      ((profile S a s w st).inst a).main = (w.inst a).main ∧
      ((profile S a s w st).inst a).snapshot = (w.inst a).snapshot ∧
      ((profile S a s w st).inst a).dump = (w.inst a).dump ∧
      ((profile S a s w st).inst a).epoch = (w.inst a).epoch := by
  cases st with
  | preparing p =>
    simp only [profile,World.setInst_inst_self]
    cases p with
    | report | catOwn | catPrev => cases hst
    | epochTest | fullTest | hintsTest | digestPrev =>
      refine ⟨_,?_,rfl,rfl,rfl,rfl,rfl⟩
      split_ifs <;> rfl
    | leshy | digest => exact ⟨_,rfl,rfl,rfl,rfl,rfl,rfl⟩
    | filter rest loops count =>
      cases rest with
      | nil => exact ⟨_,rfl,rfl,rfl,rfl,rfl,rfl⟩
      | cons line rest =>
        simp only [prepare]
        split_ifs <;> exact ⟨_,rfl,rfl,rfl,rfl,rfl,rfl⟩
  | lock =>
    simp only [profile]
    split_ifs
    · exact ⟨.check,rfl,by simp⟩
    · exact ⟨.finished .notLocked,rfl,by simp⟩
  | check =>
    simp only [profile,World.goto_inst_self]
    refine ⟨_,?_,rfl,rfl,rfl,rfl,rfl⟩
    split_ifs <;> rfl
  | mark | loadCa | loadKhuge =>
    simp only [profile,World.setInst_inst_self]
    exact ⟨_,rfl,rfl,rfl,rfl,rfl,rfl⟩
  | unlockOlder | unlockLoaded =>
    simp only [profile,World.goto_inst_self,World.release_inst]
    exact ⟨_,rfl,rfl,rfl,rfl,rfl,rfl⟩
  | finished e =>
    refine ⟨.finished e,rfl,?_,rfl,rfl,rfl,rfl⟩
    exact (Function.update_eq_self_iff.mpr hs.symm).symm

end Steps

namespace World
variable {w : World ι Line Digest} {a : ι} {read read' : ℕ → Prop}

/-- If the next step is the `cat` of the dump before by the job of this snapshot, that dump is
written. -/
def ReadsWritten (w : World ι Line Digest) (a : ι) (s : ℕ) (e : Event ι) : Prop :=
  e = .job a s → (w.inst a).jobs s = some (.preparing .catPrev) →
    (w.inst a).reported (s-1) = true

/-- If the next step is the `leshy` of a job of the instance, its epoch is whole. -/
def HandsWhole (w : World ι Line Digest) (report : ℕ → List Line) (a : ι) (e : Event ι) : Prop :=
  ∀ s,e = .job a s → (w.inst a).jobs s = some (.preparing .leshy) →
    (w.inst a).epoch s = samples report s

lemma initial_collecting (found : ℕ) (a : ι) (report : ℕ → List Line) {read : ℕ → Prop}
    (hread : ∀ s,read s) :
    ((initial ι Line Digest found).inst a).Collecting report read where
  idle := fun _ => rfl
  spawned := fun t => ⟨fun _ => Nat.zero_le t,fun _ => rfl⟩
  files := fun s => ⟨rfl,rfl,hread s⟩

variable [DecidableEq ι]

/-- The main loop starts the next job. -/
lemma collecting_mainLoop (S : Setup ι Line Digest)
    (h : (w.inst a).Collecting (S.perfReport a) read) :
    ((mainLoop S a w).inst a).Collecting (S.perfReport a) read := by
  unfold mainLoop
  cases hm : (w.inst a).main with
  | start | opened =>
    have hzero := h.idle (by simp [hm])
    simp only [setInst_inst_self]
    exact ⟨fun _ => hzero,h.spawned,fun s => (h.files s).congr rfl rfl Iff.rfl⟩
  | looping =>
    have hnone := (h.spawned (w.inst a).snapshot).mpr (Nat.le_refl _)
    have hnew := h.files (w.inst a).snapshot
    rw [hnone] at hnew
    obtain ⟨hdump,hepoch,hread⟩ := hnew
    simp only [setInst_inst_self]
    refine ⟨fun hne => absurd hm hne,fun t => ?_,fun t => ?_⟩
    · simp only [Instance.goto_jobs,Instance.goto_snapshot]
      by_cases ht : t = (w.inst a).snapshot
      · subst ht
        simp
      · rw [Function.update_of_ne ht,h.spawned t]
        omega
    · simp only [Instance.goto_jobs]
      by_cases ht : t = (w.inst a).snapshot
      · subst ht
        rw [Function.update_self]
        refine ⟨?_,hepoch,hread⟩
        change (w.inst a).dump (w.inst a).snapshot ++ _ = _
        rw [hdump,List.nil_append]
      · rw [Function.update_of_ne ht]
        exact (h.files t).congr rfl rfl Iff.rfl

variable [DecidableEq Digest]

/-- A step of a job that no longer reads its dumps. -/
lemma collecting_settled (S : Setup ι Line Digest) {s : ℕ} {st : Stage Line Digest}
    (h : (w.inst a).Collecting (S.perfReport a) read) (hs : (w.inst a).jobs s = some st)
    (hst : st.collecting = false)
    (hread : ∀ t,read' t ↔ read t ∧ w.ReadsWritten a t (.job a s)) :
    ((profile S a s w st).inst a).Collecting (S.perfReport a) read' := by
  have hsame : ∀ t,read t ↔ read' t := by
    intro t
    rw [hread]
    refine (and_iff_left ?_).symm
    intro ht hcat
    obtain rfl : s = t := (Event.job.inj ht).2
    obtain rfl : st = .preparing .catPrev := Option.some.inj (hs.symm.trans hcat)
    cases hst
  obtain ⟨st',hnext,hjobs,hmain,hsnapshot,hdump,hepoch⟩ := profile_keeps S a w hs hst
  refine h.move hs hmain hsnapshot hjobs (fun t _ => by rw [hdump])
    (fun t _ => by rw [hepoch]) (fun t _ => hsame t) ?_
  have hfiles := h.files s
  rw [hs,Instance.collects_of_not_collecting hst] at hfiles
  rw [Instance.collects_of_not_collecting hnext,hdump,hepoch,← hsame s]
  exact hfiles

/-- One step keeps the account; only a `cat` of the dump before adds to what has been read. -/
lemma collecting_step (S : Setup ι Line Digest) {e : Event ι}
    (h : (w.inst a).Collecting (S.perfReport a) read)
    (hread : ∀ t,read' t ↔ read t ∧ w.ReadsWritten a t e) :
    ((step S w e).inst a).Collecting (S.perfReport a) read' := by
  have hkeep : (∀ t,w.ReadsWritten a t e) → (w.inst a).Collecting (S.perfReport a) read' := by
    intro hall
    exact ⟨h.idle,h.spawned,fun s => (h.files s).congr rfl rfl (by simp [hread,hall s])⟩
  by_cases howner : e.owner = a
  · cases e with
    | main b =>
      obtain rfl : b = a := howner
      exact collecting_mainLoop S (hkeep fun t ht => by cases ht)
    | job b s =>
      obtain rfl : b = a := howner
      simp only [step]
      cases hs : (w.inst b).jobs s with
      | none =>
        apply hkeep
        intro t ht hcat
        obtain rfl : s = t := (Event.job.inj ht).2
        rw [hs] at hcat
        cases hcat
      | some st =>
        by_cases hst : st.collecting = true
        · cases st with
          | preparing p =>
            simp only [profile,setInst_inst_self]
            refine h.keeps_prepare S b hs hst fun t => ?_
            rw [hread]
            refine and_congr_right fun _ => ⟨fun hw hts hp => ?_,fun hp he hcat => ?_⟩
            · subst hts hp
              exact hw rfl hs
            · obtain rfl : s = t := (Event.job.inj he).2
              rw [hs] at hcat
              exact hp rfl (by simpa using hcat)
          | lock | check | mark | loadCa | loadKhuge | unlockOlder | unlockLoaded | finished =>
            cases hst
        · exact collecting_settled S h hs (Bool.eq_false_iff.mpr hst) hread
  · rw [(step_other S w howner).1]
    apply hkeep
    intro t ht
    subst ht
    exact absurd rfl howner

end World

section Runs
variable [DecidableEq ι] [DecidableEq Digest]
open World

/-- After every step the jobs account for what they have read in the run so far. -/
lemma collecting_throughout (S : Setup ι Line Digest) (found : ℕ) (a : ι) (es : List (Event ι)) :
    Throughout (total (step S)) (initial ι Line Digest found) es fun pre w =>
      pre.foldlM (total (step S)) (initial ι Line Digest found) = .ok w ∧
        (w.inst a).Collecting (S.perfReport a) fun s =>
          EachStep (total (step S)) (initial ι Line Digest found) pre
            fun _ w e => w.ReadsWritten a s e := by
  apply Throughout.of_invariant
  · refine ⟨rfl,initial_collecting found a _ fun s pre e hp => ?_⟩
    exact absurd (List.prefix_nil.mp hp) (by simp)
  · rintro pre w e ⟨hrun,hw⟩
    refine ⟨step S w e,rfl,foldlM_snoc_ok hrun e,collecting_step S hw fun s => ?_⟩
    exact eachStep_snoc_iff hrun

/-- The epochs handed to `leshy` in a run are whole exactly when every job that comes there has
found the dump before written when it ran its `cat`. -/
theorem handsWhole_iff (S : Setup ι Line Digest) (found : ℕ) (a : ι) (es : List (Event ι)) :
    EachStep (total (step S)) (initial ι Line Digest found) es
        (fun _ w e => w.HandsWhole (S.perfReport a) a e) ↔
      EachStep (total (step S)) (initial ι Line Digest found) es fun pre w e =>
        ∀ s,e = .job a s → (w.inst a).jobs s = some (.preparing .leshy) →
          EachStep (total (step S)) (initial ι Line Digest found) pre
            fun _ w e => w.ReadsWritten a s e := by
  have hiff : ∀ pre e,pre ++ [e] <+: es → ∀ w,
      pre.foldlM (total (step S)) (initial ι Line Digest found) = .ok w → ∀ s,
      (w.inst a).jobs s = some (.preparing .leshy) →
        ((w.inst a).epoch s = samples (S.perfReport a) s ↔
          EachStep (total (step S)) (initial ι Line Digest found) pre
            fun _ w e => w.ReadsWritten a s e) := by
    intro pre e hp w hw s hs
    obtain ⟨w',hrun,-,hcollecting⟩ := collecting_throughout S found a es pre
      ((List.prefix_append pre [e]).trans hp)
    obtain rfl := Except.ok.inj (hrun.symm.trans hw)
    have hfiles := hcollecting.files s
    rw [hs] at hfiles
    exact hfiles.2
  constructor
  · intro h pre e hp w hw s he hs
    exact (hiff pre e hp w hw s hs).mp (h pre e hp w hw s he hs)
  · intro h pre e hp w hw s he hs
    exact (hiff pre e hp w hw s hs).mpr (h pre e hp w hw s he hs)

end Runs

/-- Job 1 puts its epoch together before job 0 has written a line of its dump. -/
theorem not_handsWhole_of_early_cat :
    ¬ ∀ (S : Setup Unit ℕ (List Hint)) found es,
      EachStep (total (step S)) (World.initial Unit ℕ (List Hint) found) es
        fun _ w e => w.HandsWhole (S.perfReport ()) () e := by
  intro h
  let es : List (Event Unit) := .replicate 4 (.main ()) ++ .replicate 5 (.job () 1)
  obtain ⟨w,hrun,htest⟩ := exists_of_endsWith (total (step (pageHints Unit)))
    (World.initial Unit ℕ (List Hint) 0) es
    (fun w => decide ((w.inst ()).jobs 1 = some (.preparing .leshy)) &&
      !decide ((w.inst ()).epoch 1 = samples ((pageHints Unit).perfReport ()) 1))
    (by decide +kernel)
  simp only [Bool.and_eq_true,decide_eq_true_eq,Bool.not_eq_true',decide_eq_false_iff_not] at htest
  exact htest.2 (h (pageHints Unit) 0 (es ++ [.job () 1]) es _ (List.prefix_refl _) w hrun 1 rfl
    htest.1)

end ElasticTranslations.Epochs
