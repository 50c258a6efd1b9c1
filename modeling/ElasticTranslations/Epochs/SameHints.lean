import ElasticTranslations.Epochs.LoadOrder
import Mathlib.Data.List.Pairwise

/-! The `Hints same` shortcut. A job leaves through it because its hints are those of the
snapshot before, which need not have been loaded: the argument follows the chain of skipped
snapshots down to one that was loaded, or to one that gave way to a later one. -/
namespace ElasticTranslations.Epochs
open Function (update)
open Structures
variable {ι Line Digest : Type}

/-- The job compares its digest with that of the snapshot before. -/
def Stage.comparing : Stage Line Digest → Bool
  | .preparing (.digestPrev _) => true
  | _ => false

namespace Instance

/-- The last load into a table of the pid: its hints are in force. -/
def inForce (i : Instance Line Digest) (table : Table) : Option Load :=
  (i.loads.filter fun l => l.table = table).getLast?

/-- When a job has left through the shortcut and no job up to it is still running, its hints
or those of a later snapshot are in force. -/
def UpToDate (i : Instance Line Digest) : Prop :=
  ∀ s, i.jobs s = some (.finished .same) → (∀ t ≤ s, ∃ e, i.jobs t = some (.finished e)) →
    ∀ table, ∃ l, i.inForce table = some l ∧ (l.hints = i.hints s ∨ s < l.snapshot)

/-- Why a job stands where it does. -/
def Explains (i : Instance Line Digest) (sha256sum : List Hint → Digest) (s : ℕ) :
    Stage Line Digest → Prop
  | .preparing (.filter _ _ _) | .preparing .hintsTest => True
  | .preparing .digest => s ≠ 0
  | .preparing (.digestPrev current) => s ≠ 0 ∧ current = sha256sum (i.hints s)
  | .preparing _ => i.hints s = []
  | .unlockOlder | .finished .older => ∃ t, s < t ∧ i.jobs t = some (.finished .loaded)
  | .finished .missesEmpty | .finished .fullEmpty | .finished .hintsEmpty => i.hints s = []
  | .finished .same =>
    s ≠ 0 ∧ i.hints (s - 1) ≠ [] ∧ i.hints s = i.hints (s - 1) ∧ i.settled (s - 1) = true
  | .finished .notLocked => False
  | _ => True

/-- The instance accounts for its jobs, its loads and the number it wrote last. -/
structure Accounted (i : Instance Line Digest) (sha256sum : List Hint → Digest) : Prop where
  unstarted : ∀ s, i.jobs s = none → i.hints s = []
  explained : ∀ s st, i.jobs s = some st → i.Explains sha256sum s st
  contents : ∀ l ∈ i.loads, l.hints = i.hints l.snapshot
  complete : ∀ s table, i.hasLoaded table s = true → ∃ l ∈ i.loads, l.table = table ∧ l.snapshot = s
  marked : i.main ≠ .start → i.written = 0 ∨ i.hasMarked i.written = true

/-- What no step of a job takes back: settled files and returned jobs. -/
structure Grows (i i' : Instance Line Digest) : Prop where
  hints : ∀ t, i.settled t = true → i'.hints t = i.hints t
  settled : ∀ t, i.settled t = true → i'.settled t = true
  finished : ∀ t e, i.jobs t = some (.finished e) → i'.jobs t = some (.finished e)

variable {i i' : Instance Line Digest} {sha256sum : List Hint → Digest} {s : ℕ}
  {st st' : Stage Line Digest}

lemma Explains.grows (h : i.Explains sha256sum s st) (hg : i.Grows i')
    (hs : i'.hints s = i.hints s) : i'.Explains sha256sum s st := by
  cases st with
  | preparing p =>
    cases p with
    | filter | hintsTest => trivial
    | digest => exact h
    | digestPrev current => exact ⟨h.1,hs ▸ h.2⟩
    | report | catOwn | catPrev | epochTest | leshy | fullTest => exact hs.trans h
  | unlockOlder =>
    obtain ⟨t,hlt,ht⟩ := h
    exact ⟨t,hlt,hg.finished t _ ht⟩
  | finished e =>
    cases e with
    | missesEmpty | fullEmpty | hintsEmpty => exact hs.trans h
    | same =>
      obtain ⟨hs0,hne,heq,hset⟩ := h
      have hp := hg.hints (s - 1) hset
      exact ⟨hs0,hp ▸ hne,by rw [hs,hp,heq],hg.settled (s - 1) hset⟩
    | notLocked => exact h
    | older =>
      obtain ⟨t,hlt,ht⟩ := h
      exact ⟨t,hlt,hg.finished t _ ht⟩
    | loaded => trivial
  | lock | check | mark | loadCa | loadKhuge | unlockLoaded => trivial

/-- A job that has not returned, and keeps its file once it is settled, takes nothing back. -/
lemma grows_of_jobs (hjobs : i'.jobs = update i.jobs s (some st'))
    (hfin : ∀ e, i.jobs s ≠ some (.finished e))
    (hset : i.settled s = true → st'.settled = true ∧ i'.hints s = i.hints s)
    (hh : ∀ t, t ≠ s → i'.hints t = i.hints t) : i.Grows i' where
  hints := fun t ht => by
    by_cases hts : t = s
    · subst hts; exact (hset ht).2
    · exact hh t hts
  settled := fun t ht => by
    rw [settled_of_jobs hjobs]
    split_ifs with hts
    · subst hts; exact (hset ht).1
    · exact ht
  finished := fun t e ht => by
    have hts : t ≠ s := fun hts => hfin e (hts ▸ ht)
    rw [hjobs,Function.update_of_ne hts,ht]

lemma settled_of_hasLoaded {table : Table} (h : i.hasLoaded table s = true) :
    i.settled s = true := by
  simp only [hasLoaded,settled,Option.any_eq_true] at h ⊢
  obtain ⟨st,hst,hl⟩ := h
  refine ⟨st,hst,?_⟩
  cases st with
  | preparing | lock | check | mark | loadCa | unlockOlder => cases hl
  | loadKhuge | unlockLoaded | finished => rfl

/-- A job starts or moves; a load it makes on the way is accounted for. -/
lemma Accounted.move (h : i.Accounted sha256sum)
    (hload : ∀ l ∈ i.loads, i.hasLoaded l.table l.snapshot = true)
    (hjobs : i'.jobs = update i.jobs s (some st')) (hg : i.Grows i')
    (hh : ∀ t, t ≠ s → i'.hints t = i.hints t) (hloads : i.loads ⊆ i'.loads)
    (hst' : i'.Explains sha256sum s st')
    (hnew : ∀ l ∈ i'.loads, l ∉ i.loads → l.hints = i'.hints l.snapshot)
    (hl : ∀ table, st'.hasLoaded table = true → i.hasLoaded table s = true ∨
      ∃ l ∈ i'.loads, l.table = table ∧ l.snapshot = s)
    (hm : i'.main ≠ .start → i'.written = 0 ∨ i'.hasMarked i'.written = true) :
    i'.Accounted sha256sum where
  unstarted := fun t ht => by
    rw [hjobs,Function.update_apply] at ht
    split_ifs at ht with hts
    rw [hh t hts,h.unstarted t ht]
  explained := fun t u ht => by
    rw [hjobs,Function.update_apply] at ht
    split_ifs at ht with hts
    · cases ht; exact hts ▸ hst'
    · exact (h.explained t u ht).grows hg (hh t hts)
  contents := fun l hl' => by
    by_cases hold : l ∈ i.loads
    · rw [hg.hints _ (settled_of_hasLoaded (hload l hold)),h.contents l hold]
    · exact hnew l hl' hold
  complete := fun t table ht => by
    have hkeep : i.hasLoaded table t = true → ∃ l ∈ i'.loads, l.table = table ∧ l.snapshot = t := by
      intro ht
      obtain ⟨l,hl',hlt⟩ := h.complete t table ht
      exact ⟨l,hloads hl',hlt⟩
    rw [hasLoaded_of_jobs hjobs] at ht
    split_ifs at ht with hts
    · subst hts
      exact (hl table ht).elim hkeep id
    · exact hkeep ht
  marked := hm

/-- The number an instance wrote stays that of a job that has written it. -/
lemma Accounted.marked_goto (h : i.Accounted sha256sum)
    (hjobs : i'.jobs = update i.jobs s (some st')) (hmain : i.main ≠ .start)
    (hwritten : i'.written = i.written) (hm : i.hasMarked s = true → st'.hasMarked = true) :
    i'.written = 0 ∨ i'.hasMarked i'.written = true := by
  rw [hwritten]
  apply (h.marked hmain).imp_right
  intro hold
  rw [hasMarked_of_jobs hjobs]
  split_ifs with hs
  · exact hm (hs ▸ hold)
  · exact hold

/-- A job past its own files moves without a load. -/
lemma Accounted.goto (h : i.Accounted sha256sum) (hmain : i.main ≠ .start)
    (hload : ∀ l ∈ i.loads, i.hasLoaded l.table l.snapshot = true)
    (hs : i.jobs s = some st) (hfin : ∀ e, st ≠ .finished e) (hset : st'.settled = true)
    (hst' : (i.goto s st').Explains sha256sum s st')
    (hl : ∀ table, st'.hasLoaded table = true → st.hasLoaded table = true)
    (hm : st.hasMarked = true → st'.hasMarked = true) : (i.goto s st').Accounted sha256sum := by
  refine h.move hload rfl (grows_of_jobs rfl (fun e he => hfin e ?_) (fun _ => ⟨hset,rfl⟩)
    fun _ _ => rfl) (fun _ _ => rfl) (List.Subset.refl _) hst' (fun l hl hn => absurd hl hn)
    (fun table ht => Or.inl ?_) fun _ => h.marked_goto rfl hmain rfl fun hm' => hm ?_
  · simpa [hs] using he
  · simpa [hasLoaded,hs] using hl table ht
  · simpa [hasMarked,hs] using hm'

/-- A job makes a load. -/
lemma Accounted.load (h : i.Accounted sha256sum) (hmain : i.main ≠ .start)
    (hload : ∀ l ∈ i.loads, i.hasLoaded l.table l.snapshot = true)
    (hs : i.jobs s = some st) (hfin : ∀ e, st ≠ .finished e) (hset : st'.settled = true)
    {c : Settings} {table : Table}
    (hst' : ((i.load c table s).goto s st').Explains sha256sum s st')
    (hl : ∀ u, st'.hasLoaded u = true → st.hasLoaded u = true ∨ u = table)
    (hm : st'.hasMarked = true) : ((i.load c table s).goto s st').Accounted sha256sum := by
  refine h.move hload rfl (grows_of_jobs rfl (fun e he => hfin e ?_) (fun _ => ⟨hset,rfl⟩)
    fun _ _ => rfl) (fun _ _ => rfl) (List.subset_append_left _ _) hst' (fun l hl' hnot => ?_)
    (fun u hu => (hl u hu).imp (fun hu => ?_) fun hu => ?_)
    fun _ => h.marked_goto rfl hmain rfl fun _ => hm
  · simpa [hs] using he
  · obtain rfl := List.mem_singleton.mp ((List.mem_append.mp hl').resolve_left hnot)
    rfl
  · simpa [hasLoaded,hs] using hu
  · exact ⟨_,List.mem_append_right _ (List.mem_singleton_self _),hu.symm,rfl⟩

end Instance

namespace World

/-- If the next step is the comparison of a job of the instance with the snapshot before, and
the digests agree, the file of the snapshot before is complete and holds the same hints. -/
def Compares (w : World ι Line Digest) (sha256sum : List Hint → Digest) (a : ι) :
    Event ι → Prop
  | .main _ => True
  | .job b s => b = a → ((w.inst b).jobs s).any Stage.comparing = true →
      (w.inst b).hints (s - 1) ≠ [] →
      sha256sum ((w.inst b).hints s) = sha256sum ((w.inst b).hints (s - 1)) →
      (w.inst b).settled (s - 1) = true ∧ (w.inst b).hints s = (w.inst b).hints (s - 1)

instance [DecidableEq ι] [DecidableEq Digest] (w : World ι Line Digest)
    (sha256sum : List Hint → Digest) (a : ι) : ∀ e : Event ι, Decidable (w.Compares sha256sum a e)
  | .main _ => inferInstanceAs (Decidable True)
  | .job b _ => inferInstanceAs (Decidable (b = a → _ → _ → _ → _ ∧ _))

variable {w : World ι Line Digest} {a : ι} {s : ℕ}

lemma initial_accounted (found : ℕ) (a : ι) (sha256sum : List Hint → Digest) :
    ((initial ι Line Digest found).inst a).Accounted sha256sum where
  unstarted := fun _ _ => rfl
  explained := fun s st h => by cases h
  contents := fun l h => by cases h
  complete := fun s table h => by cases h
  marked := fun h => absurd rfl h

/-- A job that finds a later number has given way to a job that has loaded. -/
lemma Ordered.later_loaded (h : w.Ordered a) {sha256sum : List Hint → Digest}
    (ha : (w.inst a).Accounted sha256sum) (hs : (w.inst a).jobs s = some .check)
    (hlt : s < (w.inst a).written) :
    (w.inst a).jobs (w.inst a).written = some (.finished .loaded) := by
  have hm := (ha.marked (by simp [h.looping hs])).resolve_left (by omega)
  have hout : (w.inst a).inSection (w.inst a).written = false := h.alone (Or.inl (by
    simp [Instance.inSection,hs,Stage.inSection])) hlt.ne'
  simp only [Instance.hasMarked,Option.any_eq_true] at hm
  obtain ⟨st,hst,hm⟩ := hm
  simp only [Instance.inSection,hst,Option.any_some] at hout
  cases st with
  | finished e => cases e with
    | loaded => exact hst
    | missesEmpty | fullEmpty | hintsEmpty | same | notLocked | older => cases hm
  | loadCa | loadKhuge | unlockLoaded => cases hout
  | preparing | lock | check | mark | unlockOlder => cases hm

/-- A load of a later job, or its own, leaves the hints of a job or later ones in force. -/
lemma Ordered.exists_inForce (ho : w.Ordered a) {sha256sum : List Hint → Digest}
    (h : (w.inst a).Accounted sha256sum) {table : Table} {t : ℕ}
    (hl : (w.inst a).hasLoaded table t = true) (hst : s ≤ t) :
    ∃ l, (w.inst a).inForce table = some l ∧
      (l.hints = (w.inst a).hints s ∨ s < l.snapshot) := by
  obtain ⟨k,hk,rfl,rfl⟩ := h.complete t table hl
  have hmem : k ∈ (w.inst a).loads.filter fun l => l.table = k.table := by simp [hk]
  have hsorted : (w.inst a).loads.Pairwise fun l l' => l.snapshot ≤ l'.snapshot :=
    ho.increasing.imp fun h => h.elim le_of_lt fun h => h.1.le
  have hlast := (hsorted.filter fun l => l.table = k.table).rel_getLast_of_rel_getLast_getLast
    hmem le_rfl
  refine ⟨_,List.getLast?_eq_some_getLast (List.ne_nil_of_mem hmem),?_⟩
  rcases (hst.trans hlast).eq_or_lt with heq | hlt
  · left
    rw [h.contents _ (List.mem_of_mem_filter (List.getLast_mem _)),← heq]
  · exact Or.inr hlt

/-- A job with hints that returns, but not through the shortcut, leaves its hints or later
ones in force. -/
lemma Ordered.inForce_of_ne_same (ho : w.Ordered a) {sha256sum : List Hint → Digest}
    (h : (w.inst a).Accounted sha256sum) (table : Table) {e : Exit}
    (hs : (w.inst a).jobs s = some (.finished e)) (hne : (w.inst a).hints s ≠ [])
    (he : e ≠ .same) :
    ∃ l, (w.inst a).inForce table = some l ∧
      (l.hints = (w.inst a).hints s ∨ s < l.snapshot) := by
  have hwhy := h.explained s _ hs
  have hloaded : ∀ t, (w.inst a).jobs t = some (.finished .loaded) →
      (w.inst a).hasLoaded table t = true := fun t ht => by
    simp [Instance.hasLoaded,ht,Stage.hasLoaded]
  cases e with
  | missesEmpty | fullEmpty | hintsEmpty => exact absurd hwhy hne
  | same => exact absurd rfl he
  | notLocked => exact hwhy.elim
  | older =>
    obtain ⟨t,hlt,ht⟩ := hwhy
    exact ho.exists_inForce h (hloaded t ht) hlt.le
  | loaded => exact ho.exists_inForce h (hloaded s hs) le_rfl

/-- The shortcut too: by induction along the chain of jobs that left through it. -/
lemma Ordered.inForce_of_finished (ho : w.Ordered a) {sha256sum : List Hint → Digest}
    (h : (w.inst a).Accounted sha256sum) (table : Table) {e : Exit}
    (hs : (w.inst a).jobs s = some (.finished e)) (hne : (w.inst a).hints s ≠ [])
    (hall : ∀ t ≤ s, ∃ e, (w.inst a).jobs t = some (.finished e)) :
    ∃ l, (w.inst a).inForce table = some l ∧
      (l.hints = (w.inst a).hints s ∨ s < l.snapshot) := by
  induction s generalizing e with
  | zero =>
    apply ho.inForce_of_ne_same h table hs hne
    intro he
    exact absurd rfl (he ▸ h.explained 0 _ hs : (w.inst a).Explains _ 0 (.finished .same)).1
  | succ s ih =>
    by_cases he : e = .same
    · subst he
      obtain ⟨-,hne',heq,-⟩ := h.explained _ _ hs
      obtain ⟨e',he'⟩ := hall s (by omega)
      obtain ⟨l,hl,hnew⟩ := ih he' hne' fun t ht => hall t (by omega)
      refine ⟨l,hl,?_⟩
      rcases hnew with hsame | hlt
      · exact Or.inl (hsame.trans heq.symm)
      · rcases (Nat.succ_le_of_lt hlt).eq_or_lt with heq' | hlt'
        · left
          rw [h.contents l (List.mem_of_mem_filter (List.mem_of_getLast? hl)),← heq']
        · exact Or.inr hlt'
    · exact ho.inForce_of_ne_same h table hs hne he

theorem Ordered.upToDate (ho : w.Ordered a) {sha256sum : List Hint → Digest}
    (h : (w.inst a).Accounted sha256sum) : (w.inst a).UpToDate := by
  intro s hs hall table
  obtain ⟨-,hne,heq,-⟩ := h.explained s _ hs
  exact ho.inForce_of_finished h table hs (heq ▸ hne) hall

end World

section Steps
variable [DecidableEq Digest]

/-- What leads a job that generates its hints on explains where it then stands. -/
lemma prepare_explains (S : Setup ι Line Digest) (a : ι) {i : Instance Line Digest} {s : ℕ}
    {p : Preparing Line Digest} {st : Stage Line Digest}
    (hj : (prepare S a s i p).jobs s = some st)
    (h : i.Explains S.sha256sum s (.preparing p))
    (hc : (Stage.preparing p).comparing = true → i.hints (s - 1) ≠ [] →
      S.sha256sum (i.hints s) = S.sha256sum (i.hints (s - 1)) →
      i.settled (s - 1) = true ∧ i.hints s = i.hints (s - 1)) :
    (prepare S a s i p).Explains S.sha256sum s st ∧ ((Stage.preparing p).settled = true →
      st.settled = true ∧ (prepare S a s i p).hints s = i.hints s) := by
  cases p with
  | report rest =>
    cases rest with
    | nil | cons =>
      simp only [prepare,Instance.goto_jobs,Function.update_self,Option.some.injEq] at hj
      subst hj
      exact ⟨h,fun h => by cases h⟩
  | catOwn =>
    simp only [prepare,Instance.goto_jobs,Function.update_self,Option.some.injEq] at hj
    subst hj
    exact ⟨by split_ifs <;> exact h,fun h => by cases h⟩
  | catPrev | leshy =>
    simp only [prepare,Instance.goto_jobs,Function.update_self,Option.some.injEq] at hj
    subst hj
    exact ⟨h,fun h => by cases h⟩
  | epochTest =>
    simp only [prepare,Instance.goto_jobs,Function.update_self,Option.some.injEq] at hj
    subst hj
    exact ⟨by split_ifs <;> exact h,fun h => by cases h⟩
  | fullTest =>
    simp only [prepare,Instance.goto_jobs,Function.update_self,Option.some.injEq] at hj
    subst hj
    refine ⟨?_,fun h => by cases h⟩
    split_ifs
    · exact h
    · trivial
  | filter rest loops count =>
    refine ⟨?_,fun h => by cases h⟩
    cases rest with
    | nil =>
      simp only [prepare,Instance.goto_jobs,Function.update_self,Option.some.injEq] at hj
      subst hj
      trivial
    | cons line rest =>
      simp only [prepare] at hj ⊢
      split_ifs at hj ⊢ <;>
        simp only [Instance.goto_jobs,Function.update_self,Option.some.injEq] at hj <;>
        subst hj <;> trivial
  | hintsTest =>
    simp only [prepare,Instance.goto_jobs,Function.update_self,Option.some.injEq] at hj
    subst hj
    split_ifs with he hs
    · exact ⟨List.isEmpty_iff.mp he,fun _ => ⟨rfl,rfl⟩⟩
    · exact ⟨trivial,fun _ => ⟨rfl,rfl⟩⟩
    · exact ⟨hs,fun _ => ⟨rfl,rfl⟩⟩
  | digest =>
    simp only [prepare,Instance.goto_jobs,Function.update_self,Option.some.injEq] at hj
    subst hj
    exact ⟨⟨h,rfl⟩,fun _ => ⟨rfl,rfl⟩⟩
  | digestPrev current =>
    obtain ⟨hs,rfl⟩ := h
    simp only [prepare,Instance.goto_jobs,Function.update_self,Option.some.injEq] at hj
    subst hj
    simp only [prepare]
    split_ifs with he hd
    · exact ⟨trivial,fun _ => ⟨rfl,rfl⟩⟩
    · have hne : i.hints (s - 1) ≠ [] := fun h => he (by rw [h]; rfl)
      obtain ⟨hset,heq⟩ := hc rfl hne hd
      refine ⟨⟨hs,hne,heq,?_⟩,fun _ => ⟨rfl,rfl⟩⟩
      rw [Instance.settled_of_jobs (i := i) rfl,if_neg (by omega),hset]
    · exact ⟨trivial,fun _ => ⟨rfl,rfl⟩⟩

end Steps

namespace World
variable [DecidableEq ι] {w : World ι Line Digest} {a : ι} {s : ℕ} {st : Stage Line Digest}

/-- The main loop adds a job that has not written anything. -/
lemma Ordered.accounted_mainLoop (ho : w.Ordered a) (S : Setup ι Line Digest)
    (h : (w.inst a).Accounted S.sha256sum) :
    ((mainLoop S a w).inst a).Accounted S.sha256sum := by
  unfold mainLoop
  cases hm : (w.inst a).main with
  | start | opened =>
    have hj := ho.no_job (by simp [hm])
    simp only [setInst_inst_self]
    refine ⟨fun s _ => h.unstarted s (hj s),fun s st hs => ?_,fun l hl => ?_,fun s table hs => ?_,
      fun _ => Or.inl rfl⟩
    · exact absurd ((hj s).symm.trans hs) (by simp)
    · exact absurd hl (by simp [ho.no_load (by simp [hm])])
    · simp [Instance.hasLoaded,hj] at hs
  | looping =>
    have hnone := ho.not_started
    simp only [setInst_inst_self]
    refine h.move (s := (w.inst a).snapshot) (fun l hl => (ho.loaded l hl).2) rfl
      (Instance.grows_of_jobs rfl (by simp [hnone]) ?_ fun _ _ => rfl) (fun _ _ => rfl)
      (List.Subset.refl _) 
      (show Instance.Explains _ _ _ (.preparing (.report _)) from h.unstarted _ hnone)
      (fun l hl hnot => absurd hl hnot) (fun table ht => by cases ht)
      fun _ => h.marked_goto rfl (by simp [hm]) rfl ?_
    · intro hs
      simp [Instance.settled,hnone] at hs
    · intro hs
      simp [Instance.hasMarked,hnone] at hs

variable [DecidableEq Digest]

/-- Under the three conditions an instance goes on accounting for its jobs. -/
lemma Ordered.accounted_profile (ho : w.Ordered a) (S : Setup ι Line Digest)
    (h : (w.inst a).Accounted S.sha256sum) (hs : (w.inst a).jobs s = some st)
    (hf : w.LockFree a (.job a s)) (hn : w.OwnNumber a (.job a s))
    (hc : w.Compares S.sha256sum a (.job a s)) :
    ((profile S a s w st).inst a).Accounted S.sha256sum := by
  have hmain : (w.inst a).main ≠ .start := by simp [ho.looping hs]
  have hload := fun l hl => (ho.loaded l hl).2
  cases st with
  | preparing p =>
    obtain ⟨st',-,hmark,hg⟩ := prepare_generates S a s (w.inst a) p
    have hj : (prepare S a s (w.inst a) p).jobs s = some st' := by
      rw [hg.jobs,Function.update_self]
    obtain ⟨hexp,hset⟩ := prepare_explains S a hj (h.explained s _ hs) fun hcmp =>
      hc rfl (by simpa [hs] using hcmp)
    simp only [profile,setInst_inst_self]
    refine h.move hload hg.jobs (Instance.grows_of_jobs hg.jobs (by simp [hs])
      (fun hset' => hset (by simpa [Instance.settled,hs] using hset')) hg.hints) hg.hints
      (by rw [hg.loads]; exact List.Subset.refl _) hexp ?_ ?_
      fun _ => h.marked_goto hg.jobs hmain hg.written ?_
    · intro l hl hnot
      exact absurd (hg.loads ▸ hl) hnot
    · intro table ht
      exact absurd (st'.hasMarked_of_hasLoaded ht) (by simp [hmark])
    · intro hm
      simp [Instance.hasMarked,hs,Stage.hasMarked] at hm
  | lock =>
    simp only [profile,hf rfl hs,true_or,if_true,goto_inst_self]
    exact h.goto hmain hload hs (by simp) rfl trivial (fun _ ht => ht) id
  | check =>
    simp only [profile,goto_inst_self]
    split_ifs with hlt
    · have hlt' := (hn rfl hs).mp hlt
      refine h.goto hmain hload hs (by simp) rfl ⟨_,hlt',?_⟩ (fun _ ht => ht) id
      rw [Instance.goto_jobs,Function.update_of_ne hlt'.ne',ho.later_loaded h hs hlt']
    · exact h.goto hmain hload hs (by simp) rfl trivial (fun _ ht => ht) id
  | mark =>
    simp only [profile,setInst_inst_self]
    refine h.move hload rfl (Instance.grows_of_jobs rfl (by simp [hs]) (fun _ => ⟨rfl,rfl⟩)
      fun _ _ => rfl) (fun _ _ => rfl) (List.Subset.refl _) trivial
      (fun l hl hnot => absurd hl hnot) (fun table ht => by cases ht) fun _ => Or.inr ?_
    rw [Instance.hasMarked_of_jobs (i := w.inst a) rfl]
    exact if_pos rfl
  | loadCa =>
    simp only [profile,setInst_inst_self]
    refine h.load hmain hload hs (by simp) rfl trivial (fun u hu => ?_) rfl
    exact Or.inr (of_decide_eq_true hu)
  | loadKhuge =>
    simp only [profile,setInst_inst_self]
    refine h.load hmain hload hs (by simp) rfl trivial (fun u _ => ?_) rfl
    cases u with
    | ca => exact Or.inl rfl
    | khuge => exact Or.inr rfl
  | unlockOlder =>
    obtain ⟨t,hlt,ht⟩ := h.explained s _ hs
    simp only [profile,goto_inst_self,release_inst]
    refine h.goto hmain hload hs (by simp) rfl ⟨t,hlt,?_⟩ (fun _ ht => ht) id
    rw [Instance.goto_jobs,Function.update_of_ne hlt.ne',ht]
  | unlockLoaded =>
    simp only [profile,goto_inst_self,release_inst]
    exact h.goto hmain hload hs (by simp) rfl trivial (fun _ _ => rfl) id
  | finished e => exact h

/-- Every step keeps the account under the three conditions. -/
theorem Ordered.accounted_step (ho : w.Ordered a) (S : Setup ι Line Digest) {e : Event ι}
    (h : (w.inst a).Accounted S.sha256sum) (hf : w.LockFree a e) (hn : w.OwnNumber a e)
    (hc : w.Compares S.sha256sum a e) : ((step S w e).inst a).Accounted S.sha256sum := by
  by_cases he : e.owner = a
  · cases e with
    | main b => exact (show b = a from he) ▸ ho.accounted_mainLoop S h
    | job b s =>
      obtain rfl : b = a := he
      simp only [step]
      cases hs : (w.inst b).jobs s with
      | none => exact h
      | some st => exact ho.accounted_profile S h hs hf hn hc
  · rwa [(step_other S w he).1]

end World

open World
variable [DecidableEq ι] [DecidableEq Digest]

/-- The shortcut loses no update in a run in which every `flock` of the instance finds the
lock free, every test of `.lockfile` comes out as on its own number, and a file of hints that
a job finds the same is complete. -/
theorem upToDate_throughout (S : Setup ι Line Digest) (found : ℕ) (a : ι) (es : List (Event ι))
    (h : EachStep (total (step S)) (initial ι Line Digest found) es fun _ w e =>
      w.LockFree a e ∧ w.OwnNumber a e ∧ w.Compares S.sha256sum a e) :
    Throughout (total (step S)) (initial ι Line Digest found) es
      fun _ w => (w.inst a).UpToDate := by
  have hrun : Throughout (total (step S)) (initial ι Line Digest found) es
      fun _ w => w.Ordered a ∧ (w.inst a).Accounted S.sha256sum :=
    .of_steps ⟨initial_ordered found a,initial_accounted found a S.sha256sum⟩
      (fun _ w e hw hc => ⟨step S w e,rfl,hw.1.keeps_step S hc.1 hc.2.1,
        hw.1.accounted_step S hw.2 hc.1 hc.2.1 hc.2.2⟩) h
  exact hrun.mono fun _ _ hw => hw.1.upToDate hw.2

/-- Only the first snapshot has misses, so the epoch of the second one is the same. -/
def firstOnly (ι : Type) : Setup ι ℕ (List Hint) :=
  {pageHints ι with perfReport := fun _ s => if s = 0 then [0] else []}

/-- Job 0 loads its hints, then job 1 finds the same ones. -/
theorem upToDate_in_turn :
    Throughout (total (step (firstOnly Unit))) (initial Unit ℕ (List Hint) 0)
      (.replicate 4 (.main ()) ++ .replicate 15 (.job () 0) ++ .replicate 15 (.job () 1))
      fun _ w => (w.inst ()).UpToDate :=
  upToDate_throughout (firstOnly Unit) 0 () _ ((EachStep.of_stepsMeet
    (fun (w : World Unit ℕ (List Hint)) e => decide (w.LockFree () e ∧
      w.OwnNumber () e ∧ w.Compares (firstOnly Unit).sha256sum () e))
    (by decide +kernel)).mono fun _ _ _ h => of_decide_eq_true h)

/-- Job 0 of an instance returns because another instance has the lock; job 1 then finds the
same hints, and no hints are in force. -/
theorem not_upToDate_of_blocked :
    ¬ ∀ (S : Setup Bool ℕ (List Hint)) found a es,
      Throughout (total (step S)) (initial Bool ℕ (List Hint) found) es
        fun _ w => (w.inst a).UpToDate := by
  intro h
  obtain ⟨w,-,hw,ht⟩ := (h (firstOnly Bool) 0 true (.replicate 3 (.main false) ++
      .replicate 4 (.main true) ++ .replicate 10 (.job false 0) ++ .replicate 15 (.job true 0) ++
      .replicate 15 (.job true 1))).meets
    (fun w => decide ((w.inst true).jobs 0 = some (.finished .notLocked)) &&
      decide ((w.inst true).jobs 1 = some (.finished .same)) && (w.inst true).loads.isEmpty)
    (by decide +kernel)
  simp only [Bool.and_eq_true,decide_eq_true_eq,List.isEmpty_iff] at ht
  obtain ⟨⟨h0,h1⟩,hl⟩ := ht
  have hall : ∀ t ≤ 1, ∃ e, (w.inst true).jobs t = some (.finished e) := fun t ht => by
    rcases Nat.le_one_iff_eq_zero_or_eq_one.mp ht with rfl | rfl
    · exact ⟨_,h0⟩
    · exact ⟨_,h1⟩
  obtain ⟨l,hf,-⟩ := hw 1 h1 hall .ca
  simp [Instance.inForce,hl] at hf

end ElasticTranslations.Epochs
