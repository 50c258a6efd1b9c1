import ElasticTranslations.Epochs.LoadOrder

/-! Two runs of one instance: among others that share its directory, and alone on the same
schedule of its own steps. They agree as long as no other instance is in its way at a `flock`
and the test of `.lockfile` comes out as on the number the instance wrote itself. -/
namespace ElasticTranslations.Epochs
open Structures
variable {ι Line Digest : Type} [DecidableEq ι]

namespace World

/-- If the next step is a `flock` of a job of the instance, no other instance has the lock. -/
def Unblocked (w : World ι Line Digest) (a : ι) (e : Event ι) : Prop :=
  e.owner = a → w.standing e = some .lock → w.holder = none ∨ w.holder = some a

instance [DecidableEq Line] [DecidableEq Digest] (w : World ι Line Digest) (a : ι)
    (e : Event ι) : Decidable (w.Unblocked a e) :=
  inferInstanceAs (Decidable (_ → _ → _))

/-- The world `v` shows the instance as `w` does, with nobody else in it. -/
structure Mirrors (w v : World ι Line Digest) (a : ι) : Prop where
  inst : v.inst a = w.inst a
  number : v.number = (w.inst a).written
  holder : v.holder = none ∨ v.holder = some a
  holds : w.holder = some a ↔ v.holder = some a

variable {w v : World ι Line Digest} {a : ι}

lemma Mirrors.setInst (h : w.Mirrors v a) {i : Instance Line Digest}
    (hi : i.written = (w.inst a).written) : (w.setInst a i).Mirrors (v.setInst a i) a :=
  ⟨by simp,by simp [hi,h.number],h.holder,h.holds⟩

lemma Mirrors.release (h : w.Mirrors v a) : (w.release a).Mirrors (v.release a) a where
  inst := h.inst
  number := h.number
  holder := by
    rcases h.holder with hv | hv <;> simp [World.release,hv]
  holds := iff_of_false (w.release_holder_self a) (v.release_holder_self a)

variable [DecidableEq Digest]

/-- Both worlds take the steps of the instance alike. -/
lemma Mirrors.own (h : w.Mirrors v a) (S : Setup ι Line Digest) {e : Event ι}
    (he : e.owner = a) (hb : w.Unblocked a e) (hn : w.OwnNumber a e) :
    (step S w e).Mirrors (step S v e) a := by
  cases e with
  | main b =>
    obtain rfl : b = a := he
    simp only [step,mainLoop,h.inst]
    split
    · exact ⟨by simp,by simp,h.holder,h.holds⟩
    · exact ⟨by simp,by simp,h.holder,h.holds⟩
    · exact h.setInst rfl
  | job b s =>
    obtain rfl : b = a := he
    simp only [step,h.inst]
    cases hs : (w.inst b).jobs s with
    | none => exact h
    | some st =>
      cases st with
      | preparing p =>
        obtain ⟨st',-,-,hg⟩ := prepare_generates S b s (w.inst b) p
        simp only [profile,h.inst]
        exact h.setInst hg.written
      | lock =>
        have hw := hb rfl hs
        simp only [profile,hw,h.holder,if_true,World.goto,h.inst]
        exact ⟨by simp,by simp [h.number],Or.inr rfl,Iff.rfl⟩
      | check =>
        have hlt : s < v.number ↔ s < w.number := by rw [h.number]; exact (hn rfl hs).symm
        simp only [profile,World.goto,h.inst,hlt]
        exact h.setInst rfl
      | mark =>
        simp only [profile,h.inst]
        exact ⟨by simp,by simp,h.holder,h.holds⟩
      | loadCa | loadKhuge =>
        simp only [profile,h.inst]
        exact h.setInst rfl
      | unlockOlder | unlockLoaded =>
        simp only [profile,World.goto,release_inst,h.inst]
        exact h.release.setInst rfl
      | finished => exact h

/-- The steps of the others do not show. -/
lemma Mirrors.other (h : w.Mirrors v a) (S : Setup ι Line Digest) {e : Event ι}
    (he : e.owner ≠ a) : (step S w e).Mirrors v a := by
  obtain ⟨hi,hh⟩ := step_other S w he
  exact ⟨h.inst.trans hi.symm,by rw [h.number,hi],h.holder,hh.trans h.holds⟩

end World

open World
variable [DecidableEq Digest]

/-- The instance on its own, given the steps of the schedule that are its own. -/
def alone (S : Setup ι Line Digest) (found : ℕ) (a : ι) (es : List (Event ι)) :
    World ι Line Digest :=
  (es.filter fun e => e.owner = a).foldl (step S) (initial ι Line Digest found)

/-- An instance loads what it would load alone in every run in which no other instance holds
the lock when one of its jobs comes for it, and no number of another instance turns one of
its tests. -/
theorem loads_eq_alone (S : Setup ι Line Digest) (found : ℕ) (a : ι) (es : List (Event ι))
    (h : EachStep (total (step S)) (initial ι Line Digest found) es
      fun _ w e => w.Unblocked a e ∧ w.OwnNumber a e) :
    Throughout (total (step S)) (initial ι Line Digest found) es fun pre w =>
      (w.inst a).loads = ((alone S found a pre).inst a).loads := by
  have hrun : Throughout (total (step S)) (initial ι Line Digest found) es fun pre w =>
      w.Mirrors (alone S found a pre) a := by
    refine Throughout.filtered (R := fun w v => w.Mirrors v a) ⟨rfl,rfl,Or.inl rfl,Iff.rfl⟩
      (fun _ w v e hm hc he => ?_) (fun w v e hm he => ?_) h
    · exact ⟨step S w e,rfl,hm.own S (of_decide_eq_true he) hc.1 hc.2⟩
    · exact ⟨step S w e,rfl,hm.other S (of_decide_eq_false he)⟩
  exact hrun.mono fun _ _ hm => by rw [hm.inst]

/-- Two instances that come for the lock one after the other. -/
theorem loads_eq_alone_in_turn :
    Throughout (total (step (pageHints Bool))) (initial Bool ℕ (List Hint) 0)
      (.replicate 3 (.main false) ++ .replicate 3 (.main true) ++ .replicate 5 (.job true 0) ++
        .replicate 15 (.job false 0) ++ .replicate 10 (.job true 0)) fun pre w =>
      (w.inst true).loads = ((alone (pageHints Bool) 0 true pre).inst true).loads :=
  loads_eq_alone (pageHints Bool) 0 true _ ((EachStep.of_stepsMeet
    (fun (w : World Bool ℕ (List Hint)) e =>
      decide (w.Unblocked true e ∧ w.OwnNumber true e))
    (by decide +kernel)).mono fun _ _ _ h => of_decide_eq_true h)

/-- An instance that comes while the other one holds the lock loses its hints. -/
theorem not_loads_eq_alone_of_blocked :
    ¬ ∀ (S : Setup Bool ℕ (List Hint)) found a es,
      Throughout (total (step S)) (initial Bool ℕ (List Hint) found) es fun pre w =>
        (w.inst a).loads = ((alone S found a pre).inst a).loads := by
  intro h
  let es : List (Event Bool) := .replicate 3 (.main false) ++ .replicate 3 (.main true) ++
    .replicate 10 (.job false 0) ++ .replicate 15 (.job true 0)
  have hsolo : (((alone (pageHints Bool) 0 true es).inst true).loads).length = 2 := by
    decide +kernel
  obtain ⟨w,-,hw,ht⟩ := (h (pageHints Bool) 0 true es).meets
    (fun w => (w.inst true).loads.length = 0) (by decide +kernel)
  rw [← hw,of_decide_eq_true ht] at hsolo
  cases hsolo

end ElasticTranslations.Epochs
