import ElasticTranslations.Hawkeye.Regions
import ElasticTranslations.Hawkeye.Windows

/-! Runs of the whole Hawkeye simulator. The regions never act on the sampling of accesses,
so the windows of a run are those of its addresses alone, as far as it gets. -/
namespace ElasticTranslations.Hawkeye
open Structures
variable {cfg : Pcc.Config}

/-- A call without a summary, and one with it. -/
lemma hawkeyeTrackAccess_eq (cfg : Pcc.Config) (s : HawkeyeState) (a : Access) :
    hawkeyeTrackAccess cfg s a = match s.tracker.trackAccess cfg a.vaddr with
      | .error fault => .error fault
      | .ok (none,t) => .ok ⟨t,s.regions⟩
      | .ok (some c,t) =>
        (fun r => ⟨t,r.2⟩) <$> s.regions.summarize (a.iteration.visit c.entries) := by
  rw [hawkeyeTrackAccess]
  rcases s.tracker.trackAccess cfg a.vaddr with fault | ⟨_ | c,t⟩
  · rfl
  · rfl
  · rfl

lemma tracker_step {s s' : HawkeyeState} {a : Access} (h : hawkeyeTrackAccess cfg s a = .ok s') :
    Tracker.step cfg s.tracker a.vaddr = .ok s'.tracker := by
  rw [hawkeyeTrackAccess_eq] at h
  rw [Tracker.step]
  generalize s.tracker.trackAccess cfg a.vaddr = r at h ⊢
  rcases r with fault | ⟨_ | c,t⟩
  · cases h
  · obtain rfl : (⟨t,s.regions⟩ : HawkeyeState) = s' := by simpa using h
    rfl
  · obtain ⟨r,-,rfl⟩ := map_eq_ok h
    rfl

/-- The tracker of a run is that of its addresses. -/
theorem tracker_reached (cfg : Pcc.Config) (trace : List Access) :
    Reached (hawkeyeTrackAccess cfg) {} trace fun pre s =>
      (pre.map Access.vaddr).foldlM (Tracker.step cfg) {} = .ok s.tracker := by
  refine Reached.of_steps (C := fun _ _ _ => True) (I := fun pre (s : HawkeyeState) =>
    (pre.map Access.vaddr).foldlM (Tracker.step cfg) {} = .ok s.tracker) ?_ ?_ ?_
  · rfl
  · intro pre s a hpre _ s' hs'
    rw [List.map_append,List.map_singleton,foldlM_snoc_ok hpre]
    exact tracker_step hs'
  · exact fun _ _ _ _ _ => trivial

/-- Every access that the whole simulator gets to is sampled as the period says, if the
product does not wrap before. -/
theorem windows_reached (cfg : Pcc.Config) (trace : List Access)
    (h : cfg.factor.toNat*cfg.accessInterval.toNat < 2^64 ∨
      trace.length < Tracker.firstWrong cfg) :
    EachStep (hawkeyeTrackAccess cfg) {} trace fun pre s a =>
      Tracker.WindowExact cfg (pre.map Access.vaddr) s.tracker a.vaddr := by
  have hwindows := Tracker.windowExact_eachStep (trace.map Access.vaddr)
    (show Tracker.BeforeWrong cfg _ by simpa [Tracker.BeforeWrong] using h)
  intro pre a hp s hs
  have hpre : pre <+: trace := (List.prefix_append pre [a]).trans hp
  refine hwindows _ _ ?_ _ (tracker_reached cfg trace pre hpre s hs)
  simpa using hp.map Access.vaddr

end ElasticTranslations.Hawkeye
