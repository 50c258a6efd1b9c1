import ElasticTranslations.Scripts.FaultAverages

/-! The breakdown of `plot_breakdown_stacked.py` conserves the latency of faults exactly for
complete traces: a file without an event, or without any fault, shifts the lists. -/
namespace ElasticTranslations.Scripts.FaultBreakdown
open Structures

lemma total_eq {α : Type*} {files : List α} {p : α → Text → ℚ} {y : Averages} {i : ℕ} {f : α}
    (hy : ∀ event ∈ components,y.get? event = some (files.map fun f => p f event))
    (hf : files[i]? = some f) : total y i = some (components.map (p f)).sum := by
  have hmap : ∀ l : List Text,(∀ event ∈ l,event ∈ components) →
      l.mapM (fun event => (y.get? event).bind (·[i]?)) = some (l.map (p f)) := by
    intro l
    induction l with
    | nil => exact fun _ => rfl
    | cons event l ih =>
      intro hl
      rw [List.mapM_cons,ih fun e he => hl e (List.mem_cons_of_mem _ he),
        hy event (hl event List.mem_cons_self),Option.bind_some,List.getElem?_map,hf]
      rfl
  rw [total,hmap components fun _ h => h]
  rfl

/-- A sum of parts needs every list to reach that far. -/
lemma exists_of_total {y : Averages} {i : ℕ} {r : ℚ} (h : total y i = some r) :
    ∀ event ∈ components,∃ vals,y.get? event = some vals ∧ i < vals.length := by
  have hmap : ∀ l : List Text,∀ rs,
      l.mapM (fun event => (y.get? event).bind (·[i]?)) = some rs →
      ∀ event ∈ l,∃ vals,y.get? event = some vals ∧ i < vals.length := by
    intro l
    induction l with
    | nil => exact fun rs _ event he => absurd he List.not_mem_nil
    | cons e l ih =>
      intro rs hrs event he
      rw [List.mapM_cons] at hrs
      obtain ⟨v,hv,hrs⟩ := Option.bind_eq_some_iff.mp hrs
      obtain ⟨vs,hvs,-⟩ := Option.bind_eq_some_iff.mp hrs
      rcases List.mem_cons.mp he with rfl | he
      · obtain ⟨vals,hvals,hi⟩ := Option.bind_eq_some_iff.mp hv
        exact ⟨vals,hvals,(List.getElem?_eq_some_iff.mp hi).1⟩
      · exact ih vs hvs event he
  obtain ⟨rs,hrs,-⟩ := Option.map_eq_some_iff.mp h
  exact hmap components rs hrs

/-- Where each of the files adds at most one number, the list is as long as the files only if
each of them adds one. -/
lemma ne_nil_of_length {α : Type*} {files : List α} {c : α → List ℚ}
    (hc : ∀ f ∈ files,(c f).length ≤ 1) (h : files.length ≤ (files.flatMap c).length) :
    ∀ f ∈ files,c f ≠ [] := by
  have hle : ∀ l : List α,(∀ f ∈ l,(c f).length ≤ 1) → (l.flatMap c).length ≤ l.length := by
    intro l
    induction l with
    | nil => exact fun _ => Nat.le_refl _
    | cons f l ih =>
      intro hl
      have hf := hl f List.mem_cons_self
      have hrest := ih fun g hg => hl g (List.mem_cons_of_mem _ hg)
      rw [List.flatMap_cons,List.length_append,List.length_cons]
      omega
  induction files with
  | nil => exact fun f hf => absurd hf List.not_mem_nil
  | cons g l ih =>
    have hg := hc g List.mem_cons_self
    have hl := hle l fun f hf => hc f (List.mem_cons_of_mem _ hf)
    rw [List.flatMap_cons,List.length_append,List.length_cons] at h
    intro f hf
    rcases List.mem_cons.mp hf with rfl | hf
    · intro hnil
      rw [hnil,List.length_nil] at h
      omega
    · exact ih (fun f hf => hc f (List.mem_cons_of_mem _ hf)) (by omega) f hf

lemma contribution_length_le {event : Text} (h : event ≠ rest) (item : Text × Events) :
    (contribution event item).length ≤ 1 := by
  rw [contribution_of_ne_rest h]
  cases item.2.get? event <;> simp

lemma contribution_rest_length_le {item : Text × Events} (h : item.2.get? rest = none) :
    (contribution rest item).length ≤ 1 := by
  rw [contribution_rest h]
  cases item.2.get? fault with
  | none => simp
  | some data => by_cases hdata : data = [] <;> simp [hdata]

/-- The list of an event that all files have. -/
lemma column_of_all {files : List (Text × Events)} {event : Text} (hne : event ≠ rest)
    (h : ∀ item ∈ files,item.2.get? event ≠ none) :
    column (tableOf files) event = files.map (averageOf event) := by
  rw [column_tableOf]
  induction files with
  | nil => rfl
  | cons item files ih =>
    obtain ⟨data,hdata⟩ := Option.ne_none_iff_exists'.mp (h item List.mem_cons_self)
    rw [List.flatMap_cons,ih fun i hi => h i (List.mem_cons_of_mem _ hi),
      contribution_of_ne_rest hne,hdata]
    simp [averageOf,hdata]

lemma column_rest_of_all {files : List (Text × Events)}
    (hrest : ∀ item ∈ files,item.2.get? rest = none)
    (h : ∀ item ∈ files,∃ data,item.2.get? fault = some data ∧ data ≠ []) :
    column (tableOf files) rest = files.map (averageOf fault) := by
  rw [column_tableOf]
  induction files with
  | nil => rfl
  | cons item files ih =>
    obtain ⟨data,hdata,hne⟩ := h item List.mem_cons_self
    rw [List.flatMap_cons,ih (fun i hi => hrest i (List.mem_cons_of_mem _ hi))
      (fun i hi => h i (List.mem_cons_of_mem _ hi)),
      contribution_rest (hrest item List.mem_cons_self),hdata]
    simp [averageOf,hdata,hne]

section
variable {latencies : Latencies}

lemma mem_entries_of_mem_filesOf {size : Size} {item : Text × Events}
    (h : item ∈ filesOf latencies size) : item ∈ latencies.entries := List.mem_of_mem_filter h

lemma mem_filesOf {size : Size} {item : Text × Events} (h : item ∈ latencies.entries)
    (hsize : sizeOfFile item.1 = some size) : item ∈ filesOf latencies size :=
  List.mem_filter.mpr ⟨h,decide_eq_true hsize⟩

lemma KnownEvents.no_rest (hknown : KnownEvents latencies) {item : Text × Events}
    (h : item ∈ latencies.entries) : item.2.get? rest = none := by
  by_contra hne
  exact absurd (hknown item h rest hne) (by decide)

lemma ne_rest_of_mem_knownEvents : ∀ event ∈ knownEvents,event ≠ rest := by decide

lemma tail_components_subset : ∀ event ∈ components.tail,event ∈ knownEvents := by decide

lemma Complete.aligned (h : Complete latencies) (size : Size) :
    Aligned (filesOf latencies size) (tableOf (filesOf latencies size)) := by
  intro event hevent vals hvals
  have hne := ne_rest_of_mem_knownEvents event hevent
  rw [get?_of_tight (tight_tableOf _)] at hvals
  split at hvals
  · cases hvals
  · rename_i hcolumn
    obtain rfl := Option.some.inj hvals
    obtain ⟨v,hv⟩ := List.exists_mem_of_ne_nil _ hcolumn
    rw [column_tableOf] at hv
    obtain ⟨item,hitem,hv⟩ := List.mem_flatMap.mp hv
    have hhas : item.2.get? event ≠ none := by
      intro hnone
      rw [contribution_of_ne_rest hne,hnone] at hv
      cases hv
    exact column_of_all hne fun item' hitem' => h.same size item hitem item' hitem' event hhas

lemma Complete.atStage (hknown : KnownEvents latencies) (h : Complete latencies) {size : Size}
    (hfiles : filesOf latencies size ≠ []) :
    AtStage (filesOf latencies size) (fun item event => averageOf event item) []
      (tableOf (filesOf latencies size)) := by
  intro event hevent
  have hcolumn : column (tableOf (filesOf latencies size)) event =
      (filesOf latencies size).map fun item =>
        stage [] (fun event => averageOf event item) event := by
    rcases List.mem_cons.mp hevent with rfl | hevent
    · exact column_rest_of_all
        (fun item hitem => hknown.no_rest (mem_entries_of_mem_filesOf hitem))
        fun item hitem => h.faults item (mem_entries_of_mem_filesOf hitem)
    · have hne := ne_rest_of_mem_knownEvents event (tail_components_subset event hevent)
      rw [column_of_all hne fun item hitem =>
        h.events item (mem_entries_of_mem_filesOf hitem) event hevent]
      apply List.map_congr_left
      intro item _
      simp [stage,inclusive,hne]
  rw [get?_of_tight (tight_tableOf _),if_neg (by rw [hcolumn]; simpa using hfiles),hcolumn]

lemma Complete.conserved (hknown : KnownEvents latencies) (hcap : CapagingNested latencies)
    (h : Complete latencies) (size : Size) :
    Conserved (filesOf latencies size) (tableOf (filesOf latencies size)) := by
  intro i item hi
  have hmem := List.mem_of_getElem? hi
  obtain ⟨y',hrun,hparts⟩ := breakdown_eq (h.atStage hknown (List.ne_nil_of_mem hmem))
  refine ⟨y',hrun,?_⟩
  rw [total_eq hparts hi,sum_part _ (hcap item (mem_entries_of_mem_filesOf hmem))]

/-- Lists in step mean that an event of one file is an event of all files. -/
lemma has_of_aligned {files : List (Text × Events)} (h : Aligned files (tableOf files))
    {event : Text} (hevent : event ∈ knownEvents) {vals : List ℚ}
    (hvals : (tableOf files).get? event = some vals) :
    ∀ item ∈ files,item.2.get? event ≠ none := by
  have hne := ne_rest_of_mem_knownEvents event hevent
  have hcolumn : column (tableOf files) event = files.map (averageOf event) := by
    rw [column,hvals]
    exact h event hevent vals hvals
  rw [column_tableOf] at hcolumn
  have hall := ne_nil_of_length (fun f _ => contribution_length_le hne f)
    (by rw [hcolumn,List.length_map])
  intro item hitem hnone
  apply hall item hitem
  rw [contribution_of_ne_rest hne,hnone]
  rfl

lemma get?_ne_none_of_contribution {files : List (Text × Events)} {event : Text}
    (hne : event ≠ rest) {item : Text × Events} (hitem : item ∈ files)
    (h : item.2.get? event ≠ none) : (tableOf files).get? event ≠ none := by
  obtain ⟨data,hdata⟩ := Option.ne_none_iff_exists'.mp h
  have hcolumn : column (tableOf files) event ≠ [] := by
    rw [column_tableOf]
    apply List.ne_nil_of_mem (a := average data)
    apply List.mem_flatMap.mpr
    refine ⟨item,hitem,?_⟩
    rw [contribution_of_ne_rest hne,hdata]
    exact List.mem_singleton_self _
  rw [get?_of_tight (tight_tableOf _),if_neg hcolumn]
  nofun

/-- The lists of a conserved class reach to its last file. -/
lemma length_le_of_conserved {files : List (Text × Events)}
    (h : Conserved files (tableOf files)) (hfiles : files ≠ []) {event : Text}
    (hevent : event ∈ components) :
    ∃ vals,(tableOf files).get? event = some vals ∧ files.length ≤ vals.length := by
  have hlen := List.length_pos_of_ne_nil hfiles
  have hlast : files[files.length-1]? = some files[files.length-1] :=
    List.getElem?_eq_getElem (by omega)
  obtain ⟨y',hrun,htotal⟩ := h _ _ hlast
  obtain ⟨vals',hvals',hi⟩ := exists_of_total htotal event hevent
  have hframe := breakdown_lengths hrun event
  rw [hvals'] at hframe
  obtain ⟨vals,hvals,hsame⟩ := Option.map_eq_some_iff.mp hframe.symm
  exact ⟨vals,hvals,by omega⟩

/-- A breakdown without a remainder needs complete files. -/
lemma complete_of_breaksDown (hknown : KnownEvents latencies) (h : BreaksDown latencies) :
    Complete latencies := by
  obtain ⟨a,ha,hsizes⟩ := h
  have hpaths := aggregate_paths ha
  obtain ⟨a',ha',htable⟩ := aggregate_eq hpaths
  obtain rfl := Except.ok.inj (ha.symm.trans ha')
  have hclass : ∀ item ∈ latencies.entries,∃ size,item ∈ filesOf latencies size ∧
      Aligned (filesOf latencies size) (tableOf (filesOf latencies size)) ∧
      Conserved (filesOf latencies size) (tableOf (filesOf latencies size)) := by
    intro item hitem
    obtain ⟨size,hsize⟩ := Option.isSome_iff_exists.mp (hpaths item hitem)
    have hboth := hsizes size
    rw [htable] at hboth
    exact ⟨size,mem_filesOf hitem hsize,hboth⟩
  refine ⟨hpaths,fun item hitem => ?_,fun item hitem event hevent => ?_,?_⟩
  · obtain ⟨size,hmem,-,hconserved⟩ := hclass item hitem
    have hlast : rest ∈ components := by decide
    obtain ⟨vals,hvals,hlen⟩ := length_le_of_conserved hconserved (List.ne_nil_of_mem hmem) hlast
    have hcolumn : column (tableOf (filesOf latencies size)) rest = vals := by
      rw [column,hvals]
      rfl
    rw [← hcolumn,column_tableOf] at hlen
    have hrest : ∀ f ∈ filesOf latencies size,f.2.get? rest = none :=
      fun f hf => hknown.no_rest (mem_entries_of_mem_filesOf hf)
    have hne := ne_nil_of_length (fun f hf => contribution_rest_length_le (hrest f hf)) hlen item
      hmem
    rw [contribution_rest (hrest item hmem)] at hne
    cases hfault : item.2.get? fault with
    | none => simp [hfault] at hne
    | some data => exact ⟨data,rfl,fun hdata => by simp [hfault,hdata] at hne⟩
  · obtain ⟨size,hmem,haligned,hconserved⟩ := hclass item hitem
    obtain ⟨vals,hvals,-⟩ := length_le_of_conserved hconserved (List.ne_nil_of_mem hmem)
      (List.mem_of_mem_tail hevent)
    exact has_of_aligned haligned (tail_components_subset event hevent) hvals item hmem
  · intro size item hitem item' hitem' event hhas
    have hevent := hknown item (mem_entries_of_mem_filesOf hitem) event hhas
    have haligned := (hsizes size).1
    rw [htable] at haligned
    obtain ⟨vals,hvals⟩ := Option.ne_none_iff_exists'.mp
      (get?_ne_none_of_contribution (ne_rest_of_mem_knownEvents event hevent) hitem hhas)
    exact has_of_aligned haligned hevent hvals item' hitem'

lemma knownEvents_of_keys
    (h : ∀ item ∈ latencies.entries,∀ event ∈ item.2.entries.map Prod.fst,event ∈ knownEvents) :
    KnownEvents latencies :=
  fun item hitem event hhas => h item hitem event ((item.2.mem_keys event).mpr hhas)

/-- The figure conserves the latency of faults exactly for complete traces. -/
theorem breaksDown_iff (hknown : KnownEvents latencies) (hcap : CapagingNested latencies) :
    BreaksDown latencies ↔ Complete latencies := by
  constructor
  · exact complete_of_breaksDown hknown
  · intro h
    obtain ⟨a,ha,htable⟩ := aggregate_eq h.paths
    refine ⟨a,ha,fun size => ?_⟩
    rw [htable]
    exact ⟨h.aligned size,h.conserved hknown hcap size⟩

end

/-- Two trace files of one size with all events, each in its time. -/
def twoFiles : Latencies :=
  ⟨[("traces/a".toList,⟨knownEvents.map fun event => (event,[1]),by decide⟩),
    ("traces/b".toList,⟨knownEvents.map fun event => (event,[3,5]),by decide⟩)],by decide⟩

theorem twoFiles_breaksDown_iff :
    KnownEvents twoFiles ∧ CapagingNested twoFiles ∧
      (BreaksDown twoFiles ↔ Complete twoFiles) := by
  have hknown : KnownEvents twoFiles := knownEvents_of_keys (by decide)
  have hcap : CapagingNested twoFiles := by
    unfold CapagingNested
    decide +kernel
  exact ⟨hknown,hcap,breaksDown_iff hknown hcap⟩

/-- A dump with the histogram of every event, of which only that of the faults has hits. -/
def dumpOf (hits : List Text) : List Text :=
  (knownEvents.flatMap fun event =>
    (eventsDir ++ "pftrace/".toList ++ event ++ "/hist".toList) ::
      if event = fault then hits else [])

/-- Two traces, the first without any fault. -/
def faultlessTrace : List (Text × Option (List Text)) :=
  [("traces/a".toList,some (dumpOf [])),
    ("traces/b".toList,some (dumpOf ["\x7b cycles: ~ 250-250 \x7d hitcount:          1".toList]))]

theorem faultlessTrace_not_breaksDown :
    ∃ latencies,parseTraces faultlessTrace = .ok latencies ∧ KnownEvents latencies ∧
      CapagingNested latencies ∧ ¬ BreaksDown latencies := by
  have htest : (match parseTraces faultlessTrace with
    | .ok latencies =>
      latencies.entries.all (fun item =>
        item.2.entries.all (fun e => knownEvents.contains e.1) &&
          averageOf rmqueueCapaging item == 0) &&
        latencies.entries.any (fun item => item.2.get? fault == some [])
    | .error _ => false) = true := by decide +kernel
  split at htest
  · rename_i latencies hparse
    simp only [Bool.and_eq_true,List.all_eq_true,List.any_eq_true,List.contains_iff_mem,
      beq_iff_eq] at htest
    obtain ⟨hall,item,hitem,hfault⟩ := htest
    have hknown : KnownEvents latencies := by
      apply knownEvents_of_keys
      intro item hitem event hevent
      obtain ⟨e,he,rfl⟩ := List.mem_map.mp hevent
      exact (hall item hitem).1 e he
    refine ⟨latencies,hparse,hknown,fun item hitem _ => (hall item hitem).2,fun h => ?_⟩
    obtain ⟨data,hdata,hne⟩ := (complete_of_breaksDown hknown h).faults item hitem
    rw [hfault] at hdata
    exact hne (Option.some.inj hdata).symm
  · cases htest

end ElasticTranslations.Scripts.FaultBreakdown
