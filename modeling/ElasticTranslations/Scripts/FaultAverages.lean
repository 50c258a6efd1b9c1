import ElasticTranslations.Scripts.FaultBreakdown

/-! The two halves of `plot_breakdown_stacked.py`: what the aggregation appends for each file, and
what the loops of the breakdown make of lists that are in step. -/
namespace ElasticTranslations.Scripts.FaultBreakdown
open Structures

/-- A list of an event so far, empty if there is none. -/
def column (y : Averages) (event : Text) : List ℚ := (y.get? event).getD []

/-- Lists of averages are not empty. -/
def Tight (y : Averages) : Prop := ∀ event,y.get? event ≠ some []

lemma get?_of_tight {y : Averages} (h : Tight y) (event : Text) :
    y.get? event = if column y event = [] then none else some (column y event) := by
  have hne := h event
  unfold column
  cases hget : y.get? event with
  | none => simp
  | some vals =>
    have hvals : vals ≠ [] := fun he => hne (by rw [hget,he])
    simp [hvals]

lemma column_append (y : Averages) (event event' : Text) (v : ℚ) :
    column (append y event v) event' =
      column y event' ++ if event' = event then [v] else [] := by
  unfold column append
  rw [Dict.get?_set]
  by_cases h : event' = event
  · simp [h]
  · simp [h]

lemma tight_append {y : Averages} (h : Tight y) (event : Text) (v : ℚ) :
    Tight (append y event v) := by
  intro event'
  rw [append,Dict.get?_set]
  by_cases he : event' = event
  · simp [he]
  · rw [if_neg he]
    exact h event'

/-- What an event of a file adds to the list of another. -/
def emitted (event : Text) (item : Text × List ℚ) : List ℚ :=
  (if event = item.1 then [average item.2] else []) ++
    if event = rest ∧ item.1 = fault ∧ item.2 ≠ [] then [average item.2] else []

lemma column_addEvent (y : Averages) (item : Text × List ℚ) (event : Text) :
    column (addEvent y item) event = column y event ++ emitted event item := by
  obtain ⟨name,data⟩ := item
  unfold addEvent emitted
  by_cases hdata : data = []
  · subst hdata
    simp [column_append,average]
  · have hlen : data.length ≠ 0 := fun h => hdata (List.length_eq_zero_iff.mp h)
    by_cases hfault : name = fault
    · simp [hdata,hfault,column_append,average]
    · simp [hdata,hfault,column_append,average]

lemma tight_addEvent {y : Averages} (h : Tight y) (item : Text × List ℚ) :
    Tight (addEvent y item) := by
  unfold addEvent
  dsimp only
  split
  · split
    · exact tight_append (tight_append h _ _) _ _
    · exact tight_append h _ _
  · exact tight_append h _ _

lemma column_foldl_addEvent (l : List (Text × List ℚ)) (y : Averages) (event : Text) :
    column (l.foldl addEvent y) event = column y event ++ l.flatMap (emitted event) := by
  induction l generalizing y with
  | nil => simp
  | cons item l ih => rw [List.foldl_cons,ih,column_addEvent,List.flatMap_cons,List.append_assoc]

lemma tight_addEvents {y : Averages} (h : Tight y) (events : Events) :
    Tight (addEvents y events) := by
  unfold addEvents
  generalize events.entries = l
  induction l generalizing y with
  | nil => exact h
  | cons item l ih => exact ih (tight_addEvent h item)

/-- What a file adds to the list of an event. -/
def contribution (event : Text) (item : Text × Events) : List ℚ :=
  item.2.entries.flatMap (emitted event)

/-- A file adds its average of an event that it has, and nothing otherwise. -/
lemma contribution_of_ne_rest {event : Text} (h : event ≠ rest) (item : Text × Events) :
    contribution event item = ((item.2.get? event).map average).toList := by
  rw [contribution,Dict.flatMap_entries _ event]
  · cases item.2.get? event with
    | none => rfl
    | some data => simp [emitted,h]
  · intro e _ hne
    simp [emitted,h,Ne.symm hne]

/-- A file adds to the rest if its fault histogram has data. -/
lemma contribution_rest {item : Text × Events} (hrest : item.2.get? rest = none) :
    contribution rest item =
      ((item.2.get? fault).map fun data => if data = [] then [] else [average data]).getD [] := by
  have hkey : ∀ e ∈ item.2.entries,e.1 ≠ rest := by
    intro e he heq
    have hget := (item.2.mem_entries e.1 e.2).mp he
    rw [heq,hrest] at hget
    cases hget
  rw [contribution,Dict.flatMap_entries _ fault]
  · cases item.2.get? fault with
    | none => rfl
    | some data =>
      have hne : ¬ rest = fault := by decide
      by_cases hdata : data = []
      · simp [emitted,hne,hdata]
      · simp [emitted,hne,hdata]
  · intro e he hne
    simp [emitted,hne,Ne.symm (hkey e he)]

/-- The averages of a list of files. -/
def tableOf (files : List (Text × Events)) : Averages :=
  files.foldl (fun y item => addEvents y item.2) .empty

lemma tableOf_snoc (files : List (Text × Events)) (item : Text × Events) :
    tableOf (files ++ [item]) = addEvents (tableOf files) item.2 := by
  rw [tableOf,List.foldl_append]
  rfl

lemma tight_tableOf (files : List (Text × Events)) : Tight (tableOf files) := by
  induction files using List.reverseRecOn with
  | nil => exact fun event => by simp [tableOf]
  | append_singleton files item ih =>
    rw [tableOf_snoc]
    exact tight_addEvents ih item.2

lemma column_tableOf (files : List (Text × Events)) (event : Text) :
    column (tableOf files) event = files.flatMap (contribution event) := by
  induction files using List.reverseRecOn with
  | nil => rfl
  | append_singleton files item ih =>
    rw [tableOf_snoc,addEvents,column_foldl_addEvent,ih,List.flatMap_append]
    simp [contribution]

/-- The loop over the files keeps one table for each size class. -/
lemma aggregate_eq {latencies : Latencies}
    (h : ∀ item ∈ latencies.entries,(sizeOfFile item.1).isSome) :
    ∃ a,aggregate latencies = .ok a ∧ ∀ size,a.y size = tableOf (filesOf latencies size) := by
  unfold aggregate filesOf
  generalize latencies.entries = l at h
  induction l using List.reverseRecOn with
  | nil => exact ⟨_,rfl,fun size => rfl⟩
  | append_singleton l item ih =>
    obtain ⟨a,ha,hy⟩ := ih fun item' hi => h item' (List.mem_append_left _ hi)
    obtain ⟨size,hsize⟩ := Option.isSome_iff_exists.mp (h item (by simp))
    obtain ⟨file,hfile,hclass⟩ : ∃ file,secondPart item.1 = .ok file ∧ sizeOfName file = size := by
      unfold sizeOfFile at hsize
      cases hpart : secondPart item.1 with
      | error e => simp [hpart,Except.toOption] at hsize
      | ok file => exact ⟨file,rfl,by simpa [hpart,Except.toOption] using hsize⟩
    rw [foldlM_snoc_ok ha,addFile,hfile]
    refine ⟨_,rfl,fun size' => ?_⟩
    rw [List.filter_append]
    by_cases hs : size' = size
    · subst hs
      have hkeep : [item].filter (fun item => sizeOfFile item.1 = some size') = [item] := by
        simp [hsize]
      rw [hkeep,tableOf_snoc,← hy]
      simp [hclass]
    · have hdrop : [item].filter (fun item => decide (sizeOfFile item.1 = some size')) = [] := by
        simp [hsize,Ne.symm hs]
      rw [hdrop,List.append_nil,← hy]
      simp [hclass,hs]

lemma aggregate_paths {latencies : Latencies} {a : Aggregate} (h : aggregate latencies = .ok a) :
    ∀ item ∈ latencies.entries,(sizeOfFile item.1).isSome := by
  unfold aggregate at h
  generalize latencies.entries = l at h
  induction l using List.reverseRecOn generalizing a with
  | nil => exact fun item hitem => absurd hitem List.not_mem_nil
  | append_singleton l last ih =>
    obtain ⟨before,hbefore,hlast⟩ := foldlM_snoc_inv h
    obtain ⟨file,hfile,-⟩ := bind_eq_ok hlast
    intro item hitem
    rcases List.mem_append.mp hitem with hitem | hitem
    · exact ih hbefore item hitem
    · obtain rfl := List.mem_singleton.mp hitem
      simp [sizeOfFile,hfile,Except.toOption]

lemma lookup_eq_ok {y : Averages} {event : Text} {vals : List ℚ} :
    lookup y event = .ok vals ↔ y.get? event = some vals := by
  unfold lookup
  cases y.get? event with
  | none => exact ⟨nofun,nofun⟩
  | some vals' => exact ⟨fun h => congrArg some (Except.ok.inj h),fun h => by cases h; rfl⟩

lemma entry_eq {y : Averages} {event : Text} {vals : List ℚ} {i : ℕ} {val : ℚ}
    (h : y.get? event = some vals) (hi : vals[i]? = some val) : entry y event i = .ok val := by
  rw [entry,lookup_eq_ok.mpr h]
  simp only [bind,Except.bind,hi]
  rfl

section
variable (event : Text) (body : Averages → ℕ → ℚ → Except PlotError ℚ)

variable {event body} in
/-- A round writes one list and keeps its length. -/
lemma setEntry_lengths {y y' : Averages} {i : ℕ} (h : setEntry event body y i = .ok y')
    (e : Text) : (y'.get? e).map List.length = (y.get? e).map List.length := by
  obtain ⟨val,-,h⟩ := bind_eq_ok h
  obtain ⟨val',-,h⟩ := bind_eq_ok h
  obtain ⟨vals,hvals,h⟩ := bind_eq_ok h
  obtain rfl := Except.ok.inj h
  rw [Dict.get?_set]
  by_cases he : e = event
  · rw [if_pos he,he,lookup_eq_ok.mp hvals]
    simp
  · rw [if_neg he]

variable {event body} in
lemma setEntries_lengths {y y' : Averages} {l : List ℕ}
    (h : l.foldlM (setEntry event body) y = .ok y') (e : Text) :
    (y'.get? e).map List.length = (y.get? e).map List.length := by
  induction l using List.reverseRecOn generalizing y' with
  | nil =>
    obtain rfl := Except.ok.inj h
    rfl
  | append_singleton l i ih =>
    obtain ⟨before,hbefore,hlast⟩ := foldlM_snoc_inv h
    rw [setEntry_lengths hlast e,ih hbefore]

variable {event body} in
lemma eachEntry_lengths {y y' : Averages} (h : eachEntry event body y = .ok y') (e : Text) :
    (y'.get? e).map List.length = (y.get? e).map List.length := by
  obtain ⟨vals,-,h⟩ := bind_eq_ok h
  exact setEntries_lengths h e

/-- A loop whose body reads other lists only replaces the values of its own list. -/
lemma eachEntry_eq {α : Type*} {files : List α} {v g : α → ℚ} {y : Averages}
    (hy : y.get? event = some (files.map v))
    (hbody : ∀ y' : Averages,(∀ e,e ≠ event → y'.get? e = y.get? e) →
      ∀ i f,files[i]? = some f → body y' i (v f) = .ok (g f)) :
    ∃ y',eachEntry event body y = .ok y' ∧ y'.get? event = some (files.map g) ∧
      ∀ e,e ≠ event → y'.get? e = y.get? e := by
  have hrounds : ∀ n ≤ files.length,∃ y',(List.range n).foldlM (setEntry event body) y = .ok y' ∧
      y'.get? event = some ((files.take n).map g ++ (files.drop n).map v) ∧
      ∀ e,e ≠ event → y'.get? e = y.get? e := by
    intro n
    induction n with
    | zero => exact fun _ => ⟨y,rfl,by simpa using hy,fun e _ => rfl⟩
    | succ n ih =>
      intro hn
      obtain ⟨y',hrun,hvals,hothers⟩ := ih (by omega)
      have hfile : files[n]? = some files[n] := List.getElem?_eq_getElem hn
      have hlen : ((files.take n).map g).length = n := by
        rw [List.length_map,List.length_take]
        omega
      have hdrop : files.drop n = files[n] :: files.drop (n+1) := List.drop_eq_getElem_cons hn
      have hval : ((files.take n).map g ++ (files.drop n).map v)[n]? = some (v files[n]) := by
        rw [List.getElem?_append_right (by omega),hlen,hdrop,List.map_cons,Nat.sub_self,
          List.getElem?_cons_zero]
      have hnew : ((files.take n).map g ++ (files.drop n).map v).set n (g files[n]) =
          (files.take (n+1)).map g ++ (files.drop (n+1)).map v := by
        rw [List.set_append_right _ _ (by omega),hlen,hdrop,List.take_succ_eq_append_getElem hn,
          List.map_append,List.map_cons,Nat.sub_self,List.set_cons_zero,List.append_assoc]
        rfl
      refine ⟨y'.set event ((files.take (n+1)).map g ++ (files.drop (n+1)).map v),?_,?_,?_⟩
      · rw [List.range_succ,foldlM_snoc_ok hrun,setEntry,entry_eq hvals hval]
        change (do
          let val ← body y' n (v files[n])
          let vals ← lookup y' event
          return y'.set event (vals.set n val)) = _
        rw [hbody y' hothers n _ hfile,lookup_eq_ok.mpr hvals]
        exact congrArg (fun l => Except.ok (y'.set event l)) hnew
      · rw [Dict.get?_set,if_pos rfl]
      · intro e he
        rw [Dict.get?_set,if_neg he]
        exact hothers e he
  obtain ⟨y',hrun,hvals,hothers⟩ := hrounds files.length (Nat.le_refl _)
  refine ⟨y',?_,by simpa using hvals,hothers⟩
  rw [eachEntry,lookup_eq_ok.mpr hy]
  change (List.range (files.map v).length).foldlM (setEntry event body) y = _
  rw [List.length_map]
  exact hrun

end

lemma breakdown_lengths {y y' : Averages} (h : breakdown y false = .ok y') (e : Text) :
    (y'.get? e).map List.length = (y.get? e).map List.length := by
  obtain ⟨y₁,h₁,h⟩ := bind_eq_ok h
  obtain ⟨y₂,h₂,h⟩ := bind_eq_ok h
  obtain ⟨y₃,h₃,h⟩ := bind_eq_ok h
  obtain ⟨y₄,h₄,h₅⟩ := bind_eq_ok h
  rw [eachEntry_lengths h₅,eachEntry_lengths h₄,eachEntry_lengths h₃,eachEntry_lengths h₂,
    eachEntry_lengths h₁]

lemma entry_map {α : Type*} {files : List α} {u : α → ℚ} {y : Averages} {event : Text} {i : ℕ}
    {f : α} (h : y.get? event = some (files.map u)) (hf : files[i]? = some f) :
    entry y event i = .ok (u f) := by
  apply entry_eq h
  rw [List.getElem?_map,hf]
  rfl

/-- What the breakdown leaves of the averages of a file. -/
def part (avg : Text → ℚ) (event : Text) : ℚ :=
  if event = rest then avg fault - avg allocpages - avg setpte
  else if event = allocpages then
    if avg allocpagesCapaging ≠ 0 then avg allocpages - avg allocpagesCapaging
    else avg allocpages - avg rmqueue
  else if event = allocpagesCapaging then
    if avg allocpagesCapaging ≠ 0 then
      avg allocpagesCapaging - avg rmqueue - avg rmqueueCapaging
    else avg allocpagesCapaging
  else if event = rmqueueCapaging then avg rmqueueCapaging - avg ptescan - avg pmdscan
  else if event = setpte then avg setpte - avg etset
  else avg event

/-- The averages before the breakdown: the rest is the whole fault. -/
def inclusive (avg : Text → ℚ) (event : Text) : ℚ := if event = rest then avg fault else avg event

/-- An event without a loop of its own stands for itself. -/
lemma part_of_no_loop (avg : Text → ℚ) {event : Text}
    (h : event ∉ [setpte,rmqueueCapaging,allocpagesCapaging,allocpages,rest]) :
    part avg event = inclusive avg event := by
  simp only [List.mem_cons,List.not_mem_nil,or_false,not_or] at h
  simp [part,inclusive,h]

/-- The averages when the loops of some events are done. -/
def stage (done : List Text) (avg : Text → ℚ) (event : Text) : ℚ :=
  if event ∈ done then part avg event else inclusive avg event

section
variable {α : Type*} {files : List α} {avg : α → Text → ℚ}

/-- The lists of the nine parts at a stage. -/
def AtStage (files : List α) (avg : α → Text → ℚ) (done : List Text) (y : Averages) : Prop :=
  ∀ event ∈ components,y.get? event = some (files.map fun f => stage done (avg f) event)

/-- The loop of one event, if its body finds what it needs in the lists of the others. -/
lemma eachEntry_stage (event : Text) (body : Averages → ℕ → ℚ → Except PlotError ℚ)
    {done : List Text} {y : Averages} (hy : AtStage files avg done y)
    (hevent : event ∈ components)
    (hbody : ∀ y' : Averages,∀ i f,
      (∀ e ∈ components,e ≠ event → entry y' e i = .ok (stage done (avg f) e)) →
      body y' i (stage done (avg f) event) = .ok (part (avg f) event)) :
    ∃ y',eachEntry event body y = .ok y' ∧ AtStage files avg (event :: done) y' := by
  obtain ⟨y',hrun,hval,hothers⟩ := eachEntry_eq event body (hy event hevent)
    (g := fun f => part (avg f) event) (by
      intro y' hy' i f hf
      apply hbody y' i f
      intro e he hne
      exact entry_map (u := fun f => stage done (avg f) e) ((hy' e hne).trans (hy e he)) hf)
  refine ⟨y',hrun,fun e he => ?_⟩
  by_cases hee : e = event
  · subst hee
    simpa [stage] using hval
  · rw [hothers e hee,hy e he]
    simp [stage,hee]

/-- The loops of the breakdown find the lists of their children as the aggregation left them. -/
lemma breakdown_eq {y : Averages} (hy : AtStage files avg [] y) :
    ∃ y',breakdown y false = .ok y' ∧
      ∀ event ∈ components,y'.get? event = some (files.map fun f => part (avg f) event) := by
  obtain ⟨y₁,h₁,hy₁⟩ := eachEntry_stage rest restBody hy (by decide) (by
    intro y' i f hentry
    rw [restBody,hentry allocpages (by decide) (by decide),
      hentry setpte (by decide) (by decide)]
    rfl)
  obtain ⟨y₂,h₂,hy₂⟩ := eachEntry_stage allocpages allocpagesBody hy₁ (by decide) (by
    intro y' i f hentry
    rw [allocpagesBody,hentry allocpagesCapaging (by decide) (by decide),
      hentry rmqueue (by decide) (by decide)]
    change (if avg f allocpagesCapaging ≠ 0 then _ else _) =
      Except.ok (if avg f allocpagesCapaging ≠ 0 then _ else _)
    split <;> rfl)
  obtain ⟨y₃,h₃,hy₃⟩ := eachEntry_stage allocpagesCapaging allocpagesCapagingBody hy₂
    (by decide) (by
    intro y' i f hentry
    rw [allocpagesCapagingBody,hentry rmqueue (by decide) (by decide),
      hentry rmqueueCapaging (by decide) (by decide)]
    change (if avg f allocpagesCapaging ≠ 0 then _ else _) =
      Except.ok (if avg f allocpagesCapaging ≠ 0 then _ else _)
    split <;> rfl)
  obtain ⟨y₄,h₄,hy₄⟩ := eachEntry_stage rmqueueCapaging rmqueueCapagingBody hy₃ (by decide) (by
    intro y' i f hentry
    rw [rmqueueCapagingBody,hentry ptescan (by decide) (by decide),
      hentry pmdscan (by decide) (by decide)]
    rfl)
  obtain ⟨y₅,h₅,hy₅⟩ := eachEntry_stage setpte setpteBody hy₄ (by decide) (by
    intro y' i f hentry
    rw [setpteBody,hentry etset (by decide) (by decide)]
    rfl)
  refine ⟨y₅,?_,fun event hevent => ?_⟩
  · rw [breakdown,h₁]
    change eachEntry allocpages allocpagesBody y₁ >>= _ = _
    rw [h₂]
    change eachEntry allocpagesCapaging allocpagesCapagingBody y₂ >>= _ = _
    rw [h₃]
    change eachEntry rmqueueCapaging rmqueueCapagingBody y₃ >>= _ = _
    rw [h₄]
    exact h₅
  · rw [hy₅ event hevent]
    congr 2
    funext f
    by_cases hdone : event ∈ [setpte,rmqueueCapaging,allocpagesCapaging,allocpages,rest]
    · exact if_pos hdone
    · exact (if_neg hdone).trans (part_of_no_loop (avg f) hdone).symm

end

/-- The parts of a file telescope to its fault. -/
lemma sum_part (avg : Text → ℚ) (h : avg allocpagesCapaging = 0 → avg rmqueueCapaging = 0) :
    (components.map (part avg)).sum = avg fault := by
  have hparts : components.map (part avg) =
      [avg fault - avg allocpages - avg setpte,
        if avg allocpagesCapaging ≠ 0 then avg allocpages - avg allocpagesCapaging
        else avg allocpages - avg rmqueue,
        if avg allocpagesCapaging ≠ 0 then
          avg allocpagesCapaging - avg rmqueue - avg rmqueueCapaging
        else avg allocpagesCapaging,
        avg rmqueue,avg rmqueueCapaging - avg ptescan - avg pmdscan,avg ptescan,avg pmdscan,
        avg setpte - avg etset,avg etset] := rfl
  rw [hparts]
  by_cases hcap : avg allocpagesCapaging = 0
  · simp only [hcap,h hcap,ne_eq,not_true_eq_false,if_false,List.sum_cons,List.sum_nil]
    ring
  · simp only [ne_eq,hcap,not_false_eq_true,if_true,List.sum_cons,List.sum_nil]
    ring

end ElasticTranslations.Scripts.FaultBreakdown
