import ElasticTranslations.Scripts.Text
import ElasticTranslations.Structures.Dict
import ElasticTranslations.Structures.Trace
import Mathlib.Algebra.BigOperators.Group.List.Basic
import Mathlib.Algebra.Order.Field.Rat
import Mathlib.Data.List.Infix
import Mathlib.Logic.Function.Basic
import Mathlib.Tactic.Linarith
import Mathlib.Tactic.Ring

/-! `plot_breakdown_stacked.py`: the latencies of page faults, averaged by trace file and broken
down into the events inside a fault. Averages are exact rationals in place of `float`. -/
namespace ElasticTranslations.Scripts.FaultBreakdown
open Structures

/-- The exceptions that end the script. -/
inductive PlotError where
  | keyError (key : Text)
  | indexError
  deriving DecidableEq

abbrev Events := Dict Text (List ℚ)
abbrev Latencies := Dict Text Events

/-- The lists of averages of one size class, by event. -/
abbrev Averages := Dict Text (List ℚ)

def fault : Text := "fault".toList
def rest : Text := "rest".toList
def allocpages : Text := "allocpages".toList
def allocpagesCapaging : Text := "allocpages_capaging".toList
def rmqueue : Text := "rmqueue".toList
def rmqueueCapaging : Text := "rmqueue_capaging".toList
def ptescan : Text := "ptescan".toList
def pmdscan : Text := "pmdscan".toList
def setpte : Text := "setpte".toList
def etset : Text := "etset".toList
def etflush : Text := "etflush".toList

/-- The events of the traces. -/
def knownEvents : List Text :=
  [fault,allocpages,allocpagesCapaging,rmqueue,rmqueueCapaging,ptescan,pmdscan,setpte,etset,etflush]

/-- `s.split('/')[1]` of a stripped text. -/
def secondPart (s : Text) : Except PlotError Text :=
  match (split '/' (strip s))[1]? with
  | some part => return part
  | none => throw .indexError

def eventsDir : Text := "/sys/kernel/debug/tracing/events/".toList

def resolution : ℕ := 1000000000/25000000

/-- What is left of a text after a fixed beginning. -/
def after (begin s : Text) : Option Text :=
  if begin <+: s then some (s.drop begin.length) else none

/-- One or more digits. -/
def digits (s : Text) : Option (ℕ × Text) :=
  let ds := s.takeWhile Char.isDigit
  if ds = [] then none
  else some (ds.foldl (fun n c => n*10+(c.toNat-48)) 0,s.dropWhile Char.isDigit)

/-- The regular expression for a bucket: its bounds and its number of hits. -/
def matchBucket (s : Text) : Option (ℕ × ℕ × ℕ) := do
  let s ← after "\x7b cycles: ~ ".toList s
  let (min,s) ← digits s
  let s ← after ['-'] s
  let (max,s) ← digits s
  let s ← after " \x7d hitcount:".toList s
  let spaces := s.takeWhile isSpace
  let (count,s) ← digits (s.dropWhile isSpace)
  if spaces ≠ [] ∧ s = [] then some (min,max,count) else none

/-- The variables of the loop over the lines of a file; `data` outlives the file. -/
structure Reader where
  events : Events
  data : List ℚ
  event : Option Text

/-- `if event is not None`: the data goes to the event that was open. -/
def closeEvent (r : Reader) : Except PlotError Reader :=
  match r.event with
  | none => return r
  | some event => do
    let event ← secondPart event
    return { r with events := r.events.set event r.data, data := [] }

def readLine (r : Reader) (line : Text) : Except PlotError Reader :=
  match after eventsDir line with
  | some stripped => do
    let r ← closeEvent r
    return { r with event := some stripped }
  | none =>
    match matchBucket (strip line) with
    | none => return r
    | some (min,max,count) =>
      let lower := min*resolution
      let upper := max*resolution
      return { r with data := r.data ++ List.replicate count (((upper+lower)/2 : ℕ)/1000 : ℚ) }

/-- A path that matched; a directory has no lines. -/
def readFile (s : Latencies × List ℚ) (file : Text × Option (List Text)) :
    Except PlotError (Latencies × List ℚ) :=
  match file.2 with
  | none => return s
  | some lines => do
    let r ← lines.foldlM readLine ⟨(s.1.get? file.1).getD .empty,s.2,none⟩
    let r ← closeEvent r
    return (s.1.set file.1 r.events,r.data)

def parseTraces (files : List (Text × Option (List Text))) : Except PlotError Latencies :=
  Prod.fst <$> files.foldlM readFile (.empty,[])

inductive Size where
  | base
  | thp
  deriving DecidableEq

def sizeOfName (name : Text) : Size := if "thp".toList <:+: name then .thp else .base

/-- `setdefault` and `append`. -/
def append (y : Averages) (event : Text) (v : ℚ) : Averages :=
  y.set event ((y.get? event).getD [] ++ [v])

def addEvent (y : Averages) (item : Text × List ℚ) : Averages :=
  let (event,data) := item
  if data.length ≠ 0 then
    let avg := data.sum/data.length
    let y := append y event avg
    if event = fault then append y rest avg else y
  else append y event 0

/-- The inner loop, over the events of a file. -/
def addEvents (y : Averages) (events : Events) : Averages := events.entries.foldl addEvent y

structure Aggregate where
  x : Size → List Text
  y : Size → Averages

def addFile (a : Aggregate) (item : Text × Events) : Except PlotError Aggregate := do
  let file ← secondPart item.1
  let size := sizeOfName file
  return {
    x := Function.update a.x size (a.x size ++ [file]),
    y := Function.update a.y size (addEvents (a.y size) item.2) }

def aggregate (latencies : Latencies) : Except PlotError Aggregate :=
  latencies.entries.foldlM addFile ⟨fun _ => [],fun _ => .empty⟩

/-- `y[event]`. -/
def lookup (y : Averages) (event : Text) : Except PlotError (List ℚ) :=
  match y.get? event with
  | some vals => return vals
  | none => throw (.keyError event)

/-- `y[event][i]`. -/
def entry (y : Averages) (event : Text) (i : ℕ) : Except PlotError ℚ := do
  let vals ← lookup y event
  match vals[i]? with
  | some val => return val
  | none => throw .indexError

/-- One round of a loop `for (i, val) in enumerate(y[event]): y[event][i] = ...`; the body gives
the new value. -/
def setEntry (event : Text) (body : Averages → ℕ → ℚ → Except PlotError ℚ) (y : Averages) (i : ℕ) :
    Except PlotError Averages := do
  let val ← entry y event i
  let val ← body y i val
  let vals ← lookup y event
  return y.set event (vals.set i val)

def eachEntry (event : Text) (body : Averages → ℕ → ℚ → Except PlotError ℚ) (y : Averages) :
    Except PlotError Averages := do
  let vals ← lookup y event
  (List.range vals.length).foldlM (setEntry event body) y

def restBody (y : Averages) (i : ℕ) (val : ℚ) : Except PlotError ℚ := do
  return val - (← entry y allocpages i) - (← entry y setpte i)

def allocpagesBody (y : Averages) (i : ℕ) (val : ℚ) : Except PlotError ℚ := do
  if (← entry y allocpagesCapaging i) ≠ 0 then
    return val - (← entry y allocpagesCapaging i)
  else
    return val - (← entry y rmqueue i)

def allocpagesCapagingBody (y : Averages) (i : ℕ) (val : ℚ) : Except PlotError ℚ := do
  if val ≠ 0 then
    return val - (← entry y rmqueue i) - (← entry y rmqueueCapaging i)
  else
    return val

def rmqueueCapagingBody (y : Averages) (i : ℕ) (val : ℚ) : Except PlotError ℚ := do
  return val - (← entry y ptescan i) - (← entry y pmdscan i)

def setpteBody (y : Averages) (i : ℕ) (val : ℚ) : Except PlotError ℚ := do
  return val - (← entry y etset i)

def breakdown (y : Averages) (upper : Bool) : Except PlotError Averages := do
  let y ← eachEntry rest restBody y
  if upper then return y
  else
    let y ← eachEntry allocpages allocpagesBody y
    let y ← eachEntry allocpagesCapaging allocpagesCapagingBody y
    let y ← eachEntry rmqueueCapaging rmqueueCapagingBody y
    eachEntry setpte setpteBody y

/-- The average of a histogram, zero for an empty one. -/
def average (data : List ℚ) : ℚ := data.sum/data.length

/-- The average of an event in a file, zero also where the file does not have the event. -/
def averageOf (event : Text) (item : Text × Events) : ℚ :=
  average ((item.2.get? event).getD [])

def sizeOfFile (path : Text) : Option Size := (secondPart path).toOption.map sizeOfName

/-- The files of a size class, in order. -/
def filesOf (latencies : Latencies) (size : Size) : List (Text × Events) :=
  latencies.entries.filter fun item => sizeOfFile item.1 = some size

/-- The nine parts of a fault. -/
def components : List Text :=
  [rest,allocpages,allocpagesCapaging,rmqueue,rmqueueCapaging,ptescan,pmdscan,setpte,etset]

/-- The sum of the parts at a place, if all of them are there. -/
def total (y : Averages) (i : ℕ) : Option ℚ :=
  (components.mapM fun event => (y.get? event).bind (·[i]?)).map List.sum

/-- The list of every event has the average of each file of its class, in order. -/
def Aligned (files : List (Text × Events)) (y : Averages) : Prop :=
  ∀ event ∈ knownEvents,∀ vals,y.get? event = some vals → vals = files.map (averageOf event)

/-- The parts of each file add up to its fault. -/
def Conserved (files : List (Text × Events)) (y : Averages) : Prop :=
  ∀ i item,files[i]? = some item →
    ∃ y',breakdown y false = .ok y' ∧ total y' i = some (averageOf fault item)

/-- The script aggregates the files in step and breaks every fault down without a remainder. -/
def BreaksDown (latencies : Latencies) : Prop :=
  ∃ a,aggregate latencies = .ok a ∧
    ∀ size,Aligned (filesOf latencies size) (a.y size) ∧
      Conserved (filesOf latencies size) (a.y size)

/-- Every path has a directory, every fault histogram has data, every file has all events that
the breakdown needs, and the files of a class have the same events. -/
structure Complete (latencies : Latencies) : Prop where
  paths : ∀ item ∈ latencies.entries,(sizeOfFile item.1).isSome
  faults : ∀ item ∈ latencies.entries,∃ data,item.2.get? fault = some data ∧ data ≠ []
  events : ∀ item ∈ latencies.entries,∀ event ∈ components.tail,item.2.get? event ≠ none
  same : ∀ size,∀ item ∈ filesOf latencies size,∀ item' ∈ filesOf latencies size,
    ∀ event,item.2.get? event ≠ none → item'.2.get? event ≠ none

/-- The names of the events in the files are those of the traces. -/
def KnownEvents (latencies : Latencies) : Prop :=
  ∀ item ∈ latencies.entries,∀ event,item.2.get? event ≠ none → event ∈ knownEvents

/-- Files whose average of `allocpages_capaging` is zero also have none of `rmqueue_capaging`. -/
def CapagingNested (latencies : Latencies) : Prop :=
  ∀ item ∈ latencies.entries,averageOf allocpagesCapaging item = 0 →
    averageOf rmqueueCapaging item = 0

end ElasticTranslations.Scripts.FaultBreakdown
