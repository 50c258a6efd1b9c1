import ElasticTranslations.Structures.Trace
import Mathlib.Algebra.Group.Int.Defs
import Mathlib.Data.List.Infix

/-! The online profiler `epochs.sh`. The main loop of an instance starts a background job
`profile s` for every snapshot `s`; the jobs generate the hints of their snapshot in files of
the instance and load them under a lock. The jobs of all instances started from one directory
meet in `.lockfile`: its contents, and the `flock` that each instance takes through the one
file description its jobs inherit. -/
namespace ElasticTranslations.Epochs
open Function (update)

/-- A line `start-stop` of a hints file. -/
structure Hint where
  start : ℤ
  stop : ℤ
deriving DecidableEq, Repr

/-- The pages of a hint. -/
def Hint.size (h : Hint) : ℤ := (h.stop - h.start).shiftRight 12

/-- The arguments of an instance, its environment and what it reads from `khugepaged`. -/
structure Settings where
  argument : String
  leshyInterval : ℕ
  khugePages : ℕ
  khugeSleep : ℕ
  noet : Bool := false

def Settings.benchmark (c : Settings) : String :=
  if "svm".toList <:+: c.argument.toList then "train"
  else if "xsbench".toList <:+: c.argument.toList then "XSBench"
  else if "btree".toList <:+: c.argument.toList then "BTree"
  else c.argument

/-- The pages that are collapsed in a leshy interval, with the slack of the script. -/
def Settings.nrpages (c : Settings) : ℕ :=
  2 * 3 * (2 * (c.khugePages * c.leshyInterval * 1000 / c.khugeSleep))

/-- The instances and the programs they run: `perf report` on the raw data of a snapshot,
`leshy` on an epoch file, `sha256sum` on a hints file. -/
structure Setup (ι Line Digest : Type) where
  settings : ι → Settings
  perfReport : ι → ℕ → List Line
  leshy : ι → ℕ → List Line → List Hint
  sha256sum : List Hint → Digest

inductive Table
  | ca
  | khuge
deriving DecidableEq, Repr

inductive Flag
  | et
  | only2m
deriving DecidableEq, Repr

/-- A run of `prctl --hints` by the job of a snapshot. -/
structure Load where
  table : Table
  flags : List Flag
  snapshot : ℕ
  hints : List Hint
deriving DecidableEq, Repr

/-- The ways a job returns. -/
inductive Exit
  | missesEmpty
  | fullEmpty
  | hintsEmpty
  | same
  | notLocked
  | older
  | loaded
deriving DecidableEq, Repr

/-- Where a job stands while it generates its hints. -/
inductive Preparing (Line Digest : Type)
  | report (rest : List Line)
  | catOwn
  | catPrev
  | epochTest
  | leshy
  | fullTest
  | filter (rest : List Hint) (loops : ℕ) (count : ℤ)
  | hintsTest
  | digest
  | digestPrev (current : Digest)
deriving DecidableEq

/-- Where a job stands. -/
inductive Stage (Line Digest : Type)
  | preparing (p : Preparing Line Digest)
  | lock
  | check
  | mark
  | loadCa
  | loadKhuge
  | unlockOlder
  | unlockLoaded
  | finished (e : Exit)
deriving DecidableEq

inductive MainStage
  | start
  | opened
  | looping
deriving DecidableEq, Repr

/-- An instance: its main loop, its jobs, its files by snapshot, and the loads it made for its
pid, the first one first. No step reads `written`, the number the instance last wrote to
`.lockfile`: it is there to state what the file would hold if nobody else wrote to it. -/
structure Instance (Line Digest : Type) where
  main : MainStage := .start
  snapshot : ℕ := 0
  jobs : ℕ → Option (Stage Line Digest) := fun _ => none
  dump : ℕ → List Line := fun _ => []
  epoch : ℕ → List Line := fun _ => []
  full : ℕ → List Hint := fun _ => []
  hints : ℕ → List Hint := fun _ => []
  written : ℕ
  loads : List Load := []

/-- The instances, the number in `.lockfile`, and whose file description holds the lock. -/
structure World (ι Line Digest : Type) where
  number : ℕ
  holder : Option ι
  inst : ι → Instance Line Digest

/-- Nothing has started; an earlier run may have left any number behind. -/
def World.initial (ι Line Digest : Type) (found : ℕ) : World ι Line Digest where
  number := found
  holder := none
  inst := fun _ => {written := found}

variable {ι Line Digest : Type}

namespace Instance

def goto (i : Instance Line Digest) (s : ℕ) (st : Stage Line Digest) : Instance Line Digest :=
  {i with jobs := update i.jobs s (some st)}

variable (i : Instance Line Digest) (s t : ℕ) (st : Stage Line Digest)

@[simp] lemma goto_main : (i.goto s st).main = i.main := rfl
@[simp] lemma goto_snapshot : (i.goto s st).snapshot = i.snapshot := rfl
@[simp] lemma goto_jobs : (i.goto s st).jobs = update i.jobs s (some st) := rfl
@[simp] lemma goto_dump : (i.goto s st).dump = i.dump := rfl
@[simp] lemma goto_epoch : (i.goto s st).epoch = i.epoch := rfl
@[simp] lemma goto_hints : (i.goto s st).hints = i.hints := rfl
@[simp] lemma goto_written : (i.goto s st).written = i.written := rfl
@[simp] lemma goto_loads : (i.goto s st).loads = i.loads := rfl

end Instance

/-- `profile` up to the lock: one step of the job of snapshot `s`. A command that writes a
file line by line takes a step for every line. -/
def prepare (S : Setup ι Line Digest) [DecidableEq Digest] (a : ι) (s : ℕ)
    (i : Instance Line Digest) : Preparing Line Digest → Instance Line Digest
  | .report (line :: rest) =>
    {i with dump := update i.dump s (i.dump s ++ [line])}.goto s (.preparing (.report rest))
  | .report [] => i.goto s (.preparing .catOwn)
  | .catOwn =>
    {i with epoch := update i.epoch s (i.epoch s ++ i.dump s)}.goto s
      (.preparing (if s = 0 then .epochTest else .catPrev))
  | .catPrev =>
    {i with epoch := update i.epoch s (i.epoch s ++ i.dump (s - 1))}.goto s
      (.preparing .epochTest)
  | .epochTest =>
    i.goto s (if (i.epoch s).isEmpty then .finished .missesEmpty else .preparing .leshy)
  | .leshy =>
    {i with full := update i.full s (S.leshy a s (i.epoch s))}.goto s (.preparing .fullTest)
  | .fullTest =>
    i.goto s (if (i.full s).isEmpty then .finished .fullEmpty
      else .preparing (.filter (i.full s) 0 0))
  | .filter [] _ _ => i.goto s (.preparing .hintsTest)
  | .filter (line :: rest) loops count =>
    if (S.settings a).benchmark = "train" ∧ loops < 4 then
      i.goto s (.preparing (.filter rest (loops + 1) count))
    else if line.size = 1 then i.goto s (.preparing (.filter rest loops count))
    else if (S.settings a).nrpages < count + line.size then i.goto s (.preparing .hintsTest)
    else
      {i with hints := update i.hints s (i.hints s ++ [line])}.goto s
        (.preparing (.filter rest loops (count + line.size)))
  | .hintsTest =>
    i.goto s (if (i.hints s).isEmpty then .finished .hintsEmpty
      else if s = 0 then .lock else .preparing .digest)
  | .digest => i.goto s (.preparing (.digestPrev (S.sha256sum (i.hints s))))
  -- a hints file without a line does not exist, and its digest is the empty string
  | .digestPrev current =>
    i.goto s (if (i.hints (s - 1)).isEmpty then .lock
      else if current = S.sha256sum (i.hints (s - 1)) then .finished .same else .lock)

/-- `prctl --ca` and `prctl --khuge` on the hints file of a snapshot. -/
def Settings.flags (c : Settings) : Table → List Flag
  | .ca => if c.noet then [.only2m] else [.et]
  | .khuge => if c.noet then [.only2m] else []

def Instance.load (i : Instance Line Digest) (c : Settings) (table : Table) (s : ℕ) :
    Instance Line Digest :=
  {i with loads := i.loads ++ [⟨table,c.flags table,s,i.hints s⟩]}

namespace World
variable [DecidableEq ι]

def setInst (w : World ι Line Digest) (a : ι) (i : Instance Line Digest) :
    World ι Line Digest :=
  {w with inst := update w.inst a i}

variable (w : World ι Line Digest) (a : ι) (i : Instance Line Digest)

@[simp] lemma setInst_number : (w.setInst a i).number = w.number := rfl
@[simp] lemma setInst_holder : (w.setInst a i).holder = w.holder := rfl
@[simp] lemma setInst_inst_self : (w.setInst a i).inst a = i := by simp [setInst]

lemma setInst_inst_of_ne {a b : ι} (h : b ≠ a) (i : Instance Line Digest) :
    (w.setInst a i).inst b = w.inst b := by simp [setInst,h]

def goto (w : World ι Line Digest) (a : ι) (s : ℕ) (st : Stage Line Digest) :
    World ι Line Digest :=
  w.setInst a ((w.inst a).goto s st)

variable (s : ℕ) (st : Stage Line Digest)

@[simp] lemma goto_number : (w.goto a s st).number = w.number := rfl
@[simp] lemma goto_holder : (w.goto a s st).holder = w.holder := rfl
@[simp] lemma goto_inst_self : (w.goto a s st).inst a = (w.inst a).goto s st := by simp [goto]

lemma goto_inst_of_ne {a b : ι} (h : b ≠ a) : (w.goto a s st).inst b = w.inst b := by
  rw [goto,setInst_inst_of_ne _ h]

/-- `flock -u 200` gives up a lock of the own file description only. -/
def release (w : World ι Line Digest) (a : ι) : World ι Line Digest :=
  {w with holder := if w.holder = some a then none else w.holder}

@[simp] lemma release_number : (w.release a).number = w.number := rfl
@[simp] lemma release_inst : (w.release a).inst = w.inst := rfl

lemma release_holder_self : (w.release a).holder ≠ some a := by
  simp only [release]
  split_ifs with h
  · exact (Option.some_ne_none a).symm
  · exact h

lemma release_holder_of_ne {a b : ι} (h : b ≠ a) :
    (w.release a).holder = some b ↔ w.holder = some b := by
  simp only [release]
  split_ifs with ha
  · simp [ha,h.symm]
  · rfl

end World

variable [DecidableEq ι] [DecidableEq Digest]

/-- One step of the job of snapshot `s` of instance `a`. The jobs of an instance share one
file description, so a lock that another of them holds does not stop `flock -n`. -/
def profile (S : Setup ι Line Digest) (a : ι) (s : ℕ) (w : World ι Line Digest) :
    Stage Line Digest → World ι Line Digest
  | .preparing p => w.setInst a (prepare S a s (w.inst a) p)
  | .lock =>
    if w.holder = none ∨ w.holder = some a then {w with holder := some a}.goto a s .check
    else w.goto a s (.finished .notLocked)
  | .check => w.goto a s (if s < w.number then .unlockOlder else .mark)
  -- the switches that the job sets in the kernel besides are the same for every job
  | .mark =>
    {w with number := s}.setInst a ({w.inst a with written := s}.goto s .loadCa)
  | .loadCa => w.setInst a (((w.inst a).load (S.settings a) .ca s).goto s .loadKhuge)
  | .loadKhuge => w.setInst a (((w.inst a).load (S.settings a) .khuge s).goto s .unlockLoaded)
  | .unlockOlder => (w.release a).goto a s (.finished .older)
  | .unlockLoaded => (w.release a).goto a s (.finished .loaded)
  | .finished _ => w

/-- One step of the main loop: `exec 200>./.lockfile` empties the file, which then reads as
zero, `echo 0` writes it, and from then on every step starts the job of a new snapshot. -/
def mainLoop (S : Setup ι Line Digest) (a : ι) (w : World ι Line Digest) :
    World ι Line Digest :=
  match (w.inst a).main with
  | .start =>
    {w with number := 0}.setInst a {w.inst a with
      main := .opened
      written := 0}
  | .opened =>
    {w with number := 0}.setInst a {w.inst a with
      main := .looping
      written := 0}
  | .looping =>
    let i := w.inst a
    w.setInst a ({i with snapshot := i.snapshot + 1}.goto i.snapshot
      (.preparing (.report (S.perfReport a i.snapshot))))

/-- Who takes the next step. -/
inductive Event (ι : Type)
  | main (a : ι)
  | job (a : ι) (s : ℕ)
deriving DecidableEq, Repr

def Event.owner : Event ι → ι
  | .main a => a
  | .job a _ => a

/-- A job that has not been started, or has returned, takes no step. -/
def step (S : Setup ι Line Digest) (w : World ι Line Digest) : Event ι → World ι Line Digest
  | .main a => mainLoop S a w
  | .job a s =>
    match (w.inst a).jobs s with
    | some st => profile S a s w st
    | none => w

/-- Where the job that takes the next step stands. -/
def World.standing (w : World ι Line Digest) : Event ι → Option (Stage Line Digest)
  | .main _ => none
  | .job a s => (w.inst a).jobs s

end ElasticTranslations.Epochs
