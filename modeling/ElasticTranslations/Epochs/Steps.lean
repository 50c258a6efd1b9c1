import ElasticTranslations.Epochs.Profile

/-! What one step can change: the step of a job before the lock keeps to the files of its
instance, a step of another instance keeps the instance and its hold on the lock, and the
number in `.lockfile` is the one its last writer wrote. -/
namespace ElasticTranslations.Epochs
open Function (update)
variable {ι Line Digest : Type}

/-- The job holds, or believes to hold, the lock. -/
def Stage.inSection : Stage Line Digest → Bool
  | .check | .mark | .loadCa | .loadKhuge | .unlockOlder | .unlockLoaded => true
  | _ => false

/-- The job has written its number to `.lockfile`. -/
def Stage.hasMarked : Stage Line Digest → Bool
  | .loadCa | .loadKhuge | .unlockLoaded | .finished .loaded => true
  | _ => false

/-- The job has loaded its hints into the table. -/
def Stage.hasLoaded (table : Table) : Stage Line Digest → Bool
  | .loadKhuge => table = .ca
  | .unlockLoaded | .finished .loaded => true
  | _ => false

lemma Stage.hasMarked_of_hasLoaded (st : Stage Line Digest) {table : Table}
    (h : st.hasLoaded table = true) : st.hasMarked = true := by
  cases st with
  | loadKhuge | unlockLoaded => rfl
  | finished e => cases e with
    | loaded => rfl
    | missesEmpty | fullEmpty | hintsEmpty | same | notLocked | older => cases h
  | preparing | lock | check | mark | loadCa | unlockOlder => cases h

/-- The job is past the loop that writes its hints file. -/
def Stage.settled : Stage Line Digest → Bool
  | .preparing .hintsTest | .preparing .digest | .preparing (.digestPrev _) => true
  | .preparing _ => false
  | _ => true

namespace Instance
variable {i i' : Instance Line Digest} {s t : ℕ} {st : Stage Line Digest}

def inSection (i : Instance Line Digest) (s : ℕ) : Bool := (i.jobs s).any Stage.inSection

def hasLoaded (i : Instance Line Digest) (table : Table) (s : ℕ) : Bool :=
  (i.jobs s).any (Stage.hasLoaded table)

def hasMarked (i : Instance Line Digest) (s : ℕ) : Bool := (i.jobs s).any Stage.hasMarked

def settled (i : Instance Line Digest) (s : ℕ) : Bool := (i.jobs s).any Stage.settled

/-- What a step of the job of snapshot `s` leaves alone while it generates hints. -/
structure Generates (i : Instance Line Digest) (s : ℕ) (st : Stage Line Digest)
    (i' : Instance Line Digest) : Prop where
  main : i'.main = i.main
  snapshot : i'.snapshot = i.snapshot
  jobs : i'.jobs = update i.jobs s (some st)
  written : i'.written = i.written
  loads : i'.loads = i.loads
  hints : ∀ t, t ≠ s → i'.hints t = i.hints t

lemma inSection_of_jobs (h : i'.jobs = update i.jobs s (some st)) (t : ℕ) :
    i'.inSection t = if t = s then st.inSection else i.inSection t := by
  simp only [inSection,h,Function.update_apply]
  split_ifs <;> rfl

lemma goto_inSection (i : Instance Line Digest) (s : ℕ) (st : Stage Line Digest) (t : ℕ) :
    (i.goto s st).inSection t = if t = s then st.inSection else i.inSection t :=
  inSection_of_jobs rfl t

lemma hasLoaded_of_jobs (h : i'.jobs = update i.jobs s (some st)) (table : Table) (t : ℕ) :
    i'.hasLoaded table t = if t = s then st.hasLoaded table else i.hasLoaded table t := by
  simp only [hasLoaded,h,Function.update_apply]
  split_ifs <;> rfl

lemma hasMarked_of_jobs (h : i'.jobs = update i.jobs s (some st)) (t : ℕ) :
    i'.hasMarked t = if t = s then st.hasMarked else i.hasMarked t := by
  simp only [hasMarked,h,Function.update_apply]
  split_ifs <;> rfl

lemma settled_of_jobs (h : i'.jobs = update i.jobs s (some st)) (t : ℕ) :
    i'.settled t = if t = s then st.settled else i.settled t := by
  simp only [settled,h,Function.update_apply]
  split_ifs <;> rfl

lemma generates_goto (i : Instance Line Digest) (s : ℕ) (st : Stage Line Digest) :
    i.Generates s st (i.goto s st) := ⟨rfl,rfl,rfl,rfl,rfl,fun _ _ => rfl⟩

end Instance

variable [DecidableEq Digest]

/-- A job that generates its hints goes on, returns, or comes to the lock. -/
lemma prepare_generates (S : Setup ι Line Digest) (a : ι) (s : ℕ) (i : Instance Line Digest)
    (p : Preparing Line Digest) :
    ∃ st : Stage Line Digest, st.inSection = false ∧ st.hasMarked = false ∧
      i.Generates s st (prepare S a s i p) := by
  cases p with
  | report rest => cases rest <;> exact ⟨_,rfl,rfl,rfl,rfl,rfl,rfl,rfl,fun _ _ => rfl⟩
  | catOwn | catPrev | leshy | digest => exact ⟨_,rfl,rfl,rfl,rfl,rfl,rfl,rfl,fun _ _ => rfl⟩
  | epochTest | fullTest | hintsTest | digestPrev current =>
    refine ⟨_,?_,?_,i.generates_goto s _⟩ <;> split_ifs <;> rfl
  | filter rest loops count =>
    cases rest with
    | nil => exact ⟨_,rfl,rfl,rfl,rfl,rfl,rfl,rfl,fun _ _ => rfl⟩
    | cons line rest =>
      simp only [prepare]
      split_ifs <;> exact ⟨_,rfl,rfl,rfl,rfl,rfl,rfl,rfl,fun t ht => by simp [ht]⟩

variable [DecidableEq ι] {a : ι}
open World

/-- A step of one instance neither changes another one nor its hold on the lock. -/
lemma step_other (S : Setup ι Line Digest) (w : World ι Line Digest) {e : Event ι}
    (h : e.owner ≠ a) :
    (step S w e).inst a = w.inst a ∧ ((step S w e).holder = some a ↔ w.holder = some a) := by
  cases e with
  | main b =>
    simp only [step,mainLoop]
    split <;> exact ⟨setInst_inst_of_ne _ h.symm _,Iff.rfl⟩
  | job b s =>
    have hb : a ≠ b := h.symm
    simp only [step]
    cases hs : (w.inst b).jobs s with
    | none => exact ⟨rfl,Iff.rfl⟩
    | some st =>
      cases st with
      | preparing | check | loadCa | loadKhuge => exact ⟨setInst_inst_of_ne _ hb _,Iff.rfl⟩
      | mark => exact ⟨setInst_inst_of_ne _ hb _,Iff.rfl⟩
      | finished => exact ⟨rfl,Iff.rfl⟩
      | lock =>
        simp only [profile]
        split_ifs with hl
        · refine ⟨goto_inst_of_ne _ _ _ hb,?_⟩
          rcases hl with hl | hl <;> simp [hl,hb.symm]
        · exact ⟨goto_inst_of_ne _ _ _ hb,Iff.rfl⟩
      | unlockOlder | unlockLoaded =>
        exact ⟨goto_inst_of_ne _ _ _ hb,release_holder_of_ne _ hb⟩

/-- A step that writes `.lockfile` writes the number its instance then counts as written. -/
lemma step_number (S : Setup ι Line Digest) (w : World ι Line Digest) (e : Event ι) :
    (step S w e).number = w.number ∧
        ((step S w e).inst e.owner).written = (w.inst e.owner).written ∨
      (step S w e).number = ((step S w e).inst e.owner).written := by
  cases e with
  | main b =>
    simp only [step,mainLoop,Event.owner]
    split <;> simp
  | job b s =>
    simp only [step,Event.owner]
    cases hs : (w.inst b).jobs s with
    | none => exact Or.inl ⟨rfl,rfl⟩
    | some st =>
      cases st with
      | preparing p =>
        obtain ⟨st',-,-,hg⟩ := prepare_generates S b s (w.inst b) p
        exact Or.inl ⟨rfl,by simpa [profile] using hg.written⟩
      | lock => simp only [profile]; split_ifs <;> simp
      | check | unlockOlder | unlockLoaded => simp [profile]
      | mark => simp [profile]
      | loadCa | loadKhuge => simp [profile,Instance.load]
      | finished => exact Or.inl ⟨rfl,rfl⟩

end ElasticTranslations.Epochs
