import ElasticTranslations.Structures.Trace
import ElasticTranslations.Pcc.CacheSetContents

/-! Sequences of operations on one set, with the answers they give to the client. -/
namespace ElasticTranslations.Pcc
open Structures

/-- An operation on a set with its arguments; `out` holds the out-parameters on entry. -/
inductive SetOp
  | access (address offset : UInt64) (isLoad : Bool)
  | insert (address offset : UInt64) (isLoad : Bool) (out : EvictOut)
  | evict (address : UInt64)
  | flush

/-- What an operation returns or writes to its out-parameters. -/
inductive SetAnswer
  | accessed (hit : Bool)
  | inserted (out : EvictOut)
  | evicted (dirtyEvict : Bool)
  | flushed
  deriving DecidableEq

namespace CacheSet
variable {associativity policy : ℕ} {cs cs' : CacheSet associativity policy}
  {order : List LinePtr}

def perform (cs : CacheSet associativity policy) :
    SetOp → Except Fault (SetAnswer × CacheSet associativity policy)
  | .access address offset isLoad => do
    let (res,cs) ← cs.access address offset isLoad
    return (.accessed res,cs)
  | .insert address offset isLoad out => do
    let (out,cs) ← cs.insert address offset isLoad out
    return (.inserted out,cs)
  | .evict address => do
    let (dirty,cs) ← cs.evict address
    return (.evicted dirty,cs)
  | .flush => do
    let cs ← cs.flush
    return (.flushed,cs)

section Perform
variable {address offset : UInt64} {isLoad res dirty : Bool} {out out' : EvictOut}

lemma perform_access (h : cs.access address offset isLoad = .ok (res,cs')) :
    cs.perform (.access address offset isLoad) = .ok (.accessed res,cs') := by
  simp only [perform,h,ok_bind,pure_ok]

lemma perform_insert (h : cs.insert address offset isLoad out = .ok (out',cs')) :
    cs.perform (.insert address offset isLoad out) = .ok (.inserted out',cs') := by
  simp only [perform,h,ok_bind,pure_ok]

lemma perform_evict (h : cs.evict address = .ok (dirty,cs')) :
    cs.perform (.evict address) = .ok (.evicted dirty,cs') := by
  simp only [perform,h,ok_bind,pure_ok]

lemma perform_flush (h : cs.flush = .ok cs') : cs.perform .flush = .ok (.flushed,cs') := by
  simp only [perform,h,ok_bind,pure_ok]

end Perform

/-- One step of a run that keeps the answers given so far. -/
def record (s : List SetAnswer × CacheSet associativity policy) (op : SetOp) :
    Except Fault (List SetAnswer × CacheSet associativity policy) := do
  let (answer,cs) ← s.2.perform op
  return (s.1 ++ [answer],cs)

/-- The start of a run: no answers and the constructed set. -/
def start (associativity policy : ℕ) : List SetAnswer × CacheSet associativity policy :=
  ([],new associativity policy)

/-- A tag is only inserted when it is not resident. -/
def InsertsAbsent (cs : CacheSet associativity policy) : SetOp → Prop
  | .insert address _ _ _ => cs.find address = none
  | _ => True

/-- A tag is only evicted when it is resident. -/
def EvictsResident (cs : CacheSet associativity policy) : SetOp → Prop
  | .evict address => cs.find address ≠ none
  | _ => True

/-- How the simulator uses a set. -/
def Admissible (cs : CacheSet associativity policy) (op : SetOp) : Prop :=
  cs.InsertsAbsent op ∧ cs.EvictsResident op

/-- A hit links its line again: under policy 1 the line must have been hit often enough. -/
def Relinks (cs : CacheSet associativity policy) : SetOp → Prop
  | .access address _ _ => policy = 1 → ∀ c, cs.find address = some c →
      associativity/2 ≤ (cs.lines c).freq
  | _ => True

instance (op : SetOp) : Decidable (cs.InsertsAbsent op) :=
  match op with
  | .insert address _ _ _ => inferInstanceAs (Decidable (cs.find address = none))
  | .access _ _ _ | .evict _ | .flush => isTrue trivial

instance (op : SetOp) : Decidable (cs.EvictsResident op) :=
  match op with
  | .evict address => inferInstanceAs (Decidable (cs.find address ≠ none))
  | .access _ _ _ | .insert _ _ _ _ | .flush => isTrue trivial

instance (op : SetOp) : Decidable (cs.Admissible op) :=
  inferInstanceAs (Decidable (cs.InsertsAbsent op ∧ cs.EvictsResident op))

lemma relinks_of_ne_one (h : policy ≠ 1) (op : SetOp) : cs.Relinks op := by
  cases op with
  | access address offset isLoad => exact fun hp => absurd hp h
  | insert address offset isLoad out => trivial
  | evict address => trivial
  | flush => trivial

/-- The list is in order and every linked line is found under its own tag. -/
structure Sane (cs : CacheSet associativity policy) : Prop where
  intact : cs.Intact
  exact : cs.Exact

lemma new_sane : (new associativity policy).Sane := ⟨new_intact,new_exact⟩

lemma SameContents.sane (h : SameContents cs cs') (hs : cs.Sane) : cs'.Sane :=
  ⟨h.intact,h.exact hs.exact⟩

lemma Represents.sane_nil (h : cs.Represents []) : cs.Sane := by
  refine ⟨h.intact,fun p hp => ?_⟩
  rw [h.linked_eq] at hp
  simp at hp

/-- An operation that is used as intended and keeps the hit line on the list succeeds and
leaves the set in order. -/
theorem Sane.perform (h : cs.Sane) (hpol : policy ≤ 2) (hassoc : 0 < associativity) {op : SetOp}
    (hadm : cs.Admissible op) (hrel : cs.Relinks op) :
    ∃ answer cs', cs.perform op = .ok (answer,cs') ∧ cs'.Sane := by
  cases op with
  | access address offset isLoad =>
    obtain ⟨cs',hr,hsame,-⟩ := access_contents hpol h.intact address offset isLoad hrel
    exact ⟨_,cs',perform_access hr,hsame.sane h⟩
  | insert address offset isLoad out =>
    obtain ⟨cs',c,out',hr,hf⟩ := insert_contents hpol hassoc h.intact address offset isLoad out
    exact ⟨_,cs',perform_insert hr,hf.intact,hf.exact h.intact h.exact hadm.1⟩
  | evict address =>
    obtain ⟨c,hc⟩ := Option.ne_none_iff_exists'.mp hadm.2
    obtain ⟨cs',hr,he⟩ := evict_contents h.intact hc
    exact ⟨_,cs',perform_evict hr,he.intact,he.exact h.intact hc h.exact⟩
  | flush =>
    obtain ⟨cs',hr,h',-⟩ := flush_spec h.intact
    exact ⟨_,cs',perform_flush hr,h'.sane_nil⟩

lemma record_ok {s s' : List SetAnswer × CacheSet associativity policy} {op : SetOp}
    (h : record s op = .ok s') :
    ∃ answer, s.2.perform op = .ok (answer,s'.2) ∧ s'.1 = s.1 ++ [answer] := by
  obtain ⟨r,hp,h⟩ := bind_eq_ok h
  cases h
  exact ⟨r.1,hp,rfl⟩

lemma record_of_perform {s : List SetAnswer × CacheSet associativity policy} {op : SetOp}
    {answer : SetAnswer} (h : s.2.perform op = .ok (answer,cs')) :
    record s op = .ok (s.1 ++ [answer],cs') := by
  simp only [record,h,ok_bind,pure_ok]

/-- Proper use of a set, tested along a run. -/
lemma admissible_of_stepsMeet {ops : List SetOp}
    (h : stepsMeet record (fun s op => decide (s.2.Admissible op)) (start associativity policy) ops
      = true) :
    EachStep record (start associativity policy) ops fun _ s op => s.2.Admissible op :=
  (EachStep.of_stepsMeet _ h).mono fun _ _ _ hd => of_decide_eq_true hd

end CacheSet
end ElasticTranslations.Pcc
