import ElasticTranslations.Gapbs.Graph
import Mathlib.Data.List.Nodup

/-! `bitmap.h` and `sliding_queue.h`: the two forms of the frontier of the search. -/
namespace ElasticTranslations.Gapbs
open Structures

abbrev Word := BitVec 64

structure Bitmap where
  words : List Word
  deriving DecidableEq,Repr

def wordOffset (n : ℕ) : ℕ := n/64

def bitOffset (n : ℕ) : ℕ := n &&& (64-1)

namespace Bitmap

/-- The constructor and the first `reset` together. -/
def cleared (size : ℕ) : Bitmap := ⟨List.replicate ((size+64-1)/64) 0⟩

def reset (b : Bitmap) : Bitmap := ⟨List.replicate b.words.length 0⟩

def setBit (b : Bitmap) (pos : ℕ) : Option Bitmap := do
  let w ← b.words[wordOffset pos]?
  let words ← write b.words (wordOffset pos) (w ||| (1#64 <<< bitOffset pos))
  some ⟨words⟩

def getBit (b : Bitmap) (pos : ℕ) : Option Bool := do
  let w ← b.words[wordOffset pos]?
  some (((w >>> bitOffset pos) &&& 1#64) != 0#64)

/-- The bits of the nodes below `n` are those of `S`. -/
structure Holds (b : Bitmap) (n : ℕ) (S : ℕ → Prop) : Prop where
  length_eq : b.words.length = (n+64-1)/64
  bits : ∀ v < n,∃ bit,b.getBit v = some bit ∧ (bit = true ↔ S v)

variable {b : Bitmap} {n pos : ℕ} {S T : ℕ → Prop}

lemma bitOffset_eq (v : ℕ) : bitOffset v = v % 64 := Nat.and_two_pow_sub_one_eq_mod v 6

lemma getBit_eq {v : ℕ} {w : Word} (hw : b.words[v/64]? = some w) :
    b.getBit v = some (w.getLsbD (v % 64)) := by
  have hone : ((w >>> (v % 64)) &&& 1#64) =
      BitVec.setWidth 64 (BitVec.ofBool (w.getLsbD (v % 64))) := by
    ext i hi
    simp only [BitVec.getElem_and,BitVec.getElem_ushiftRight,BitVec.getElem_one,
      BitVec.getElem_setWidth,BitVec.getLsbD_ofBool]
    by_cases hzero : i = 0
    · simp [hzero]
    · simp [hzero]
  simp only [getBit,wordOffset,bitOffset_eq,hw,Option.bind_eq_bind,Option.bind_some,hone]
  cases w.getLsbD (v % 64) <;> rfl

lemma word_of_lt (h : b.words.length = (n+64-1)/64) {v : ℕ} (hv : v < n) :
    ∃ w,b.words[v/64]? = some w := by
  have hlt : v/64 < b.words.length := by omega
  exact ⟨_,List.getElem?_eq_getElem hlt⟩

lemma holds_cleared (n : ℕ) : (cleared n).Holds n fun _ => False where
  length_eq := List.length_replicate
  bits v hv := by
    refine ⟨false,?_,by simp⟩
    have hw : (cleared n).words[v/64]? = some 0 := by
      rw [cleared,List.getElem?_replicate,if_pos (by omega)]
    rw [getBit_eq hw]
    simp

namespace Holds

lemma reset (h : b.Holds n S) : b.reset.Holds n fun _ => False := by
  have heq : b.reset = cleared n := by rw [Bitmap.reset,cleared,h.length_eq]
  rw [heq]
  exact holds_cleared n

lemma congr (h : b.Holds n S) (heq : ∀ v < n,S v ↔ T v) : b.Holds n T where
  length_eq := h.length_eq
  bits v hv := by
    obtain ⟨bit,hbit,hS⟩ := h.bits v hv
    exact ⟨bit,hbit,hS.trans (heq v hv)⟩

lemma setBit (h : b.Holds n S) (hpos : pos < n) :
    ∃ b',b.setBit pos = some b' ∧ b'.Holds n fun v => v = pos ∨ S v := by
  obtain ⟨w,hw⟩ := word_of_lt h.length_eq hpos
  have hlt : pos/64 < b.words.length := (List.getElem?_eq_some_iff.mp hw).1
  refine ⟨⟨b.words.set (pos/64) (w ||| (1#64 <<< (pos % 64)))⟩,?_,by simpa using h.length_eq,?_⟩
  · simp [Bitmap.setBit,wordOffset,bitOffset_eq,hw,write_of_lt hlt]
  · intro v hv
    obtain ⟨bit,hbit,hS⟩ := h.bits v hv
    by_cases hword : v/64 = pos/64
    · have hnew : (b.words.set (pos/64) (w ||| (1#64 <<< (pos % 64))))[v/64]? =
          some (w ||| (1#64 <<< (pos % 64))) := by
        rw [hword,List.getElem?_set_self hlt]
      rw [getBit_eq (hword ▸ hw)] at hbit
      refine ⟨_,getBit_eq hnew,?_⟩
      have hone : (1#64 <<< (pos % 64)).getLsbD (v % 64) = decide (v % 64 = pos % 64) := by
        rw [BitVec.getLsbD_shiftLeft,BitVec.getLsbD_one]
        grind
      rw [BitVec.getLsbD_or,hone,Bool.or_eq_true,decide_eq_true_iff,Option.some.inj hbit,hS]
      constructor
      · rintro (hS | hmod)
        · exact .inr hS
        · exact .inl (by omega)
      · rintro (rfl | hS)
        · exact .inr rfl
        · exact .inl hS
    · refine ⟨bit,?_,?_⟩
      · rw [← hbit,getBit,getBit,wordOffset]
        simp only []
        rw [List.getElem?_set_ne (Ne.symm hword)]
      · rw [hS]
        constructor
        · exact .inr
        · rintro (rfl | hS)
          · exact absurd rfl hword
          · exact hS

end Holds

end Bitmap

/-- `shared` holds the entries in front of `shared_in`. -/
structure SlidingQueue where
  capacity : ℕ
  shared : List ℕ
  outStart : ℕ
  outEnd : ℕ
  deriving DecidableEq,Repr

namespace SlidingQueue

def new (sharedSize : ℕ) : SlidingQueue := ⟨sharedSize,[],0,0⟩

variable (q : SlidingQueue)

def pushBack (toAdd : ℕ) : Option SlidingQueue :=
  if q.shared.length < q.capacity then some { q with shared := q.shared++[toAdd] } else none

def empty : Bool := q.outStart == q.outEnd

def slideWindow : SlidingQueue := { q with outStart := q.outEnd,outEnd := q.shared.length }

def size : ℕ := q.outEnd-q.outStart

/-- The entries from `begin()` to `end()`. -/
def window : List ℕ := (q.shared.take q.outEnd).drop q.outStart

end SlidingQueue

/-- The entries of `local_queue` in front of `in`. -/
structure QueueBuffer where
  localQueue : List ℕ
  deriving DecidableEq,Repr

namespace QueueBuffer

def localSize : ℕ := 16384

def flush (b : QueueBuffer) (sq : SlidingQueue) : Option (QueueBuffer × SlidingQueue) :=
  if sq.shared.length+b.localQueue.length ≤ sq.capacity then
    some (⟨[]⟩,{ sq with shared := sq.shared++b.localQueue })
  else none

def pushBack (b : QueueBuffer) (sq : SlidingQueue) (toAdd : ℕ) :
    Option (QueueBuffer × SlidingQueue) := do
  let (b,sq) ← if b.localQueue.length = localSize then b.flush sq else some (b,sq)
  some (⟨b.localQueue++[toAdd]⟩,sq)

/-- Of the entries `xs` pushed since the queue was `q`, some are in the buffer still. -/
structure Buffered (q : SlidingQueue) (b : QueueBuffer) (sq : SlidingQueue) (xs : List ℕ) :
    Prop where
  capacity_eq : sq.capacity = q.capacity
  outStart_eq : sq.outStart = q.outStart
  outEnd_eq : sq.outEnd = q.outEnd
  content : sq.shared++b.localQueue = q.shared++xs

namespace Buffered
variable {q sq : SlidingQueue} {b : QueueBuffer} {xs : List ℕ}

lemma start (q : SlidingQueue) : Buffered q ⟨[]⟩ q [] := ⟨rfl,rfl,rfl,rfl⟩

lemma flush (h : Buffered q b sq xs) (hfit : (q.shared++xs).length ≤ q.capacity) :
    b.flush sq = some (⟨[]⟩,{ q with shared := q.shared++xs }) := by
  have hlen : sq.shared.length+b.localQueue.length ≤ sq.capacity := by
    rw [← List.length_append,h.content,h.capacity_eq]
    exact hfit
  rw [QueueBuffer.flush,if_pos hlen,h.content,h.capacity_eq,h.outStart_eq,h.outEnd_eq]

lemma push (h : Buffered q b sq xs) (hfit : (q.shared++xs).length ≤ q.capacity) (x : ℕ) :
    ∃ b' sq',b.pushBack sq x = some (b',sq') ∧ Buffered q b' sq' (xs++[x]) := by
  by_cases hfull : b.localQueue.length = localSize
  · refine ⟨⟨[x]⟩,{ q with shared := q.shared++xs },?_,rfl,rfl,rfl,by simp⟩
    simp [pushBack,hfull,h.flush hfit]
  · refine ⟨⟨b.localQueue++[x]⟩,sq,?_,h.capacity_eq,h.outStart_eq,h.outEnd_eq,?_⟩
    · simp [pushBack,hfull]
    · rw [← List.append_assoc,h.content,List.append_assoc]

end Buffered

end QueueBuffer

end ElasticTranslations.Gapbs
