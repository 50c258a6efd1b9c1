import ElasticTranslations.Gapbs.BuiltGraph
import ElasticTranslations.Gapbs.ParallelConversions

/-! `BUStep` on several threads. Its `set_bit` is not atomic, but no update is lost: the nodes are
dealt out in chunks of 1024, so all bits of a word are set by the same thread. -/
namespace ElasticTranslations.Gapbs
open Structures

/-- The chunks of `schedule(dynamic, 1024)`. -/
def chunkSize : ℕ := 1024

def numChunks (n : ℕ) : ℕ := (n+chunkSize-1)/chunkSize

def chunkNodes (n chunk : ℕ) : List ℕ :=
  List.range' (chunk*chunkSize) (min chunkSize (n-chunk*chunkSize))

/-- Where a thread stands with a node: its parent, or neighbors to come, or a parent that is due,
or the word of its bit, which is about to be loaded or to be stored. -/
inductive BUPhase
  | next
  | look (u : ℕ) (vs : List ℕ)
  | put (u v : ℕ)
  | load (u : ℕ)
  | store (u : ℕ) (word : Word)
  deriving DecidableEq,Repr

/-- A thread of `BUStep`: the chunks to come, the one it is in and the nodes of it to come. -/
structure BUControl where
  chunks : List ℕ
  chunk : Option ℕ
  nodes : List ℕ
  state : BUPhase
  awakeCount : ℤ

namespace BUControl

def start (chunks : List ℕ) : BUControl := ⟨chunks,none,[],.next,0⟩

def done (c : BUControl) : Bool := c.chunks.isEmpty && c.nodes.isEmpty && c.state == .next

def step (g : CSRGraph) (front : Bitmap) (s : List ℤ × Bitmap) (c : BUControl) :
    Option ((List ℤ × Bitmap) × BUControl) :=
  match c.state with
  | .next =>
    match c.nodes with
    | u :: us => do
      let p ← s.1[u]?
      if p < 0 then do
        let vs ← g.inNeigh u
        some (s,{ c with nodes := us,state := .look u vs })
      else some (s,{ c with nodes := us })
    | [] =>
      match c.chunks with
      | k :: ks =>
        some (s,{ c with chunks := ks,chunk := some k,nodes := chunkNodes g.numNodes k })
      | [] => some (s,c)
  | .look u (v :: vs) => do
    let bit ← front.getBit v
    some (s,{ c with state := if bit then .put u v else .look u vs })
  | .look _ [] => some (s,{ c with state := .next })
  | .put u v => do
    let parent ← write s.1 u v
    some ((parent,s.2),{ c with state := .load u,awakeCount := c.awakeCount+1 })
  | .load u => do
    let word ← s.2.words[wordOffset u]?
    some (s,{ c with state := .store u word })
  | .store u word => do
    let words ← write s.2.words (wordOffset u) (word ||| (1#64 <<< bitOffset u))
    some ((s.1,⟨words⟩),{ c with state := .next })

/-- An upper bound of the turns that a thread still needs, if no row has more than `n` nodes. -/
def cost (n : ℕ) (c : BUControl) : ℕ :=
  c.chunks.length*(chunkSize*(n+6)+1)+c.nodes.length*(n+6)+match c.state with
    | .next => 0
    | .look _ vs => vs.length+5
    | .put _ _ => 3
    | .load _ => 2
    | .store _ _ => 1

end BUControl

def parallelBuStep (par : Parallel) (g : CSRGraph) (parent : List ℤ) (front next : Bitmap) :
    Option BUState := do
  let cs := (par.shares (numChunks g.numNodes)).map BUControl.start
  let team ← Team.run (BUControl.step g front) BUControl.done par.turns
    (cs.map (BUControl.cost g.inNeighbors.length)).sum ⟨(parent,next.reset),cs⟩
  some ⟨team.shared.1,team.shared.2,(team.threads.map BUControl.awakeCount).sum⟩

section Chunks
variable {n chunk u : ℕ}

lemma mem_chunkNodes : u ∈ chunkNodes n chunk ↔ u < n ∧ u/chunkSize = chunk := by
  rw [chunkNodes,List.mem_range'_1,chunkSize]
  omega

lemma length_chunkNodes_le (n chunk : ℕ) : (chunkNodes n chunk).length ≤ chunkSize := by
  rw [chunkNodes,List.length_range']
  exact Nat.min_le_left _ _

lemma div_chunkSize_lt (hu : u < n) : u/chunkSize < numChunks n := by
  rw [numChunks,chunkSize]
  omega

/-- A word lies in one chunk. -/
lemma chunk_eq_of_wordOffset {v : ℕ} (h : wordOffset u = wordOffset v) :
    u/chunkSize = v/chunkSize := by
  rw [wordOffset,wordOffset] at h
  rw [chunkSize]
  omega

end Chunks

/-- The node that a thread is at. -/
def BUPhase.node : BUPhase → Option ℕ
  | .next => none
  | .look u _ => some u
  | .put u _ => some u
  | .load u => some u
  | .store u _ => some u

namespace BUControl
variable {g : CSRGraph} {start : List ℤ} {S : ℕ → Prop} {s : List ℤ × Bitmap} {c : BUControl}

/-- The node has got its parent, but not its bit. -/
def Pending (u : ℕ) (c : BUControl) : Prop := c.state = .load u ∨ ∃ word,c.state = .store u word

/-- The thread will look for a parent of the node, or has found one. -/
def Awaits (v : ℕ) (c : BUControl) : Prop :=
  v ∈ c.nodes ∨ v/chunkSize ∈ c.chunks ∨ (∃ us,c.state = .look v us) ∨ ∃ u,c.state = .put v u

def owned (c : BUControl) : List ℕ := c.chunk.toList++c.chunks

section Phases
variable {chunks nodes us : List ℕ} {chunk : Option ℕ} {awakeCount : ℤ} {u v w : ℕ} {word : Word}

@[simp] lemma pending_next : ¬Pending w ⟨chunks,chunk,nodes,.next,awakeCount⟩ := by simp [Pending]

@[simp] lemma pending_look : ¬Pending w ⟨chunks,chunk,nodes,.look u us,awakeCount⟩ := by
  simp [Pending]

@[simp] lemma pending_put : ¬Pending w ⟨chunks,chunk,nodes,.put u v,awakeCount⟩ := by
  simp [Pending]

@[simp] lemma pending_load : Pending w ⟨chunks,chunk,nodes,.load u,awakeCount⟩ ↔ u = w := by
  simp [Pending]

@[simp] lemma pending_store :
    Pending w ⟨chunks,chunk,nodes,.store u word,awakeCount⟩ ↔ u = w := by
  simp [Pending]

@[simp] lemma awaits_next : Awaits w ⟨chunks,chunk,nodes,.next,awakeCount⟩ ↔
    w ∈ nodes ∨ w/chunkSize ∈ chunks := by simp [Awaits]

@[simp] lemma awaits_look : Awaits w ⟨chunks,chunk,nodes,.look u us,awakeCount⟩ ↔
    w ∈ nodes ∨ w/chunkSize ∈ chunks ∨ u = w := by simp [Awaits]

@[simp] lemma awaits_put : Awaits w ⟨chunks,chunk,nodes,.put u v,awakeCount⟩ ↔
    w ∈ nodes ∨ w/chunkSize ∈ chunks ∨ u = w := by simp [Awaits]

@[simp] lemma awaits_load : Awaits w ⟨chunks,chunk,nodes,.load u,awakeCount⟩ ↔
    w ∈ nodes ∨ w/chunkSize ∈ chunks := by simp [Awaits]

@[simp] lemma awaits_store : Awaits w ⟨chunks,chunk,nodes,.store u word,awakeCount⟩ ↔
    w ∈ nodes ∨ w/chunkSize ∈ chunks := by simp [Awaits]

end Phases

/-- The thread is in its chunk, where no other writes, so what it has read holds still. -/
structure Ok (g : CSRGraph) (start : List ℤ) (S : ℕ → Prop) (s : List ℤ × Bitmap)
    (c : BUControl) : Prop where
  inChunk : ∀ u,u ∈ c.nodes ∨ c.state.node = some u →
    u < g.numNodes ∧ c.chunk = some (u/chunkSize)
  look : ∀ u vs,c.state = .look u vs →
    parentOf s.1 u = none ∧ (∀ v ∈ vs,g.Edge v u) ∧ ∀ v,S v → g.Edge v u → v ∈ vs
  put : ∀ u v,c.state = .put u v → parentOf s.1 u = none ∧ S v ∧ g.Edge v u
  pending : ∀ u,c.Pending u → parentOf start u = none ∧ (parentOf s.1 u).isSome
  store : ∀ u word,c.state = .store u word → s.2.words[wordOffset u]? = some word

lemma Pending.node {u : ℕ} (h : c.Pending u) : c.state.node = some u := by
  rcases h with h | ⟨word,h⟩ <;> rw [h] <;> rfl

namespace Ok

/-- Between two nodes only the nodes to come matter. -/
lemma between {chunks nodes : List ℕ} {chunk : Option ℕ} {awakeCount : ℤ}
    (hnodes : ∀ u ∈ nodes,u < g.numNodes ∧ chunk = some (u/chunkSize)) :
    Ok g start S s ⟨chunks,chunk,nodes,.next,awakeCount⟩ where
  inChunk u hu := hnodes u (hu.resolve_right fun hnone => by cases hnone)
  look u vs hu := by cases hu
  put u v hu := by cases hu
  pending u hu := by rcases hu with hu | ⟨word,hu⟩ <;> cases hu
  store u word hu := by cases hu

/-- At a node that has no parent yet. -/
lemma looking {chunks nodes us : List ℕ} {chunk : Option ℕ} {awakeCount : ℤ} {u : ℕ}
    (hnodes : ∀ w ∈ nodes,w < g.numNodes ∧ chunk = some (w/chunkSize))
    (hu : u < g.numNodes ∧ chunk = some (u/chunkSize)) (hnone : parentOf s.1 u = none)
    (hedge : ∀ v ∈ us,g.Edge v u) (hall : ∀ v,S v → g.Edge v u → v ∈ us) :
    Ok g start S s ⟨chunks,chunk,nodes,.look u us,awakeCount⟩ where
  inChunk w hw := by
    rcases hw with hw | hw
    · exact hnodes w hw
    · cases hw
      exact hu
  look w ws hw := by
    cases hw
    exact ⟨hnone,hedge,hall⟩
  put w v hw := by cases hw
  pending w hw := by rcases hw with hw | ⟨word,hw⟩ <;> cases hw
  store w word hw := by cases hw

/-- At a node whose parent is found. -/
lemma putting {chunks nodes : List ℕ} {chunk : Option ℕ} {awakeCount : ℤ} {u v : ℕ}
    (hnodes : ∀ w ∈ nodes,w < g.numNodes ∧ chunk = some (w/chunkSize))
    (hu : u < g.numNodes ∧ chunk = some (u/chunkSize)) (hnone : parentOf s.1 u = none)
    (hv : S v ∧ g.Edge v u) : Ok g start S s ⟨chunks,chunk,nodes,.put u v,awakeCount⟩ where
  inChunk w hw := by
    rcases hw with hw | hw
    · exact hnodes w hw
    · cases hw
      exact hu
  look w ws hw := by cases hw
  put w x hw := by
    cases hw
    exact ⟨hnone,hv⟩
  pending w hw := absurd hw pending_put
  store w word hw := by cases hw

/-- At a node with a parent, whose bit is due. -/
lemma marking {chunks nodes : List ℕ} {chunk : Option ℕ} {awakeCount : ℤ} {u : ℕ}
    (hnodes : ∀ w ∈ nodes,w < g.numNodes ∧ chunk = some (w/chunkSize))
    (hu : u < g.numNodes ∧ chunk = some (u/chunkSize)) (hnone : parentOf start u = none)
    (hsome : (parentOf s.1 u).isSome) :
    Ok g start S s ⟨chunks,chunk,nodes,.load u,awakeCount⟩ where
  inChunk w hw := by
    rcases hw with hw | hw
    · exact hnodes w hw
    · cases hw
      exact hu
  look w ws hw := by cases hw
  put w x hw := by cases hw
  pending w hw := by
    obtain rfl := pending_load.mp hw
    exact ⟨hnone,hsome⟩
  store w word hw := by cases hw

lemma loaded {chunks nodes : List ℕ} {chunk : Option ℕ} {awakeCount : ℤ} {u : ℕ} {word : Word}
    (h : Ok g start S s ⟨chunks,chunk,nodes,.load u,awakeCount⟩)
    (hword : s.2.words[wordOffset u]? = some word) :
    Ok g start S s ⟨chunks,chunk,nodes,.store u word,awakeCount⟩ where
  inChunk w hw := h.inChunk w hw
  look w ws hw := by cases hw
  put w x hw := by cases hw
  pending w hw := by
    obtain rfl := pending_store.mp hw
    exact h.pending _ (pending_load.mpr rfl)
  store w word' hw := by
    cases hw
    exact hword

lemma ne_of_not_owned (h : c.Ok g start S s) {u v : ℕ} (hu : u/chunkSize ∉ c.owned)
    (hv : c.state.node = some v) : v/chunkSize ≠ u/chunkSize := by
  intro heq
  apply hu
  rw [owned,(h.inChunk v (.inr hv)).2,heq]
  simp

/-- The parent of a node of another chunk changes. -/
lemma set_parent (h : c.Ok g start S s) {u v : ℕ} (hu : u/chunkSize ∉ c.owned)
    (hlt : u < s.1.length) : c.Ok g start S (s.1.set u v,s.2) := by
  have hother : ∀ w,c.state.node = some w →
      parentOf (s.1.set u (v : ℤ)) w = parentOf s.1 w := by
    intro w hw
    rw [parentOf_set hlt,if_neg]
    rintro rfl
    exact h.ne_of_not_owned hu hw rfl
  exact {
    inChunk := h.inChunk
    look := fun w vs hw => by
      rw [hother w (by rw [hw]; rfl)]
      exact h.look w vs hw
    put := fun w x hw => by
      rw [hother w (by rw [hw]; rfl)]
      exact h.put w x hw
    pending := fun w hw => by
      rw [hother w hw.node]
      exact h.pending w hw
    store := h.store }

/-- A word of another chunk changes. -/
lemma set_word (h : c.Ok g start S s) {u : ℕ} (hu : u/chunkSize ∉ c.owned) (word : Word) :
    c.Ok g start S (s.1,⟨s.2.words.set (wordOffset u) word⟩) where
  inChunk := h.inChunk
  look := h.look
  put := h.put
  pending := h.pending
  store w word' hw := by
    have hne : wordOffset u ≠ wordOffset w := fun heq =>
      h.ne_of_not_owned hu (by rw [hw]; rfl) (chunk_eq_of_wordOffset heq).symm
    rw [List.getElem?_set_ne hne]
    exact h.store w word' hw

end Ok

end BUControl

/-- The nodes `xs` have got parents so far; those whose bits are not due any more are marked. -/
structure BUTeam (g : CSRGraph) (start : List ℤ) (S : ℕ → Prop) (s : List ℤ × Bitmap)
    (cs : List BUControl) : Prop where
  visited : ∃ xs,
    Claimed start (fun u v => (S u ∧ g.Edge u v) ∧ (parentOf s.1 v).isSome) s.1 xs ∧
    s.2.Holds g.numNodes (fun v => v ∈ xs ∧ ¬∃ c ∈ cs,c.Pending v) ∧
    (cs.map BUControl.awakeCount).sum = xs.length
  covered : ∀ u v,S u → g.Edge u v → (parentOf s.1 v).isSome ∨ ∃ c ∈ cs,c.Awaits v
  sound : ∀ c ∈ cs,c.Ok g start S s
  nodup : (cs.flatMap BUControl.owned).Nodup

namespace BUTeam
open BUControl
variable {g : CSRGraph} {start : List ℤ} {S : ℕ → Prop} {s : List ℤ × Bitmap}
  {pre post : List BUControl} {c c' : BUControl}

/-- A step that writes nothing. -/
lemma quiet (h : BUTeam g start S s (pre++c :: post)) (hok : c'.Ok g start S s)
    (howned : c'.owned.Sublist c.owned) (hpending : ∀ u,c'.Pending u ↔ c.Pending u)
    (hawake : c'.awakeCount = c.awakeCount)
    (hawaits : ∀ u v,S u → g.Edge u v → c.Awaits v →
      (parentOf s.1 v).isSome ∨ c'.Awaits v) :
    BUTeam g start S s (pre++c' :: post) where
  visited := by
    obtain ⟨xs,hclaimed,hholds,hcount⟩ := h.visited
    refine ⟨xs,hclaimed,hholds.congr fun v _ => and_congr_right fun _ => not_congr ?_,?_⟩
    · exact (exists_turn_iff (hpending v)).symm
    · rw [List.map_append,List.map_cons] at hcount ⊢
      rwa [hawake]
  covered u v hu huv := or_exists_turn (h.covered u v hu huv) id (hawaits u v hu huv)
  sound := forall_turn h.sound (fun _ => hok) fun _ _ ha => ha
  nodup := by
    refine h.nodup.sublist ?_
    rw [List.flatMap_append,List.flatMap_append,List.flatMap_cons,List.flatMap_cons]
    exact (List.Sublist.refl _).append (howned.append (.refl _))

lemma not_owned (h : BUTeam g start S s (pre++c :: post)) {u : ℕ} (hu : c.state.node = some u)
    {a : BUControl} (ha : a ∈ pre++post) : u/chunkSize ∉ a.owned := by
  intro hmem
  refine disjoint_of_nodup_flatMap h.nodup ha hmem ?_
  rw [owned,((h.sound c (by simp)).inChunk u (.inr hu)).2]
  simp

lemma others_not_pending (h : BUTeam g start S s (pre++c :: post)) {u : ℕ}
    (hu : c.state.node = some u) {a : BUControl} (ha : a ∈ pre++post) : ¬a.Pending u := by
  intro hpending
  have hok := h.sound a (by
    rcases List.mem_append.mp ha with ha | ha <;> simp [ha])
  exact hok.ne_of_not_owned (h.not_owned hu ha) hpending.node rfl

section Put
variable {chunks nodes : List ℕ} {chunk : Option ℕ} {awakeCount : ℤ} {u v : ℕ}

/-- The node is visited, but its bit is due now. -/
lemma put_marks {xs : List ℕ} (hnew : u ∉ xs)
    (hholds : s.2.Holds g.numNodes fun w => w ∈ xs ∧
      ¬∃ c ∈ pre++⟨chunks,chunk,nodes,.put u v,awakeCount⟩ :: post,c.Pending w) :
    s.2.Holds g.numNodes fun w => w ∈ xs++[u] ∧
      ¬∃ c ∈ pre++⟨chunks,chunk,nodes,.load u,awakeCount+1⟩ :: post,c.Pending w := by
  refine hholds.congr fun w _ => ?_
  by_cases hwu : u = w
  · subst hwu
    refine iff_of_false (fun hmem => hnew hmem.1) fun hnot => hnot.2 ?_
    exact ⟨_,List.mem_append_right pre List.mem_cons_self,pending_load.mpr rfl⟩
  · rw [List.mem_append,List.mem_singleton,or_iff_left (Ne.symm hwu)]
    refine and_congr_right fun _ => not_congr (exists_turn_iff ?_).symm
    simp [hwu]

variable (h : BUTeam g start S s (pre++⟨chunks,chunk,nodes,.put u v,awakeCount⟩ :: post))
  (hlt : u < s.1.length)
include h

lemma put_facts : parentOf s.1 u = none ∧ S v ∧ g.Edge v u :=
  (h.sound _ (List.mem_append_right pre List.mem_cons_self)).put u v rfl

include hlt

lemma put_visited : ∃ xs,
    Claimed start (fun a b => (S a ∧ g.Edge a b) ∧ (parentOf (s.1.set u (v : ℤ)) b).isSome)
      (s.1.set u (v : ℤ)) xs ∧
    s.2.Holds g.numNodes (fun w => w ∈ xs ∧
      ¬∃ c ∈ pre++⟨chunks,chunk,nodes,.load u,awakeCount+1⟩ :: post,c.Pending w) ∧
    ((pre++⟨chunks,chunk,nodes,.load u,awakeCount+1⟩ :: post).map BUControl.awakeCount).sum =
      xs.length := by
  obtain ⟨hnone,hedge⟩ := h.put_facts
  obtain ⟨xs,hclaimed,hholds,hcount⟩ := h.visited
  have hnew : u ∉ xs := fun hmem => by simpa [hnone] using ((hclaimed.new u).mp hmem).2
  refine ⟨xs++[u],hclaimed.claim_visited hlt hnone hedge,put_marks hnew hholds,?_⟩
  simp only [List.map_append,List.map_cons,List.sum_append,List.sum_cons] at hcount ⊢
  rw [List.length_append,List.length_singleton]
  omega

lemma put_sound : ∀ c ∈ pre++⟨chunks,chunk,nodes,.load u,awakeCount+1⟩ :: post,
    c.Ok g start S (s.1.set u (v : ℤ),s.2) := by
  have hok := h.sound _ (List.mem_append_right pre List.mem_cons_self)
  obtain ⟨xs,hclaimed,-,-⟩ := h.visited
  refine forall_turn h.sound (fun _ => ?_) fun a ha hok' =>
    hok'.set_parent (h.not_owned rfl ha) hlt
  refine .marking (fun w hw => hok.inChunk w (.inl hw)) (hok.inChunk u (.inr rfl))
    (hclaimed.none_of_none h.put_facts.1) ?_
  rw [parentOf_set_self hlt]
  rfl

/-- Only the thread of its chunk gives a node its parent. -/
lemma put : BUTeam g start S (s.1.set u v,s.2)
    (pre++⟨chunks,chunk,nodes,.load u,awakeCount+1⟩ :: post) where
  visited := h.put_visited hlt
  covered a b ha hab := by
    refine or_exists_turn (h.covered a b ha hab) (isSome_parentOf_set hlt v) fun haw => ?_
    rcases awaits_put.mp haw with hmem | hmem | rfl
    · exact .inr (awaits_load.mpr (.inl hmem))
    · exact .inr (awaits_load.mpr (.inr hmem))
    · exact .inl (by rw [parentOf_set_self hlt]; rfl)
  sound := h.put_sound hlt
  nodup := by
    have := h.nodup
    rwa [List.flatMap_append,List.flatMap_cons] at this ⊢

end Put

section Store
variable {chunks nodes : List ℕ} {chunk : Option ℕ} {awakeCount : ℤ} {u : ℕ} {word : Word}
  (h : BUTeam g start S s (pre++⟨chunks,chunk,nodes,.store u word,awakeCount⟩ :: post))
include h

/-- The thread was the only one to be in this chunk. -/
lemma not_pending_of_store : ¬∃ a ∈ pre++⟨chunks,chunk,nodes,.next,awakeCount⟩ :: post,
    a.Pending u := by
  rintro ⟨a,ha,hpending⟩
  rcases List.mem_append.mp ha with ha | ha
  · exact h.others_not_pending rfl (List.mem_append_left _ ha) hpending
  · rcases List.mem_cons.mp ha with rfl | ha
    · exact pending_next hpending
    · exact h.others_not_pending rfl (List.mem_append_right _ ha) hpending

lemma stored_visited : ∃ xs,
    Claimed start (fun a b => (S a ∧ g.Edge a b) ∧ (parentOf s.1 b).isSome) s.1 xs ∧
    Bitmap.Holds ⟨s.2.words.set (wordOffset u) (word ||| (1#64 <<< bitOffset u))⟩ g.numNodes
      (fun w => w ∈ xs ∧
        ¬∃ c ∈ pre++⟨chunks,chunk,nodes,.next,awakeCount⟩ :: post,c.Pending w) ∧
    ((pre++⟨chunks,chunk,nodes,.next,awakeCount⟩ :: post).map BUControl.awakeCount).sum =
      xs.length := by
  have hok := h.sound _ (List.mem_append_right pre List.mem_cons_self)
  have hword := hok.store u word rfl
  have hlt : wordOffset u < s.2.words.length := (List.getElem?_eq_some_iff.mp hword).1
  obtain ⟨xs,hclaimed,hholds,hcount⟩ := h.visited
  obtain ⟨next,hset,hholds'⟩ := hholds.setBit (hok.inChunk u (.inr rfl)).1
  have hnext : next = ⟨s.2.words.set (wordOffset u) (word ||| (1#64 <<< bitOffset u))⟩ := by
    rw [Bitmap.setBit,hword] at hset
    simpa [write_of_lt hlt] using hset.symm
  refine ⟨xs,hclaimed,hnext ▸ hholds'.congr fun w _ => ?_,by
    rw [List.map_append,List.map_cons] at hcount ⊢
    exact hcount⟩
  by_cases hwu : u = w
  · subst hwu
    exact iff_of_true (.inl rfl) ⟨(hclaimed.new u).mpr (hok.pending u (pending_store.mpr rfl)),
      h.not_pending_of_store⟩
  · rw [or_iff_right (Ne.symm hwu)]
    refine and_congr_right fun _ => not_congr (exists_turn_iff ?_).symm
    simp [hwu]

/-- The word is still the one that was loaded. -/
lemma stored : BUTeam g start S
    (s.1,⟨s.2.words.set (wordOffset u) (word ||| (1#64 <<< bitOffset u))⟩)
    (pre++⟨chunks,chunk,nodes,.next,awakeCount⟩ :: post) where
  visited := h.stored_visited
  covered a b ha hab := or_exists_turn (h.covered a b ha hab) id fun haw =>
    .inr (awaits_next.mpr (awaits_store.mp haw))
  sound := by
    have hok := h.sound _ (List.mem_append_right pre List.mem_cons_self)
    refine forall_turn h.sound (fun _ => ?_) fun a ha hok' =>
      hok'.set_word (h.not_owned rfl ha) _
    exact .between fun w hw => hok.inChunk w (.inl hw)
  nodup := by
    have := h.nodup
    rwa [List.flatMap_append,List.flatMap_cons] at this ⊢

end Store

lemma begin (hg : g.Ok) {next : Bitmap} {T : ℕ → Prop} (hnext : next.Holds g.numNodes T)
    {shares : List (List ℕ)} (hshares : shares.flatten.Perm (List.range (numChunks g.numNodes))) :
    BUTeam g start S (start,next.reset) (shares.map BUControl.start) where
  visited := by
    refine ⟨[],(Claimed.begin start).skip (fun _ _ h => h.elim) fun _ _ h => .inr h.2,
      hnext.reset.congr (by simp),by simp [Function.comp_def,BUControl.start]⟩
  covered u v _ huv := by
    have hchunk := List.mem_range.mpr (div_chunkSize_lt (hg.right_lt huv))
    obtain ⟨chunks,hchunks,hmem⟩ := List.mem_flatten.mp (hshares.mem_iff.mpr hchunk)
    exact .inr ⟨_,List.mem_map_of_mem hchunks,.inr (.inl hmem)⟩
  sound c hc := by
    obtain ⟨chunks,-,rfl⟩ := List.mem_map.mp hc
    exact .between fun u hu => absurd hu List.not_mem_nil
  nodup := by
    have howned : (shares.map BUControl.start).flatMap owned = shares.flatten := by
      rw [List.flatMap_map,List.flatMap_def]
      exact congrArg List.flatten (List.map_id shares)
    rw [howned]
    exact hshares.nodup_iff.mpr List.nodup_range

/-- The step of a thread, which keeps the invariant and leaves less to do. -/
def Advances (g : CSRGraph) (start : List ℤ) (S : ℕ → Prop) (front : Bitmap) (s : List ℤ × Bitmap)
    (pre post : List BUControl) (c : BUControl) : Prop :=
  ∃ s' c',c.step g front s = some (s',c') ∧ BUTeam g start S s' (pre++c' :: post) ∧
    c'.cost g.inNeighbors.length < c.cost g.inNeighbors.length

section Turns
variable {front : Bitmap} {chunks nodes us : List ℕ} {chunk : Option ℕ} {awakeCount : ℤ} {u v : ℕ}
  {word : Word}

lemma length_parent (hlen : start.length = g.numNodes) {cs : List BUControl}
    (h : BUTeam g start S s cs) : s.1.length = g.numNodes := by
  obtain ⟨xs,hclaimed,-,-⟩ := h.visited
  rw [hclaimed.length_eq,hlen]

/-- The next node of the chunk, which may have a parent. -/
lemma node_turn (hg : g.Ok) (hlen : start.length = g.numNodes)
    (h : BUTeam g start S s (pre++⟨chunks,chunk,u :: nodes,.next,awakeCount⟩ :: post)) :
    Advances g start S front s pre post ⟨chunks,chunk,u :: nodes,.next,awakeCount⟩ := by
  have hok := h.sound _ (List.mem_append_right pre List.mem_cons_self)
  have hlength := h.length_parent hlen
  obtain ⟨hu,hchunk⟩ := hok.inChunk u (.inl List.mem_cons_self)
  obtain ⟨p,hp⟩ : ∃ p,s.1[u]? = some p := ⟨_,List.getElem?_eq_getElem (by omega)⟩
  have hrest : ∀ w ∈ nodes,w < g.numNodes ∧ chunk = some (w/chunkSize) := fun w hw =>
    hok.inChunk w (.inl (List.mem_cons_of_mem u hw))
  by_cases hneg : p < 0
  · obtain ⟨vs,hvs,hmem⟩ := hg.into u hu
    have hfew := length_neighborhood_le hvs
    refine ⟨s,⟨chunks,chunk,nodes,.look u vs,awakeCount⟩,by simp [BUControl.step,hp,hneg,hvs],
      h.quiet ?_ (.refl _) (by simp) rfl fun a b _ _ hb => ?_,?_⟩
    · exact .looking hrest ⟨hu,hchunk⟩ (parentOf_of_neg hp hneg) (fun v hv => (hmem v).mp hv)
        fun v _ hv => (hmem v).mpr hv
    · rw [awaits_next,List.mem_cons] at hb
      rw [awaits_look]
      tauto
    · simp only [cost,List.length_cons,Nat.succ_mul]
      omega
  · refine ⟨s,⟨chunks,chunk,nodes,.next,awakeCount⟩,by simp [BUControl.step,hp,hneg],
      h.quiet (.between hrest) (.refl _) (by simp) rfl fun a b _ _ hb => ?_,?_⟩
    · rw [awaits_next,List.mem_cons] at hb
      rcases hb with (rfl | hb) | hb
      · exact .inl (by simp [parentOf_of_nonneg hp hneg])
      · exact .inr (awaits_next.mpr (.inl hb))
      · exact .inr (awaits_next.mpr (.inr hb))
    · simp only [cost,List.length_cons,Nat.succ_mul]
      omega

/-- The next chunk. -/
lemma chunk_turn (hg : g.Ok) {k : ℕ}
    (h : BUTeam g start S s (pre++⟨k :: chunks,chunk,[],.next,awakeCount⟩ :: post)) :
    Advances g start S front s pre post ⟨k :: chunks,chunk,[],.next,awakeCount⟩ := by
  refine ⟨s,⟨chunks,some k,chunkNodes g.numNodes k,.next,awakeCount⟩,rfl,
    h.quiet (.between fun w hw => ?_) ?_ (by simp) rfl fun a b _ hab hb => ?_,?_⟩
  · obtain ⟨hlt,rfl⟩ := mem_chunkNodes.mp hw
    exact ⟨hlt,rfl⟩
  · exact List.sublist_append_right chunk.toList (k :: chunks)
  · rw [awaits_next,List.mem_cons] at hb
    rcases hb with hb | hb | hb
    · cases hb
    · exact .inr (awaits_next.mpr (.inl (mem_chunkNodes.mpr ⟨hg.right_lt hab,hb⟩)))
    · exact .inr (awaits_next.mpr (.inr hb))
  · have := Nat.mul_le_mul_right (g.inNeighbors.length+6) (length_chunkNodes_le g.numNodes k)
    simp only [cost,List.length_cons,List.length_nil,Nat.succ_mul]
    omega

/-- No neighbor was in the frontier. -/
lemma look_end_turn
    (h : BUTeam g start S s (pre++⟨chunks,chunk,nodes,.look u [],awakeCount⟩ :: post)) :
    Advances g start S front s pre post ⟨chunks,chunk,nodes,.look u [],awakeCount⟩ := by
  have hok := h.sound _ (List.mem_append_right pre List.mem_cons_self)
  obtain ⟨-,-,hall⟩ := hok.look u [] rfl
  refine ⟨s,⟨chunks,chunk,nodes,.next,awakeCount⟩,rfl,
    h.quiet (.between fun w hw => hok.inChunk w (.inl hw)) (.refl _) (by simp) rfl
      fun a b ha hab hb => ?_,by simp [cost]⟩
  rw [awaits_look] at hb
  rcases hb with hb | hb | rfl
  · exact .inr (awaits_next.mpr (.inl hb))
  · exact .inr (awaits_next.mpr (.inr hb))
  · exact absurd (hall a ha hab) List.not_mem_nil

/-- The next neighbor, which is the parent if it is in the frontier. -/
lemma look_turn (hg : g.Ok) (hfront : front.Holds g.numNodes S)
    (h : BUTeam g start S s (pre++⟨chunks,chunk,nodes,.look u (v :: us),awakeCount⟩ :: post)) :
    Advances g start S front s pre post ⟨chunks,chunk,nodes,.look u (v :: us),awakeCount⟩ := by
  have hok := h.sound _ (List.mem_append_right pre List.mem_cons_self)
  obtain ⟨hnone,hedges,hall⟩ := hok.look u (v :: us) rfl
  have hedge := hedges v List.mem_cons_self
  have hnodes : ∀ w ∈ nodes,w < g.numNodes ∧ chunk = some (w/chunkSize) := fun w hw =>
    hok.inChunk w (.inl hw)
  obtain ⟨bit,hbit,hS⟩ := hfront.bits v (hg.left_lt hedge)
  cases bit with
  | true =>
    exact ⟨s,⟨chunks,chunk,nodes,.put u v,awakeCount⟩,by simp [BUControl.step,hbit],
      h.quiet (.putting hnodes (hok.inChunk u (.inr rfl)) hnone ⟨hS.mp rfl,hedge⟩) (.refl _)
        (by simp) rfl (fun a b _ _ hb => .inr (awaits_put.mpr (awaits_look.mp hb))),by simp [cost]⟩
  | false =>
    refine ⟨s,⟨chunks,chunk,nodes,.look u us,awakeCount⟩,by simp [BUControl.step,hbit],
      h.quiet (.looking hnodes (hok.inChunk u (.inr rfl)) hnone
        (fun x hx => hedges x (List.mem_cons_of_mem v hx)) fun x hx hedge => ?_) (.refl _)
        (by simp) rfl (fun a b _ _ hb => .inr (awaits_look.mpr (awaits_look.mp hb))),by simp [cost]⟩
    rcases List.mem_cons.mp (hall x hx hedge) with rfl | hmem
    · exact absurd (hS.mpr hx) Bool.false_ne_true
    · exact hmem

lemma put_turn (hlen : start.length = g.numNodes)
    (h : BUTeam g start S s (pre++⟨chunks,chunk,nodes,.put u v,awakeCount⟩ :: post)) :
    Advances g start S front s pre post ⟨chunks,chunk,nodes,.put u v,awakeCount⟩ := by
  have hok := h.sound _ (List.mem_append_right pre List.mem_cons_self)
  have hlt : u < s.1.length := by
    rw [h.length_parent hlen]
    exact (hok.inChunk u (.inr rfl)).1
  exact ⟨_,_,by simp only [BUControl.step,write_of_lt hlt,Option.bind_eq_bind,Option.bind_some],
    h.put hlt,by simp [cost]⟩

/-- The first half of `set_bit`. -/
lemma load_turn (h : BUTeam g start S s (pre++⟨chunks,chunk,nodes,.load u,awakeCount⟩ :: post)) :
    Advances g start S front s pre post ⟨chunks,chunk,nodes,.load u,awakeCount⟩ := by
  have hok := h.sound _ (List.mem_append_right pre List.mem_cons_self)
  obtain ⟨xs,-,hholds,-⟩ := h.visited
  obtain ⟨word,hword⟩ := Bitmap.word_of_lt hholds.length_eq (hok.inChunk u (.inr rfl)).1
  have hload : s.2.words[wordOffset u]? = some word := hword
  exact ⟨s,⟨chunks,chunk,nodes,.store u word,awakeCount⟩,by simp [BUControl.step,hload],
    h.quiet (hok.loaded hload) (.refl _) (by simp) rfl
      (fun a b _ _ hb => .inr (awaits_store.mpr (awaits_load.mp hb))),by simp [cost]⟩

/-- The second half. -/
lemma store_turn
    (h : BUTeam g start S s (pre++⟨chunks,chunk,nodes,.store u word,awakeCount⟩ :: post)) :
    Advances g start S front s pre post ⟨chunks,chunk,nodes,.store u word,awakeCount⟩ := by
  have hok := h.sound _ (List.mem_append_right pre List.mem_cons_self)
  have hlt : wordOffset u < s.2.words.length :=
    (List.getElem?_eq_some_iff.mp (hok.store u word rfl)).1
  exact ⟨_,_,by simp only [BUControl.step,write_of_lt hlt,Option.bind_eq_bind,Option.bind_some],
    h.stored,by simp [cost]⟩

end Turns

lemma step (hg : g.Ok) (hlen : start.length = g.numNodes) {front : Bitmap}
    (hfront : front.Holds g.numNodes S) (h : BUTeam g start S s (pre++c :: post))
    (hdone : c.done = false) : Advances g start S front s pre post c := by
  obtain ⟨chunks,chunk,nodes,state,awakeCount⟩ := c
  cases state with
  | next =>
    cases nodes with
    | cons u us => exact h.node_turn hg hlen
    | nil =>
      cases chunks with
      | cons k ks => exact h.chunk_turn hg
      | nil => cases hdone
  | look u vs =>
    cases vs with
    | nil => exact h.look_end_turn
    | cons v vs => exact h.look_turn hg hfront
  | put u v => exact h.put_turn hlen
  | load u => exact h.load_turn
  | store u word => exact h.store_turn

end BUTeam

lemma parallelBuStep_spec {g : CSRGraph} (hg : g.Ok) {start : List ℤ}
    (hlen : start.length = g.numNodes) {front next : Bitmap} {S T : ℕ → Prop}
    (hfront : front.Holds g.numNodes S) (hnext : next.Holds g.numNodes T) (par : Parallel) :
    ∃ s xs,parallelBuStep par g start front next = some s ∧
      Claimed start (fun u v => S u ∧ g.Edge u v) s.parent xs ∧
      s.next.Holds g.numNodes (· ∈ xs) ∧ s.awakeCount = xs.length := by
  obtain ⟨⟨⟨parent,next'⟩,cs⟩,hrun,hteam,hdone⟩ := Team.run_rule (BUControl.step g front)
    BUControl.done (BUTeam g start S)
    (fun _ cs => (cs.map (BUControl.cost g.inNeighbors.length)).sum) (by
      intro s pre c post h hc
      obtain ⟨s',c',hstep,h',hlt⟩ := h.step hg hlen hfront hc
      exact ⟨s',c',hstep,h',sum_turn_lt _ hlt⟩) par.turns
    (s := ⟨(start,next.reset),(par.shares (numChunks g.numNodes)).map BUControl.start⟩)
    (BUTeam.begin hg hnext (par.shares_perm _)) le_rfl
  have hend : ∀ c ∈ cs,(c.chunks = [] ∧ c.nodes = []) ∧ c.state = .next := fun c hc => by
    simpa [BUControl.done] using hdone c hc
  obtain ⟨xs,hclaimed,hholds,hcount⟩ := hteam.visited
  refine ⟨⟨parent,next',(cs.map BUControl.awakeCount).sum⟩,xs,?_,?_,hholds.congr fun v _ =>
    and_iff_left ?_,hcount⟩
  · simp only [parallelBuStep,hrun,Option.bind_eq_bind,Option.bind_some]
  · refine hclaimed.skip (fun _ _ h => h.1) fun u v huv => .inl ⟨huv,?_⟩
    refine (hteam.covered u v huv.1 huv.2).resolve_right ?_
    rintro ⟨c,hc,hawaits⟩
    simp [BUControl.Awaits,hend c hc] at hawaits
  · rintro ⟨c,hc,hpending⟩
    simp [BUControl.Pending,hend c hc] at hpending

/-- On any number of threads, however they take the chunks and their turns, the step visits the
nodes that it visits on one thread, marks them in the bitmap and counts them; a parent is a node
of the frontier. -/
theorem parallelBuStep_agrees {g : CSRGraph} (hg : g.Ok) {start : List ℤ}
    (hlen : start.length = g.numNodes) {front next : Bitmap} {S T : ℕ → Prop}
    (hfront : front.Holds g.numNodes S) (hnext : next.Holds g.numNodes T) (par : Parallel) :
    ∃ s s',buStep g start front next = some s ∧ parallelBuStep par g start front next = some s' ∧
      s'.awakeCount = s.awakeCount ∧
      (∀ v,(parentOf s'.parent v).isSome ↔ (parentOf s.parent v).isSome) ∧
      (∀ v < g.numNodes,s'.next.getBit v = s.next.getBit v) ∧
      ∀ u v,parentOf s'.parent v = some u →
        parentOf start v = some u ∨ (S u ∧ g.Edge u v) := by
  obtain ⟨s,xs,hstep,hclaimed,hholds,hcount⟩ := buStep_spec hg hlen hfront hnext
  obtain ⟨s',xs',hstep',hclaimed',hholds',hcount'⟩ :=
    parallelBuStep_spec hg hlen hfront hnext par
  have hsome := hclaimed'.isSome_iff hclaimed
  have hmem : ∀ v,v ∈ xs' ↔ v ∈ xs := fun v => by rw [hclaimed'.new,hclaimed.new,hsome]
  have hperm : xs'.Perm xs := (List.perm_ext_iff_of_nodup hclaimed'.nodup hclaimed.nodup).mpr hmem
  refine ⟨s,s',hstep,hstep',by rw [hcount,hcount',hperm.length_eq],hsome,fun v hv => ?_,?_⟩
  · obtain ⟨bit,hbit,hiff⟩ := hholds.bits v hv
    obtain ⟨bit',hbit',hiff'⟩ := hholds'.bits v hv
    rw [hbit,hbit',Bool.eq_iff_iff.mpr (hiff'.trans ((hmem v).trans hiff.symm))]
  · intro u v hu
    cases hv : parentOf start v with
    | none => exact .inr (hclaimed'.edge u v hv hu)
    | some w =>
      rw [hclaimed'.old v (by simp [hv]),hv] at hu
      exact .inl hu

/-- A graph of three chunks, each with a thread of its own: edges lead from the first node to the
next one and to the last one. -/
theorem parallelBuStep_agrees_chunks :
    ∃ s s',buStep (graphOf false [(0,1),(0,2048)]) (0 :: List.replicate 2048 (-1))
        ⟨1 :: List.replicate 32 0⟩ (.cleared 2049) = some s ∧
      parallelBuStep (.oneEach id) (graphOf false [(0,1),(0,2048)]) (0 :: List.replicate 2048 (-1))
        ⟨1 :: List.replicate 32 0⟩ (.cleared 2049) = some s' ∧
      s'.awakeCount = s.awakeCount ∧
      (∀ v,(parentOf s'.parent v).isSome ↔ (parentOf s.parent v).isSome) ∧
      (∀ v < 2049,s'.next.getBit v = s.next.getBit v) ∧
      ∀ u v,parentOf s'.parent v = some u →
        parentOf (0 :: List.replicate 2048 (-1)) v = some u ∨
          (u = 0 ∧ CSRGraph.Edge (graphOf false [(0,1),(0,2048)]) u v) := by
  have hnodes : (graphOf false [(0,1),(0,2048)]).numNodes = 2049 := rfl
  obtain ⟨front,hset,hfront⟩ := (Bitmap.holds_cleared 2049).setBit (show 0 < 2049 by decide)
  obtain rfl : front = ⟨1 :: List.replicate 32 0⟩ := Option.some.inj (hset.symm.trans rfl)
  exact parallelBuStep_agrees (ok_graphOf false _)
    (by rw [hnodes,List.length_cons,List.length_replicate])
    (hfront.congr fun v _ => iff_of_eq (or_false _)) (Bitmap.holds_cleared 2049) (.oneEach id)

end ElasticTranslations.Gapbs
