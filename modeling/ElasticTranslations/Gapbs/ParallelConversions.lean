import ElasticTranslations.Gapbs.ParallelTopDown

/-! `QueueToBitmap` and `BitmapToQueue` on several threads. Threads that set bits of one word may
have to try again, but only as long as others succeed. -/
namespace ElasticTranslations.Gapbs
open Structures

section ToBitmap

/-- How far `set_bit_atomic` has got. -/
inductive SetState
  | next
  | load (pos : ℕ)
  | swap (pos : ℕ) (oldVal : Word)
  deriving DecidableEq,Repr

/-- A thread of `QueueToBitmap`, with the rounds of its share to come. -/
structure SetControl where
  rounds : List ℕ
  state : SetState

namespace SetControl

def start (rounds : List ℕ) : SetControl := ⟨rounds,.next⟩

def done (c : SetControl) : Bool := c.rounds.isEmpty && c.state == .next

def step (queue : SlidingQueue) (bm : Bitmap) (c : SetControl) : Option (Bitmap × SetControl) :=
  match c.state with
  | .next =>
    match c.rounds with
    | i :: is => do
      let u ← queue.shared[queue.outStart+i]?
      some (bm,⟨is,.load u⟩)
    | [] => some (bm,c)
  | .load pos => do
    let oldVal ← bm.words[wordOffset pos]?
    some (bm,{ c with state := .swap pos oldVal })
  | .swap pos oldVal => do
    let (swapped,words) ← compareAndSwap bm.words (wordOffset pos) oldVal
      (oldVal ||| (1#64 <<< bitOffset pos))
    some (⟨words⟩,{ c with state := if swapped then .next else .load pos })

/-- An upper bound of the turns that one of `n` threads still needs, unless others set bits: for
each bit there is one more for a value that was read too early. -/
def cost (n : ℕ) (bm : Bitmap) (c : SetControl) : ℕ :=
  c.rounds.length*(2*n+3)+match c.state with
    | .next => 0
    | .load _ => 2*n+2
    | .swap pos oldVal => if bm.words[wordOffset pos]? = some oldVal then 2*n+1 else 2*n+3

lemma cost_le (n : ℕ) (bm bm' : Bitmap) (c : SetControl) : c.cost n bm' ≤ c.cost n bm+2 := by
  obtain ⟨rounds,state⟩ := c
  cases state with
  | next => exact Nat.le_add_right _ 2
  | load pos => exact Nat.le_add_right _ 2
  | swap pos oldVal =>
    simp only [cost]
    split_ifs <;> omega

lemma cost_swap {bm : Bitmap} {v : ℕ} {w : Word} (hw : bm.words[wordOffset v]? = some w) (n : ℕ)
    (rounds : List ℕ) :
    cost n bm ⟨rounds,.swap v w⟩ = rounds.length*(2*n+3)+(2*n+1) := by
  simp only [cost,hw,if_true]

lemma cost_next (n : ℕ) (bm : Bitmap) (rounds : List ℕ) :
    cost n bm ⟨rounds,.next⟩ = rounds.length*(2*n+3) := rfl

def Awaits (queue : SlidingQueue) (v : ℕ) (c : SetControl) : Prop :=
  (∃ i ∈ c.rounds,queue.shared[queue.outStart+i]? = some v) ∨
    c.state = .load v ∨ ∃ oldVal,c.state = .swap v oldVal

structure Ok (queue : SlidingQueue) (c : SetControl) : Prop where
  rounds : ∀ i ∈ c.rounds,i < queue.size
  load : ∀ v,c.state = .load v → v ∈ queue.window
  swap : ∀ v oldVal,c.state = .swap v oldVal → v ∈ queue.window

end SetControl

def parallelQueueToBitmap (par : Parallel) (queue : SlidingQueue) (bm : Bitmap) :
    Option Bitmap := do
  let cs := (par.shares queue.size).map SetControl.start
  let team ← Team.run (SetControl.step queue) SetControl.done par.turns
    (cs.map (SetControl.cost cs.length bm)).sum ⟨bm,cs⟩
  some team.shared

/-- Of the nodes in the window, those with `D` are marked. -/
structure SetTeam (n : ℕ) (S : ℕ → Prop) (queue : SlidingQueue) (bm : Bitmap)
    (cs : List SetControl) : Prop where
  marked : ∃ D : ℕ → Prop,bm.Holds n (fun v => D v ∨ S v) ∧ (∀ v,D v → v ∈ queue.window) ∧
    ∀ v ∈ queue.window,D v ∨ ∃ c ∈ cs,c.Awaits queue v
  sound : ∀ c ∈ cs,c.Ok queue

namespace SetTeam
variable {n m : ℕ} {S P : ℕ → Prop} {queue : SlidingQueue} {bm : Bitmap}
  {pre post : List SetControl} {c : SetControl}

lemma begin (hq : queue.Ok m P) (hbm : bm.Holds n S) {shares : List (List ℕ)}
    (hshares : shares.flatten.Perm (List.range queue.size)) :
    SetTeam n S queue bm (shares.map SetControl.start) where
  marked := by
    refine ⟨fun _ => False,hbm.congr (by simp),fun _ h => h.elim,fun v hv => .inr ?_⟩
    obtain ⟨i,hi,hiv⟩ := hq.mem_window_iff.mp hv
    obtain ⟨rounds,hrounds,hi⟩ := List.mem_flatten.mp
      (hshares.mem_iff.mpr (List.mem_range.mpr hi))
    exact ⟨_,List.mem_map_of_mem hrounds,.inl ⟨i,hi,hiv⟩⟩
  sound c hc := by
    obtain ⟨rounds,hrounds,rfl⟩ := List.mem_map.mp hc
    refine ⟨fun i hi => ?_,?_,?_⟩
    · exact List.mem_range.mp (hshares.mem_iff.mp (List.mem_flatten.mpr ⟨rounds,hrounds,hi⟩))
    · intro v h
      cases h
    · intro v oldVal h
      cases h

/-- A step that sets no bit. -/
lemma looked (h : SetTeam n S queue bm (pre++c :: post)) {c' : SetControl} (hok : c'.Ok queue)
    (hawaits : ∀ v,c.Awaits queue v → c'.Awaits queue v) :
    SetTeam n S queue bm (pre++c' :: post) where
  marked := by
    obtain ⟨D,hholds,hwindow,hcovered⟩ := h.marked
    exact ⟨D,hholds,hwindow,fun v hv => (hcovered v hv).imp_right fun hex =>
      exists_turn hex (hawaits v) fun _ _ ha => ha⟩
  sound := forall_turn h.sound (fun _ => hok) fun _ _ ha => ha

lemma swapped (h : SetTeam n S queue bm (pre++c :: post)) (hn : ∀ v ∈ queue.window,v < n)
    {v : ℕ} {oldVal : Word} (hc : c.state = .swap v oldVal)
    (hold : bm.words[wordOffset v]? = some oldVal) :
    SetTeam n S queue
      ⟨bm.words.set (wordOffset v) (oldVal ||| (1#64 <<< bitOffset v))⟩
      (pre++{ c with state := .next } :: post) where
  marked := by
    obtain ⟨D,hholds,hwindow,hcovered⟩ := h.marked
    have hmem := (h.sound c (by simp)).swap v oldVal hc
    obtain ⟨bm',hset,hholds'⟩ := hholds.setBit (hn v hmem)
    have hlt : wordOffset v < bm.words.length := (List.getElem?_eq_some_iff.mp hold).1
    have hbm' : bm' = ⟨bm.words.set (wordOffset v) (oldVal ||| (1#64 <<< bitOffset v))⟩ := by
      rw [Bitmap.setBit,hold] at hset
      simpa [write_of_lt hlt] using hset.symm
    refine ⟨fun w => w = v ∨ D w,hbm' ▸ hholds'.congr (by simp [or_assoc]),?_,fun w hw => ?_⟩
    · rintro w (rfl | hw)
      · exact hmem
      · exact hwindow w hw
    · by_cases hwv : w = v
      · exact .inl (.inl hwv)
      · rcases hcovered w hw with hD | hex
        · exact .inl (.inr hD)
        · refine .inr (exists_turn hex ?_ fun _ _ ha => ha)
          rintro (hround | hload | ⟨oldVal',hswap⟩)
          · exact .inl hround
          · rw [hc] at hload
            cases hload
          · rw [hc] at hswap
            cases hswap
            exact absurd rfl hwv
  sound := forall_turn h.sound (fun hok => ⟨hok.rounds,fun _ h => (by cases h),fun _ _ h => (by
    cases h)⟩) fun _ _ ha => ha

/-- The step of a thread, which keeps the invariant; in all, the threads have less to do. -/
def Advances (n : ℕ) (S : ℕ → Prop) (queue : SlidingQueue) (bm : Bitmap)
    (pre post : List SetControl) (c : SetControl) : Prop :=
  ∃ bm' c',c.step queue bm = some (bm',c') ∧ SetTeam n S queue bm' (pre++c' :: post) ∧
    ((pre++c' :: post).map (SetControl.cost (pre++c' :: post).length bm')).sum <
      ((pre++c :: post).map (SetControl.cost (pre++c :: post).length bm)).sum

section Turns
variable {rounds : List ℕ} {v : ℕ} {oldVal w : Word}

lemma length_turn (pre post : List SetControl) (c c' : SetControl) :
    (pre++c' :: post).length = (pre++c :: post).length := by simp

/-- A step that sets no bit. -/
lemma Advances.quiet (c' : SetControl) (hstep : c.step queue bm = some (bm,c'))
    (hteam : SetTeam n S queue bm (pre++c' :: post))
    (hcost : c'.cost (pre++c :: post).length bm < c.cost (pre++c :: post).length bm) :
    Advances n S queue bm pre post c := by
  refine ⟨bm,c',hstep,hteam,?_⟩
  rw [length_turn pre post c c']
  exact sum_turn_lt _ hcost

lemma exists_word (hn : ∀ v ∈ queue.window,v < n) {cs : List SetControl}
    (h : SetTeam n S queue bm cs) (hv : v ∈ queue.window) :
    ∃ w,bm.words[wordOffset v]? = some w := by
  obtain ⟨D,hholds,-,-⟩ := h.marked
  exact Bitmap.word_of_lt hholds.length_eq (hn v hv)

/-- The next round of the thread's share. -/
lemma round_turn (hq : queue.Ok m P) {i : ℕ}
    (h : SetTeam n S queue bm (pre++⟨i :: rounds,.next⟩ :: post)) :
    Advances n S queue bm pre post ⟨i :: rounds,.next⟩ := by
  have hc := h.sound _ (List.mem_append_right pre List.mem_cons_self)
  have hi : i < queue.size := hc.rounds i List.mem_cons_self
  obtain ⟨u,hu⟩ := hq.exists_round hi
  refine .quiet ⟨rounds,.load u⟩ (by simp [SetControl.step,hu]) (h.looked ⟨fun k hk =>
    hc.rounds k (List.mem_cons_of_mem i hk),?_,?_⟩ ?_) ?_
  · rintro v ⟨⟩
    exact hq.mem_window_iff.mpr ⟨i,hi,hu⟩
  · intro v oldVal hswap
    cases hswap
  · rintro v (⟨k,hk,hkv⟩ | hload | ⟨oldVal,hswap⟩)
    · rcases List.mem_cons.mp hk with rfl | hk
      · rw [hu] at hkv
        cases hkv
        exact .inr (.inl rfl)
      · exact .inl ⟨k,hk,hkv⟩
    · cases hload
    · cases hswap
  · simp only [SetControl.cost,List.length_cons,Nat.succ_mul]
    omega

/-- `old_val` is read. -/
lemma load_turn (hn : ∀ v ∈ queue.window,v < n)
    (h : SetTeam n S queue bm (pre++⟨rounds,.load v⟩ :: post)) :
    Advances n S queue bm pre post ⟨rounds,.load v⟩ := by
  have hc := h.sound _ (List.mem_append_right pre List.mem_cons_self)
  obtain ⟨w,hw⟩ := h.exists_word hn (hc.load v rfl)
  refine .quiet ⟨rounds,.swap v w⟩ (by simp [SetControl.step,hw]) (h.looked ⟨hc.rounds,?_,?_⟩ ?_) ?_
  · intro v hload
    cases hload
  · rintro v' oldVal ⟨⟩
    exact hc.load v rfl
  · rintro v' (hround | hload | ⟨oldVal,hswap⟩)
    · exact .inl hround
    · cases hload
      exact .inr (.inr ⟨w,rfl⟩)
    · cases hswap
  · simp only [SetControl.cost,hw,if_true]
    omega

/-- A bit that is set may make each of the other threads try once more. -/
lemma swapped_turn (hn : ∀ v ∈ queue.window,v < n)
    (h : SetTeam n S queue bm (pre++⟨rounds,.swap v w⟩ :: post))
    (hw : bm.words[wordOffset v]? = some w) :
    Advances n S queue bm pre post ⟨rounds,.swap v w⟩ := by
  refine ⟨_,⟨rounds,.next⟩,by simp [SetControl.step,compareAndSwap_eq hw],h.swapped hn rfl hw,?_⟩
  rw [length_turn pre post ⟨rounds,.swap v w⟩]
  have hcost := SetControl.cost_le (pre++⟨rounds,.swap v w⟩ :: post).length bm
    ⟨bm.words.set (wordOffset v) (w ||| (1#64 <<< bitOffset v))⟩
  have hpre := sum_le_sum_add hcost pre
  have hpost := sum_le_sum_add hcost post
  have hcount : (pre++⟨rounds,.swap v w⟩ :: post).length = pre.length+(post.length+1) := by
    simp
  simp only [List.map_append,List.map_cons,List.sum_append,List.sum_cons,
    SetControl.cost_swap hw,SetControl.cost_next]
  omega

/-- Another thread has changed the word. -/
lemma retry_turn (h : SetTeam n S queue bm (pre++⟨rounds,.swap v oldVal⟩ :: post))
    (hw : bm.words[wordOffset v]? = some w) (hold : w ≠ oldVal) :
    Advances n S queue bm pre post ⟨rounds,.swap v oldVal⟩ := by
  have hc := h.sound _ (List.mem_append_right pre List.mem_cons_self)
  refine .quiet ⟨rounds,.load v⟩ (by simp [SetControl.step,compareAndSwap,hw,hold])
    (h.looked ⟨hc.rounds,?_,?_⟩ ?_) ?_
  · rintro v' ⟨⟩
    exact hc.swap v oldVal rfl
  · intro v' oldVal' hswap
    cases hswap
  · rintro v' (hround | hload | ⟨oldVal',hswap⟩)
    · exact .inl hround
    · cases hload
    · cases hswap
      exact .inr (.inl rfl)
  · simp only [SetControl.cost,hw,Option.some.injEq,hold,if_false]
    omega

end Turns

lemma step (hq : queue.Ok m P) (hn : ∀ v ∈ queue.window,v < n)
    (h : SetTeam n S queue bm (pre++c :: post)) (hdone : c.done = false) :
    Advances n S queue bm pre post c := by
  have hc := h.sound c (List.mem_append_right pre List.mem_cons_self)
  obtain ⟨rounds,state⟩ := c
  cases state with
  | next =>
    cases rounds with
    | nil => cases hdone
    | cons i is => exact h.round_turn hq
  | load v => exact h.load_turn hn
  | swap v oldVal =>
    obtain ⟨w,hw⟩ := h.exists_word hn (hc.swap v oldVal rfl)
    by_cases hold : w = oldVal
    · exact h.swapped_turn hn (hold ▸ hw)
    · exact h.retry_turn hw hold

end SetTeam

lemma parallelQueueToBitmap_spec {n m : ℕ} {S P : ℕ → Prop} {queue : SlidingQueue} {bm : Bitmap}
    (hq : queue.Ok m P) (hbm : bm.Holds n S) (hn : ∀ v ∈ queue.window,v < n) (par : Parallel) :
    ∃ bm',parallelQueueToBitmap par queue bm = some bm' ∧
      bm'.Holds n fun v => v ∈ queue.window ∨ S v := by
  obtain ⟨⟨bm',cs⟩,hrun,hteam,hdone⟩ := Team.run_rule (SetControl.step queue) SetControl.done
    (SetTeam n S queue) (fun bm cs => (cs.map (SetControl.cost cs.length bm)).sum)
    (fun bm pre c post h hc => h.step hq hn hc) par.turns
    (s := ⟨bm,(par.shares queue.size).map SetControl.start⟩)
    (SetTeam.begin hq hbm (par.shares_perm queue.size)) le_rfl
  obtain ⟨D,hholds,hwindow,hcovered⟩ := hteam.marked
  refine ⟨bm',by simp only [parallelQueueToBitmap,hrun,Option.bind_eq_bind,Option.bind_some],
    hholds.congr fun v _ => or_congr ⟨hwindow v,fun hv => (hcovered v hv).resolve_right ?_⟩
      Iff.rfl⟩
  rintro ⟨c,hc,hawaits⟩
  have hend := hdone c hc
  simp only [SetControl.done,Bool.and_eq_true,List.isEmpty_iff,beq_iff_eq] at hend
  simp [SetControl.Awaits,hend] at hawaits

end ToBitmap

section ToQueue

/-- The loop of `BitmapToQueue`, over the nodes of a share. -/
def bitProducer (bm : Bitmap) : Producer Unit (List ℕ) where
  step _ _
    | v :: vs => do
      let bit ← bm.getBit v
      some ((),vs,if bit then some v else none)
    | [] => some ((),[],none)
  ended := List.isEmpty
  work := List.length

def parallelBitmapToQueue (par : Parallel) (g : CSRGraph) (bm : Bitmap) (queue : SlidingQueue) :
    Option SlidingQueue := do
  let team ← (bitProducer bm).run par.turns queue () (par.shares g.numNodes)
  let queue := { queue with shared := team.shared.1.slots.take team.shared.1.sharedIn }
  some queue.slideWindow

/-- Of the marked nodes, `out` are those that were pushed. -/
structure BitTeam (n : ℕ) (S : ℕ → Prop) (shares : List (List ℕ)) (out : List ℕ) : Prop where
  nodup : (out++shares.flatten).Nodup
  lt : ∀ v ∈ out++shares.flatten,v < n
  marked : ∀ v ∈ out,S v
  covered : ∀ v < n,S v → v ∈ out++shares.flatten

namespace BitTeam
variable {n : ℕ} {S P : ℕ → Prop} {queue : SlidingQueue} {bm : Bitmap} {shares : List (List ℕ)}
  {out : List ℕ}

lemma begin (hshares : shares.flatten.Perm (List.range n)) : BitTeam n S shares [] where
  nodup := hshares.nodup_iff.mpr List.nodup_range
  lt _ hv := List.mem_range.mp (hshares.mem_iff.mp hv)
  marked _ hv := absurd hv List.not_mem_nil
  covered _ hv _ := hshares.mem_iff.mpr (List.mem_range.mpr hv)

lemma keeps (hbm : bm.Holds n S) (hq : queue.Ok n P) (hnew : ∀ v < n,S v → ¬P v) :
    (bitProducer bm).Keeps queue fun _ => BitTeam n S where
  perm _ shares out out' hperm h := by
    have happend := hperm.append_right shares.flatten
    exact {
      nodup := happend.nodup_iff.mp h.nodup
      lt := fun v hv => h.lt v (happend.mem_iff.mpr hv)
      marked := fun v hv => h.marked v (hperm.mem_iff.mpr hv)
      covered := fun v hv hS => happend.mem_iff.mp (h.covered v hv hS) }
  fits _ shares out h := by
    refine hq.fits (List.nodup_append.mp h.nodup).1 fun v hv => ?_
    have hlt := h.lt v (List.mem_append_left _ hv)
    exact ⟨hlt,hnew v hlt (h.marked v hv)⟩
  step slots _ pre c post out _ h hended := by
    cases c with
    | nil => cases hended
    | cons v vs =>
      obtain ⟨bit,hbit,hS⟩ := hbm.bits v (h.lt v (by simp))
      have hperm : (out++(pre++(v :: vs) :: post).flatten).Perm
          (v :: (out++(pre++vs :: post).flatten)) := by
        rw [List.perm_iff_count]
        intro a
        simp only [List.flatten_append,List.flatten_cons,List.count_append,List.count_cons]
        omega
      have hnodup := hperm.nodup_iff.mp h.nodup
      cases bit with
      | true =>
        have hperm' : (v :: (out++(pre++vs :: post).flatten)).Perm
            (out++[v]++(pre++vs :: post).flatten) := by
          rw [List.append_assoc]
          exact List.perm_middle.symm
        refine ⟨(),vs,some v,by simp [bitProducer,hbit],?_,by simp [bitProducer]⟩
        exact {
          nodup := hperm'.nodup_iff.mp hnodup
          lt := fun w hw => h.lt w (hperm.mem_iff.mpr (hperm'.mem_iff.mpr hw))
          marked := fun w hw => by
            rcases List.mem_append.mp hw with hw | hw
            · exact h.marked w hw
            · obtain rfl : w = v := by simpa using hw
              exact hS.mp rfl
          covered := fun w hw hSw => hperm'.mem_iff.mp (hperm.mem_iff.mp (h.covered w hw hSw)) }
      | false =>
        refine ⟨(),vs,none,by simp [bitProducer,hbit],?_,by simp [bitProducer]⟩
        rw [Option.toList_none,List.append_nil]
        exact {
          nodup := (List.nodup_cons.mp hnodup).2
          lt := fun w hw => h.lt w (hperm.mem_iff.mpr (List.mem_cons_of_mem v hw))
          marked := h.marked
          covered := fun w hw hSw => by
            rcases List.mem_cons.mp (hperm.mem_iff.mp (h.covered w hw hSw)) with rfl | hmem
            · exact absurd (hS.mpr hSw) (by simp)
            · exact hmem }

end BitTeam

lemma parallelBitmapToQueue_spec {g : CSRGraph} {S P : ℕ → Prop} {queue : SlidingQueue}
    {bm : Bitmap} (hbm : bm.Holds g.numNodes S) (hq : queue.Ok g.numNodes P)
    (hnew : ∀ v < g.numNodes,S v → ¬P v) (par : Parallel) :
    ∃ xs,parallelBitmapToQueue par g bm queue =
        some ({ queue with shared := queue.shared++xs } : SlidingQueue).slideWindow ∧
      xs.Nodup ∧ ∀ v,v ∈ xs ↔ v < g.numNodes ∧ S v := by
  obtain ⟨m,_,ws,xs,hrun,hslots,hteam,hended⟩ := Producer.run_spec
    (BitTeam.keeps hbm hq hnew) () (BitTeam.begin (par.shares_perm g.numNodes)) par.turns
  have hempty : (ws.map Worker.control).flatten = [] := by
    rw [List.flatten_eq_nil_iff]
    intro vs hvs
    obtain ⟨w,hw,rfl⟩ := List.mem_map.mp hvs
    exact List.isEmpty_iff.mp (hended w hw)
  obtain ⟨hnodup,hlt,hmarked,hcovered⟩ := hteam
  rw [hempty,List.append_nil] at hnodup hlt hcovered
  refine ⟨xs,?_,hnodup,fun v => ⟨fun hv => ⟨hlt v hv,hmarked v hv⟩,fun hv => hcovered v hv.1 hv.2⟩⟩
  simp only [parallelBitmapToQueue,hrun,Option.bind_eq_bind,Option.bind_some,hslots]

end ToQueue

end ElasticTranslations.Gapbs
