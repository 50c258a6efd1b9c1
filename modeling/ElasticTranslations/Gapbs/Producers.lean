import ElasticTranslations.Gapbs.BfsSteps
import ElasticTranslations.Structures.Interleaving

/-! Threads that fill one `SlidingQueue`, each through a `QueueBuffer` of its own, as they do in
`TDStep` and `BitmapToQueue`. A turn is one access to what the threads share: memory is taken as
sequentially consistent. The barrier in front of the last `flush` is left out, so there are more
runs than those of the code. -/
namespace ElasticTranslations.Gapbs
open Structures

/-- `shared` and `shared_in` of the queue. -/
structure QueueMemory where
  slots : List ℕ
  sharedIn : ℕ

/-- How far `push_back` and `flush` have got: entries `rest` are copied to `dest` and behind it,
and then `toAdd` is pushed, or the thread is through. -/
inductive PushState
  | idle
  | push (toAdd : ℕ)
  | copy (dest : ℕ) (rest : List ℕ) (toAdd : Option ℕ)
  | closed
  deriving DecidableEq,Repr

/-- A step of the loop pushes an entry, or none. -/
def PushState.ofOut : Option ℕ → PushState
  | some v => .push v
  | none => .idle

/-- A loop that pushes entries. A step may read the queue, and `work` bounds the steps to come. -/
structure Producer (σ κ : Type) where
  step : List ℕ → σ → κ → Option (σ × κ × Option ℕ)
  ended : κ → Bool
  work : κ → ℕ

structure Worker (κ : Type) where
  control : κ
  localQueue : List ℕ
  state : PushState

namespace Worker
variable {σ κ : Type}

def start (control : κ) : Worker κ := ⟨control,[],.idle⟩

def done (w : Worker κ) : Bool := w.state == .closed

/-- `fetch_and_add(sq.shared_in, in)`. -/
def reserve (m : QueueMemory) (w : Worker κ) (toAdd : Option ℕ) : QueueMemory × Worker κ :=
  ({ m with sharedIn := m.sharedIn+w.localQueue.length },
    { w with state := .copy m.sharedIn w.localQueue toAdd })

def step (prog : Producer σ κ) (s : QueueMemory × σ) (w : Worker κ) :
    Option ((QueueMemory × σ) × Worker κ) :=
  match w.state with
  | .idle =>
    if prog.ended w.control then
      let (m,w) := w.reserve s.1 none
      some ((m,s.2),w)
    else do
      let (mem,control,out) ← prog.step s.1.slots s.2 w.control
      some ((s.1,mem),{ w with control,state := .ofOut out })
  | .push v =>
    if w.localQueue.length = QueueBuffer.localSize then
      let (m,w) := w.reserve s.1 (some v)
      some ((m,s.2),w)
    else some (s,{ w with localQueue := w.localQueue++[v],state := .idle })
  | .copy dest (x :: rest) toAdd => do
    let slots ← write s.1.slots dest x
    some (({ s.1 with slots },s.2),{ w with state := .copy (dest+1) rest toAdd })
  | .copy _ [] (some v) => some (s,{ w with localQueue := [v],state := .idle })
  | .copy _ [] none => some (s,{ w with localQueue := [],state := .closed })
  | .closed => some (s,w)

/-- An upper bound of the turns that a worker still needs. -/
def cost (prog : Producer σ κ) (w : Worker κ) : ℕ :=
  4*prog.work w.control+match w.state with
    | .idle => 2*w.localQueue.length+3
    | .push _ => 2*w.localQueue.length+6
    | .copy _ rest (some _) => rest.length+6
    | .copy _ rest none => rest.length+1
    | .closed => 0

/-- The entries that have no place in the queue yet. -/
def held (w : Worker κ) : List ℕ :=
  match w.state with
  | .idle => w.localQueue
  | .push v => w.localQueue++[v]
  | .copy _ _ toAdd => toAdd.toList
  | .closed => []

/-- The worker is about to copy `x` to `p`. -/
def Copies (w : Worker κ) (p x : ℕ) : Prop :=
  match w.state with
  | .copy dest rest _ => ∃ k,p = dest+k ∧ rest[k]? = some x
  | _ => False

/-- The last `flush` comes behind the loop. -/
def Closing (w : Worker κ) : Prop :=
  match w.state with
  | .copy _ _ toAdd => toAdd = none
  | .closed => True
  | _ => False

end Worker

/-- The array of the queue; its cells that are not in use hold anything. -/
def QueueMemory.ofQueue (q : SlidingQueue) : QueueMemory :=
  ⟨q.shared++List.replicate (q.capacity-q.shared.length) 0,q.shared.length⟩

/-- The entries `xs` were given places behind those that `q` had; each of them is copied, or about
to be. -/
structure QueueMemory.Shares {κ : Type} (q : SlidingQueue) (m : QueueMemory) (ws : List (Worker κ))
    (xs : List ℕ) : Prop where
  length_eq : m.slots.length = q.capacity
  old : m.slots.take q.shared.length = q.shared
  sharedIn_eq : m.sharedIn = q.shared.length+xs.length
  filled : ∀ k x,xs[k]? = some x → m.slots[q.shared.length+k]? = some x ∨
    ∃ w ∈ ws,w.Copies (q.shared.length+k) x
  copies : ∀ w ∈ ws,∀ p x,w.Copies p x → ∃ k,p = q.shared.length+k ∧ xs[k]? = some x

section Shares
variable {σ κ : Type} {q : SlidingQueue} {m : QueueMemory} {w w' : Worker κ}
  {pre post : List (Worker κ)} {xs : List ℕ}

lemma QueueMemory.shares_start (q : SlidingQueue) (hfit : q.shared.length ≤ q.capacity)
    (controls : List κ) :
    (QueueMemory.ofQueue q).Shares q (controls.map Worker.start) [] where
  length_eq := by simp [ofQueue,hfit]
  old := by simp [ofQueue]
  sharedIn_eq := by simp [ofQueue]
  filled k x hx := by simp at hx
  copies w hw p x hcopy := by
    obtain ⟨c,-,rfl⟩ := List.mem_map.mp hw
    exact hcopy.elim

namespace QueueMemory.Shares

/-- A step that copies nothing, and has nothing to copy behind it that it had not before. -/
lemma same (h : m.Shares q (pre++w :: post) xs) (hw : ∀ p x,w'.Copies p x ↔ w.Copies p x) :
    m.Shares q (pre++w' :: post) xs where
  length_eq := h.length_eq
  old := h.old
  sharedIn_eq := h.sharedIn_eq
  filled k x hx :=
    (h.filled k x hx).imp_right fun hex => exists_turn hex (hw _ x).mpr fun _ _ hcopy => hcopy
  copies := forall_turn h.copies (fun hold p x hcopy => hold p x ((hw p x).mp hcopy))
    fun _ _ hold => hold

lemma reserve (h : m.Shares q (pre++w :: post) xs) (hw : ∀ p x,¬w.Copies p x)
    (toAdd : Option ℕ) :
    (w.reserve m toAdd).1.Shares q (pre++(w.reserve m toAdd).2 :: post)
      (xs++w.localQueue) where
  length_eq := h.length_eq
  old := h.old
  sharedIn_eq := by
    rw [Worker.reserve,h.sharedIn_eq,List.length_append,Nat.add_assoc]
  filled k x hx := by
    by_cases hk : k < xs.length
    · rw [List.getElem?_append_left hk] at hx
      exact (h.filled k x hx).imp_right fun hex =>
        exists_turn hex (fun hcopy => absurd hcopy (hw _ x)) fun _ _ hcopy => hcopy
    · rw [List.getElem?_append_right (by omega)] at hx
      refine .inr ⟨_,List.mem_append_right _ List.mem_cons_self,k-xs.length,?_,hx⟩
      rw [h.sharedIn_eq]
      omega
  copies := by
    refine forall_turn h.copies (fun _ p x hcopy => ?_) fun _ _ hold p x hcopy => ?_
    · obtain ⟨k,hp,hk⟩ := hcopy
      refine ⟨xs.length+k,?_,?_⟩
      · rw [hp,h.sharedIn_eq]
        omega
      · rw [List.getElem?_append_right (by omega),Nat.add_sub_cancel_left,hk]
    · obtain ⟨k,hp,hk⟩ := hold p x hcopy
      refine ⟨k,hp,?_⟩
      rw [List.getElem?_append_left (List.getElem?_eq_some_iff.mp hk).1,hk]

/-- Whoever else copies to the same place copies the same entry. -/
lemma copy {dest x : ℕ} {rest : List ℕ} {toAdd : Option ℕ}
    (h : m.Shares q (pre++w :: post) xs) (hw : w.state = .copy dest (x :: rest) toAdd)
    (hfit : q.shared.length+xs.length ≤ q.capacity) :
    ∃ slots,write m.slots dest x = some slots ∧ QueueMemory.Shares q { m with slots }
      (pre++{ w with state := .copy (dest+1) rest toAdd } :: post) xs := by
  have hnow : w.Copies dest x := by
    rw [Worker.Copies,hw]
    exact ⟨0,rfl,rfl⟩
  obtain ⟨i,hdest,hi⟩ := h.copies w (by simp) dest x hnow
  have hilt : i < xs.length := (List.getElem?_eq_some_iff.mp hi).1
  have hlt : dest < m.slots.length := by
    rw [h.length_eq]
    omega
  refine ⟨m.slots.set dest x,write_of_lt hlt x,?_⟩
  exact {
    length_eq := by simpa using h.length_eq
    old := by rw [List.take_set_of_le (by omega),h.old]
    sharedIn_eq := h.sharedIn_eq
    filled := fun k y hy => by
      by_cases hki : k = i
      · subst hki
        rw [hi] at hy
        cases hy
        exact .inl (by rw [← hdest,List.getElem?_set_self hlt])
      · rw [List.getElem?_set_ne (by omega)]
        refine (h.filled k y hy).imp_right fun hex =>
          exists_turn hex (fun hcopy => ?_) fun _ _ hcopy => hcopy
        rw [Worker.Copies,hw] at hcopy
        obtain ⟨l,hp,hl⟩ := hcopy
        obtain ⟨l,rfl⟩ : ∃ n,l = n+1 := Nat.exists_eq_succ_of_ne_zero (by omega)
        exact ⟨l,by omega,by simpa using hl⟩
    copies := by
      refine forall_turn h.copies (fun hold p y hcopy => hold p y ?_) fun _ _ hold => hold
      obtain ⟨k,hp,hk⟩ := hcopy
      rw [Worker.Copies,hw]
      exact ⟨k+1,by omega,by simpa using hk⟩ }

/-- Once nobody copies any more, the entries stand in their places. -/
lemma take_eq {ws : List (Worker κ)} (h : m.Shares q ws xs)
    (hws : ∀ w ∈ ws,∀ p x,¬w.Copies p x) :
    m.slots.take m.sharedIn = q.shared++xs := by
  apply List.ext_getElem?
  intro k
  rw [List.getElem?_take,h.sharedIn_eq]
  by_cases hk : k < q.shared.length
  · rw [if_pos (by omega),List.getElem?_append_left hk]
    conv_rhs => rw [← h.old]
    rw [List.getElem?_take,if_pos hk]
  · obtain ⟨i,rfl⟩ := Nat.exists_eq_add_of_le (Nat.le_of_not_lt hk)
    rw [List.getElem?_append_right (by omega),Nat.add_sub_cancel_left]
    by_cases hi : i < xs.length
    · rw [if_pos (by omega)]
      rcases h.filled i xs[i] (List.getElem?_eq_getElem hi) with hslot | ⟨w,hw,hcopy⟩
      · rw [hslot,List.getElem?_eq_getElem hi]
      · exact absurd hcopy (hws w hw _ _)
    · rw [if_neg (by omega),List.getElem?_eq_none (by omega)]

end QueueMemory.Shares

end Shares

/-- How the threads share the rounds of a parallel loop, and who has the next turn. -/
structure Parallel where
  shares : ℕ → List (List ℕ)
  shares_perm : ∀ n,(shares n).flatten.Perm (List.range n)
  turns : ℕ → ℕ

/-- A thread for each round. -/
def Parallel.oneEach (turns : ℕ → ℕ) : Parallel where
  shares n := (List.range n).map fun i => [i]
  shares_perm n := by
    rw [← List.flatMap_def,List.flatMap_singleton']
  turns := turns

namespace Producer
variable {σ κ : Type}

def run (prog : Producer σ κ) (turns : ℕ → ℕ) (queue : SlidingQueue) (s : σ) (controls : List κ) :
    Option (Team (QueueMemory × σ) (Worker κ)) :=
  Team.run (Worker.step prog) Worker.done turns
    ((controls.map Worker.start).map (Worker.cost prog)).sum
    ⟨(.ofQueue queue,s),controls.map Worker.start⟩

/-- Each step of the loop keeps `I`, which is about the entries pushed so far, in whatever order,
and leaves room for them. -/
structure Keeps (prog : Producer σ κ) (q : SlidingQueue) (I : σ → List κ → List ℕ → Prop) :
    Prop where
  perm : ∀ s cs out out',List.Perm out out' → I s cs out → I s cs out'
  fits : ∀ s cs out,I s cs out → (q.shared++out).length ≤ q.capacity
  step : ∀ slots s pre c post out,slots.take q.shared.length = q.shared →
    I s (pre++c :: post) out → prog.ended c = false →
      ∃ s' c' o,prog.step slots s c = some (s',c',o) ∧
        I s' (pre++c' :: post) (out++Option.toList o) ∧ prog.work c' < prog.work c

structure Ok (prog : Producer σ κ) (q : SlidingQueue) (I : σ → List κ → List ℕ → Prop)
    (s : QueueMemory × σ) (ws : List (Worker κ)) : Prop where
  placed : ∃ xs,s.1.Shares q ws xs ∧ I s.2 (ws.map Worker.control) (xs++ws.flatMap Worker.held)
  closing : ∀ w ∈ ws,w.Closing → prog.ended w.control = true

variable {prog : Producer σ κ} {q : SlidingQueue} {I : σ → List κ → List ℕ → Prop}
  {s : QueueMemory × σ} {w : Worker κ} {pre post : List (Worker κ)}

/-- A step that leaves the loop where it is. -/
lemma Ok.turn (hI : prog.Keeps q I) (h : prog.Ok q I s (pre++w :: post)) {m : QueueMemory}
    {w' : Worker κ} {xs ys : List ℕ} (hshares : m.Shares q (pre++w' :: post) ys)
    (hold : I s.2 ((pre++w :: post).map Worker.control) (xs++(pre++w :: post).flatMap Worker.held))
    (hcontrol : w'.control = w.control) (hheld : (ys++w'.held).Perm (xs++w.held))
    (hclosing : w'.Closing → prog.ended w.control = true) :
    prog.Ok q I (m,s.2) (pre++w' :: post) where
  placed := by
    refine ⟨ys,hshares,?_⟩
    rw [List.map_append,List.map_cons] at hold ⊢
    rw [hcontrol]
    refine hI.perm _ _ _ _ ?_ hold
    rw [List.perm_iff_count] at hheld ⊢
    intro a
    have := hheld a
    simp only [List.count_append,List.flatMap_append,List.flatMap_cons] at this ⊢
    omega
  closing := forall_turn h.closing (fun _ hclose => hcontrol ▸ hclosing hclose) fun _ _ hold => hold

/-- The step of a worker, which keeps the invariant and leaves less to do. -/
def Advances (prog : Producer σ κ) (q : SlidingQueue) (I : σ → List κ → List ℕ → Prop)
    (s : QueueMemory × σ) (pre post : List (Worker κ)) (w : Worker κ) : Prop :=
  ∃ s' w',w.step prog s = some (s',w') ∧ prog.Ok q I s' (pre++w' :: post) ∧
    w'.cost prog < w.cost prog

namespace Ok
variable {control : κ} {localQueue : List ℕ} {v dest : ℕ} {toAdd : Option ℕ}

/-- The last `flush`. -/
lemma end_turn (hI : prog.Keeps q I) (h : prog.Ok q I s (pre++⟨control,localQueue,.idle⟩ :: post))
    (hended : prog.ended control = true) :
    prog.Advances q I s pre post ⟨control,localQueue,.idle⟩ := by
  obtain ⟨xs,hshares,hinv⟩ := h.placed
  refine ⟨_,_,if_pos hended,?_,?_⟩
  · refine h.turn hI (hshares.reserve (fun _ _ hcopy => hcopy) none) hinv rfl ?_ fun _ => hended
    simp [Worker.held]
  · simp only [Worker.cost]
    omega

/-- A step of the loop, which may have something to push. -/
lemma loop_turn (hI : prog.Keeps q I) (h : prog.Ok q I s (pre++⟨control,localQueue,.idle⟩ :: post))
    (hended : ¬prog.ended control = true) :
    prog.Advances q I s pre post ⟨control,localQueue,.idle⟩ := by
  obtain ⟨xs,hshares,hinv⟩ := h.placed
  obtain ⟨mem,control',o,hstep,hinv',hwork⟩ := hI.step s.1.slots s.2 (pre.map Worker.control)
    control (post.map Worker.control) _ hshares.old (by simpa using hinv) (by simpa using hended)
  refine ⟨(s.1,mem),⟨control',localQueue,.ofOut o⟩,?_,⟨⟨xs,?_,?_⟩,?_⟩,?_⟩
  · simp only [Worker.step,if_neg hended,hstep,Option.bind_eq_bind,Option.bind_some]
  · refine hshares.same fun p x => ?_
    cases o <;> exact Iff.rfl
  · rw [List.map_append,List.map_cons]
    refine hI.perm _ _ _ _ ?_ hinv'
    rw [List.perm_iff_count]
    intro a
    cases o with
    | none => simp [Worker.held,PushState.ofOut]
    | some v =>
      simp only [List.count_append,List.flatMap_append,List.flatMap_cons,Worker.held,
        PushState.ofOut,Option.toList_some]
      omega
  · refine forall_turn h.closing (fun _ hclose => ?_) fun _ _ hold => hold
    cases o <;> exact hclose.elim
  · cases o <;> simp only [Worker.cost,PushState.ofOut] <;> omega

/-- `push_back` on the local queue, which is flushed first if it is full. -/
lemma push_turn (hI : prog.Keeps q I)
    (h : prog.Ok q I s (pre++⟨control,localQueue,.push v⟩ :: post)) :
    prog.Advances q I s pre post ⟨control,localQueue,.push v⟩ := by
  obtain ⟨xs,hshares,hinv⟩ := h.placed
  by_cases hfull : localQueue.length = QueueBuffer.localSize
  · refine ⟨_,_,if_pos hfull,?_,?_⟩
    · refine h.turn hI (hshares.reserve (fun _ _ hcopy => hcopy) (some v)) hinv rfl ?_ ?_
      · simp [Worker.held]
      · intro hclose
        cases hclose
    · simp only [Worker.cost,hfull,QueueBuffer.localSize]
      omega
  · refine ⟨_,_,if_neg hfull,?_,?_⟩
    · exact h.turn hI (hshares.same fun _ _ => Iff.rfl) hinv rfl (.refl _) fun hclose =>
        hclose.elim
    · simp only [Worker.cost,List.length_append,List.length_singleton]
      omega

/-- An entry is copied. -/
lemma copy_turn (hI : prog.Keeps q I) {x : ℕ} {rest : List ℕ}
    (h : prog.Ok q I s (pre++⟨control,localQueue,.copy dest (x :: rest) toAdd⟩ :: post)) :
    prog.Advances q I s pre post ⟨control,localQueue,.copy dest (x :: rest) toAdd⟩ := by
  obtain ⟨xs,hshares,hinv⟩ := h.placed
  have hroom : q.shared.length+xs.length ≤ q.capacity := by
    have := hI.fits _ _ _ hinv
    simp only [List.length_append] at this
    omega
  have hclosing := h.closing _ (List.mem_append_right pre List.mem_cons_self)
  obtain ⟨slots,hwrite,hshares'⟩ := hshares.copy rfl hroom
  refine ⟨({ s.1 with slots },s.2),⟨control,localQueue,.copy (dest+1) rest toAdd⟩,?_,?_,?_⟩
  · simp only [Worker.step,hwrite,Option.bind_eq_bind,Option.bind_some]
  · exact h.turn hI hshares' hinv rfl (.refl _) hclosing
  · cases toAdd <;> simp only [Worker.cost,List.length_cons] <;> omega

/-- The local queue is empty again. -/
lemma copied_turn (hI : prog.Keeps q I)
    (h : prog.Ok q I s (pre++⟨control,localQueue,.copy dest [] toAdd⟩ :: post)) :
    prog.Advances q I s pre post ⟨control,localQueue,.copy dest [] toAdd⟩ := by
  obtain ⟨xs,hshares,hinv⟩ := h.placed
  have hclosing := h.closing _ (List.mem_append_right pre List.mem_cons_self)
  have hnone : ∀ p x,¬(⟨control,localQueue,.copy dest [] toAdd⟩ : Worker κ).Copies p x := by
    rintro p x ⟨k,-,hk⟩
    cases hk
  cases toAdd with
  | some v =>
    refine ⟨_,_,rfl,?_,?_⟩
    · exact h.turn hI (hshares.same fun p x => ⟨fun hcopy => hcopy.elim,fun hcopy =>
        absurd hcopy (hnone p x)⟩) hinv rfl (.refl _) fun hclose => hclose.elim
    · simp only [Worker.cost,List.length_singleton,List.length_nil]
      omega
  | none =>
    refine ⟨_,_,rfl,?_,?_⟩
    · exact h.turn hI (hshares.same fun p x => ⟨fun hcopy => hcopy.elim,fun hcopy =>
        absurd hcopy (hnone p x)⟩) hinv rfl (.refl _) fun _ => hclosing rfl
    · simp only [Worker.cost,List.length_nil]
      omega

lemma step (hI : prog.Keeps q I) (h : prog.Ok q I s (pre++w :: post)) (hw : w.done = false) :
    prog.Advances q I s pre post w := by
  obtain ⟨control,localQueue,state⟩ := w
  cases state with
  | idle =>
    by_cases hended : prog.ended control = true
    · exact h.end_turn hI hended
    · exact h.loop_turn hI hended
  | push v => exact h.push_turn hI
  | copy dest rest toAdd =>
    cases rest with
    | cons x rest => exact h.copy_turn hI
    | nil => exact h.copied_turn hI
  | closed => cases hw

end Ok

/-- In every order of the turns all threads get through, and the queue holds what they pushed. -/
lemma run_spec (hI : prog.Keeps q I) (mem : σ) {controls : List κ} (h : I mem controls [])
    (turns : ℕ → ℕ) :
    ∃ m mem' ws xs,prog.run turns q mem controls = some ⟨(m,mem'),ws⟩ ∧
      m.slots.take m.sharedIn = q.shared++xs ∧ I mem' (ws.map Worker.control) xs ∧
      ∀ w ∈ ws,prog.ended w.control = true := by
  have hcontrols : (controls.map Worker.start).map Worker.control = controls := by
    simp [Function.comp_def,Worker.start]
  have hheld : (controls.map Worker.start).flatMap Worker.held = [] := by
    simp [List.flatMap_map,Worker.start,Worker.held]
  have hfit : q.shared.length ≤ q.capacity := by simpa using hI.fits _ _ _ h
  have hstart : prog.Ok q I (.ofQueue q,mem) (controls.map Worker.start) := {
    placed := ⟨[],QueueMemory.shares_start q hfit controls,by rwa [hcontrols,hheld]⟩
    closing := fun w hw hclose => by
      obtain ⟨c,-,rfl⟩ := List.mem_map.mp hw
      exact hclose.elim }
  obtain ⟨⟨⟨m,mem'⟩,ws⟩,hrun,hok,hdone⟩ := Team.run_rule (Worker.step prog) Worker.done
    (prog.Ok q I) (fun _ ws => (ws.map (Worker.cost prog)).sum) (by
      intro s pre w post hok hw
      obtain ⟨s',w',hstep,hok',hlt⟩ := hok.step hI hw
      exact ⟨s',w',hstep,hok',sum_turn_lt _ hlt⟩) turns
    (s := ⟨(.ofQueue q,mem),controls.map Worker.start⟩) hstart le_rfl
  have hclosed : ∀ w ∈ ws,w.state = .closed := fun w hw => by
    simpa [Worker.done] using hdone w hw
  obtain ⟨xs,hshares,hinv⟩ := hok.placed
  refine ⟨m,mem',ws,xs,hrun,hshares.take_eq fun w hw p x hcopy => ?_,?_,fun w hw => ?_⟩
  · rw [Worker.Copies,hclosed w hw] at hcopy
    exact hcopy
  · have hempty : ws.flatMap Worker.held = [] := by
      rw [List.flatMap_eq_nil_iff]
      intro w hw
      rw [Worker.held,hclosed w hw]
    rwa [hempty,List.append_nil] at hinv
  · refine hok.closing w hw ?_
    rw [Worker.Closing,hclosed w hw]
    trivial

end Producer

end ElasticTranslations.Gapbs
