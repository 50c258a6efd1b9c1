import ElasticTranslations.Structures.ArrayLoops
import Mathlib.Data.List.Nodup
import Mathlib.Data.Set.Insert

/-! A pool of cells of one size. It grows by slabs, and its free cells form a list that is
threaded through the cells themselves. -/
namespace ElasticTranslations.Structures
variable {α : Type}

@[ext] structure Slot where
  slab : ℕ
  index : ℕ
  deriving DecidableEq, Repr

/-- How many cells a slab has, what a zeroed cell is, and where a cell holds the link of the free
list: a cell may be one that holds no link now. -/
structure CellLayout (α : Type) where
  perSlab : ℕ
  zeroed : α
  next : α → Option (Option Slot)
  setNext : Option Slot → α → α
  perSlab_pos : 0 < perSlab
  next_setNext : ∀ s a,next (setNext s a) = some s

structure Pool (α : Type) where
  cells : Slot → Option α
  slabs : ℕ
  free : Option Slot

namespace Pool

def empty : Pool α := ⟨fun _ => none,0,none⟩

def store (p : Pool α) (s : Slot) (a : α) : Pool α :=
  { p with cells := fun t => if t = s then some a else p.cells t }

lemma store_cells (p : Pool α) (s : Slot) (a : α) (t : Slot) :
    (p.store s a).cells t = if t = s then some a else p.cells t := rfl

@[simp] lemma store_cells_self (p : Pool α) (s : Slot) (a : α) :
    (p.store s a).cells s = some a := if_pos rfl

lemma store_cells_of_ne (p : Pool α) {s t : Slot} (h : t ≠ s) (a : α) :
    (p.store s a).cells t = p.cells t := if_neg h

end Pool

namespace CellLayout
variable (L : CellLayout α)

/-- A new slab, zeroed. -/
def addSlab (p : Pool α) : Pool α :=
  { p with
    slabs := p.slabs+1
    cells := fun s =>
      if s.slab = p.slabs ∧ s.index < L.perSlab then some L.zeroed else p.cells s }

/-- A cell joins the free list at its head. -/
def push (p : Pool α) (s : Slot) : Option (Pool α) := do
  let a ← p.cells s
  return { p.store s (L.setNext p.free a) with free := some s }

def grow (p : Pool α) : Option (Pool α) :=
  forUp (fun i q => L.push q ⟨p.slabs,i⟩) L.perSlab 0 (L.addSlab p)

/-- Memory is allocated only when the free list is empty. -/
def refill (p : Pool α) : Option (Pool α) := if p.free.isNone then L.grow p else some p

def alloc (p : Pool α) : Option (Slot × Pool α) := do
  let p ← L.refill p
  let s ← p.free
  let a ← p.cells s
  let next ← L.next a
  return (s,{ p with free := next })

/-- The free list from a link on. -/
def Linked (cells : Slot → Option α) : Option Slot → List Slot → Prop
  | f,[] => f = none
  | f,s :: l => f = some s ∧ ∃ a next,cells s = some a ∧ L.next a = some next ∧ Linked cells next l

/-- All cells of the slabs, in the order of their addresses. -/
def slots (p : Pool α) : List Slot :=
  (List.range p.slabs).flatMap fun slab => (List.range L.perSlab).map fun i => ⟨slab,i⟩

/-- Each cell of the slabs is in use or on the free list, and once. -/
def UsedOnce (p : Pool α) (used : List Slot) : Prop :=
  ∃ l,L.Linked p.cells p.free l ∧ (used++l).Perm (L.slots p)

structure Ok (p : Pool α) (live : Set Slot) : Prop where
  isSome_iff : ∀ s,(p.cells s).isSome ↔ s.slab < p.slabs ∧ s.index < L.perSlab
  live_isSome : ∀ s ∈ live,(p.cells s).isSome
  free : ∃ l,L.Linked p.cells p.free l ∧ l.Nodup ∧ ∀ s,s ∈ l ↔ (p.cells s).isSome ∧ s ∉ live

variable {L} {p : Pool α} {live : Set Slot} {s : Slot}

lemma Linked.congr {cells cells' : Slot → Option α} {f : Option Slot} {l : List Slot}
    (h : L.Linked cells f l) (heq : ∀ s ∈ l,cells' s = cells s) : L.Linked cells' f l := by
  induction l generalizing f with
  | nil => exact h
  | cons s l ih =>
    obtain ⟨hf,a,next,ha,hnext,hl⟩ := h
    refine ⟨hf,a,next,?_,hnext,ih hl fun t ht => heq t (by simp [ht])⟩
    rw [heq s (by simp),ha]

lemma empty_ok : L.Ok Pool.empty ∅ where
  isSome_iff s := by simp [Pool.empty]
  live_isSome s hs := by simp at hs
  free := ⟨[],rfl,List.nodup_nil,fun s => by simp [Pool.empty]⟩

lemma Ok.live_of_free_none (h : L.Ok p live) (hfree : p.free = none) (hs : (p.cells s).isSome) :
    s ∈ live := by
  obtain ⟨l,hl,-,hmem⟩ := h.free
  by_contra hnot
  have hsl := (hmem s).mpr ⟨hs,hnot⟩
  cases l with
  | nil => simp at hsl
  | cons t l =>
    have := hfree.symm.trans hl.1
    simp at this

variable (L) in
/-- A pool with one slab more than `p`, whose first `i` cells are the free list. -/
structure Threaded (p : Pool α) (i : ℕ) (q : Pool α) : Prop where
  slabs_eq : q.slabs = p.slabs+1
  isSome_iff : ∀ t,(q.cells t).isSome ↔ t.slab < p.slabs+1 ∧ t.index < L.perSlab
  old : ∀ t,t.slab ≠ p.slabs → q.cells t = p.cells t
  list : ∃ l,L.Linked q.cells q.free l ∧ l.Nodup ∧ ∀ t,t ∈ l ↔ t.slab = p.slabs ∧ t.index < i

lemma threaded_addSlab (h : L.Ok p live) (hfree : p.free = none) :
    Threaded L p 0 (L.addSlab p) where
  slabs_eq := rfl
  isSome_iff t := by
    have ht := h.isSome_iff t
    simp only [addSlab]
    split_ifs with hnew
    · simp [hnew]
    · rw [ht]
      omega
  old t ht := by simp [addSlab,ht]
  list := ⟨[],hfree,List.nodup_nil,by simp⟩

lemma Threaded.push {i : ℕ} {q : Pool α} (h : Threaded L p i q) (hi : i < L.perSlab) :
    ∃ q',L.push q ⟨p.slabs,i⟩ = some q' ∧ Threaded L p (i+1) q' := by
  obtain ⟨l,hl,hnodup,hmem⟩ := h.list
  obtain ⟨a,ha⟩ := Option.isSome_iff_exists.mp ((h.isSome_iff ⟨p.slabs,i⟩).mpr ⟨by simp,hi⟩)
  have hnot : (⟨p.slabs,i⟩ : Slot) ∉ l := by simp [hmem]
  have hpush : L.push q ⟨p.slabs,i⟩ =
      some { q.store ⟨p.slabs,i⟩ (L.setNext q.free a) with free := some ⟨p.slabs,i⟩ } := by
    simp [CellLayout.push,ha]
  refine ⟨_,hpush,h.slabs_eq,?_,?_,⟨p.slabs,i⟩ :: l,?_,List.nodup_cons.mpr ⟨hnot,hnodup⟩,?_⟩
  · intro t
    rw [← h.isSome_iff t,Pool.store_cells]
    split_ifs with ht
    · simp [ht,ha]
    · rfl
  · intro t ht
    rw [← h.old t ht]
    apply q.store_cells_of_ne
    rintro rfl
    exact ht rfl
  · refine ⟨rfl,_,_,q.store_cells_self _ _,L.next_setNext _ _,hl.congr fun t ht => ?_⟩
    apply q.store_cells_of_ne
    rintro rfl
    exact hnot ht
  · intro t
    rw [List.mem_cons,hmem t,Slot.ext_iff]
    dsimp only
    omega

namespace Ok

/-- A write to a cell in use leaves the free list alone. -/
lemma store (h : L.Ok p live) (hs : s ∈ live) (a : α) : L.Ok (p.store s a) live := by
  have hsome : ∀ t,((p.store s a).cells t).isSome ↔ (p.cells t).isSome := by
    intro t
    by_cases hts : t = s
    · subst hts
      simpa using h.live_isSome t hs
    · rw [p.store_cells_of_ne hts]
  obtain ⟨l,hl,hnodup,hmem⟩ := h.free
  refine ⟨fun t => (hsome t).trans (h.isSome_iff t),fun t ht => (hsome t).mpr (h.live_isSome t ht),
    l,?_,hnodup,fun t => by rw [hmem t,hsome t]⟩
  apply hl.congr
  intro t ht
  apply p.store_cells_of_ne
  rintro rfl
  exact ((hmem t).mp ht).2 hs

/-- Growing an exhausted pool adds the cells of one slab to the free list. -/
lemma grow (h : L.Ok p live) (hfree : p.free = none) :
    ∃ q,L.grow p = some q ∧ L.Ok q live ∧ q.free.isSome ∧ ∀ t ∈ live,q.cells t = p.cells t := by
  obtain ⟨q,hq,hall⟩ := forUp_rule _ (n := L.perSlab) (threaded_addSlab h hfree)
    fun i q _ hi hI => hI.push (show i < L.perSlab by omega)
  rw [Nat.zero_add] at hall
  obtain ⟨l,hl,hnodup,hmem⟩ := hall.list
  have hlt : ∀ t ∈ live,t.slab < p.slabs := fun t ht =>
    ((h.isSome_iff t).mp (h.live_isSome t ht)).1
  refine ⟨q,hq,⟨?_,?_,l,hl,hnodup,?_⟩,?_,fun t ht => hall.old t (hlt t ht).ne⟩
  · intro t
    rw [hall.isSome_iff,hall.slabs_eq]
  · intro t ht
    rw [hall.old t (hlt t ht).ne]
    exact h.live_isSome t ht
  · intro t
    have hpt := h.isSome_iff t
    rw [hmem,hall.isSome_iff]
    constructor
    · rintro ⟨hs,hi⟩
      refine ⟨⟨by omega,hi⟩,fun hlive => ?_⟩
      have := hlt t hlive
      omega
    · rintro ⟨⟨hs,hi⟩,hnot⟩
      refine ⟨?_,hi⟩
      by_contra hne
      exact hnot (h.live_of_free_none hfree (hpt.mpr ⟨by omega,hi⟩))
  · have hfirst := (hmem ⟨p.slabs,0⟩).mpr ⟨rfl,L.perSlab_pos⟩
    cases l with
    | nil => simp at hfirst
    | cons s l => simp [hl.1]

lemma refill (h : L.Ok p live) :
    ∃ q,L.refill p = some q ∧ L.Ok q live ∧ q.free.isSome ∧ ∀ t ∈ live,q.cells t = p.cells t := by
  cases hf : p.free with
  | none => simpa [CellLayout.refill,hf] using h.grow hf
  | some s => exact ⟨p,by simp [CellLayout.refill,hf],h,by simp [hf],fun _ _ => rfl⟩

/-- A cell handed out was not in use, and the cells in use are as before. -/
lemma alloc (h : L.Ok p live) :
    ∃ s q a,L.alloc p = some (s,q) ∧ s ∉ live ∧ L.Ok q (insert s live) ∧ q.cells s = some a ∧
      ∀ t ∈ live,q.cells t = p.cells t := by
  obtain ⟨q,hq,hok,hfree,hold⟩ := h.refill
  obtain ⟨l,hl,hnodup,hmem⟩ := hok.free
  cases l with
  | nil =>
    have : q.free = none := hl
    simp [this] at hfree
  | cons s l =>
    obtain ⟨hqs,a,next,ha,hnext,hl⟩ := hl
    rw [List.nodup_cons] at hnodup
    have hs := (hmem s).mp (by simp)
    refine ⟨s,{ q with free := next },a,by simp [CellLayout.alloc,hq,hqs,ha,hnext],hs.2,
      ⟨hok.isSome_iff,?_,l,hl,hnodup.2,?_⟩,ha,hold⟩
    · rintro t (rfl | ht)
      · exact hs.1
      · exact hok.live_isSome t ht
    · intro t
      have ht := hmem t
      rw [List.mem_cons] at ht
      rw [Set.mem_insert_iff]
      by_cases hts : t = s
      · subst hts
        simp [hnodup.1]
      · simp only [hts,false_or] at ht ⊢
        exact ht

/-- A cell that is no longer in use joins the free list. -/
lemma push (h : L.Ok p live) (hs : s ∈ live) :
    ∃ q,L.push p s = some q ∧ L.Ok q (live \ {s}) ∧ ∀ t,t ≠ s → q.cells t = p.cells t := by
  obtain ⟨a,ha⟩ := Option.isSome_iff_exists.mp (h.live_isSome s hs)
  obtain ⟨l,hl,hnodup,hmem⟩ := h.free
  have hnot : s ∉ l := fun hsl => ((hmem s).mp hsl).2 hs
  have hold : ∀ t,t ≠ s → (p.store s (L.setNext p.free a)).cells t = p.cells t :=
    fun t ht => p.store_cells_of_ne ht _
  have hsome : ∀ t,((p.store s (L.setNext p.free a)).cells t).isSome ↔ (p.cells t).isSome := by
    intro t
    by_cases hts : t = s
    · subst hts
      simp [ha]
    · rw [hold t hts]
  refine ⟨{ p.store s (L.setNext p.free a) with free := some s },by simp [CellLayout.push,ha],
    ⟨fun t => (hsome t).trans (h.isSome_iff t),fun t ht => (hsome t).mpr (h.live_isSome t ht.1),
      s :: l,?_,List.nodup_cons.mpr ⟨hnot,hnodup⟩,fun t => ?_⟩,hold⟩
  · refine ⟨rfl,_,_,p.store_cells_self _ _,L.next_setNext _ _,hl.congr fun t ht => hold t ?_⟩
    exact ne_of_mem_of_not_mem ht hnot
  · rw [List.mem_cons,hmem t,hsome t,Set.mem_sdiff,Set.mem_singleton_iff]
    by_cases hts : t = s
    · subst hts
      simp [ha]
    · simp [hts]

lemma mem_slots (h : L.Ok p live) (s : Slot) : s ∈ L.slots p ↔ (p.cells s).isSome := by
  rw [h.isSome_iff]
  simp only [slots,List.mem_flatMap,List.mem_map,List.mem_range]
  constructor
  · rintro ⟨slab,hslab,i,hi,rfl⟩
    exact ⟨hslab,hi⟩
  · rintro ⟨hslab,hi⟩
    exact ⟨s.slab,hslab,s.index,hi,rfl⟩

lemma nodup_slots (L : CellLayout α) (p : Pool α) : (L.slots p).Nodup := by
  rw [slots,List.nodup_flatMap]
  refine ⟨fun slab _ => List.nodup_range.map fun i j hij => by simpa using hij,?_⟩
  apply List.nodup_range.imp
  intro a b hab s hsa hsb
  simp only [List.mem_map] at hsa hsb
  obtain ⟨i,-,rfl⟩ := hsa
  obtain ⟨j,-,hj⟩ := hsb
  exact hab (congrArg Slot.slab hj).symm

/-- The cells in use, listed without repetition, are used once. -/
lemma usedOnce (h : L.Ok p live) {used : List Slot} (hnodup : used.Nodup)
    (hused : ∀ s,s ∈ used ↔ s ∈ live) : L.UsedOnce p used := by
  obtain ⟨l,hl,hlnodup,hmem⟩ := h.free
  refine ⟨l,hl,(List.perm_ext_iff_of_nodup ?_ (nodup_slots L p)).mpr ?_⟩
  · refine List.nodup_append.mpr ⟨hnodup,hlnodup,fun s hs t ht hst => ?_⟩
    subst hst
    exact ((hmem s).mp ht).2 ((hused s).mp hs)
  · intro s
    have hlive := h.live_isSome s
    rw [List.mem_append,hused,hmem,h.mem_slots]
    tauto

end Ok
end CellLayout

end ElasticTranslations.Structures
