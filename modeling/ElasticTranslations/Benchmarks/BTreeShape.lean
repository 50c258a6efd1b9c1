import ElasticTranslations.Benchmarks.BTreeHeap
import ElasticTranslations.Structures.Tiling

/-! The shape of the B+ tree in the heap, with labels that say at which level each node is and
which keys are in its charge. While a split goes up, the new half hangs beside the old one: the
parent has the place of both as one. -/
namespace ElasticTranslations.Benchmarks.BTree
open Structures

def Ptr.node? : Ptr → Option Slot
  | node n => some n
  | _ => none

def Ptr.record? : Ptr → Option Slot
  | record r => some r
  | _ => none

namespace Heap

/-- The children of an internal node. -/
def kids (h : Heap) (a : Slot) : List Slot :=
  match h.node a with
  | some nd => (nd.pointers.take (nd.numKeys+1)).filterMap Ptr.node?
  | none => []

def parent (h : Heap) (a : Slot) : Option Slot := (h.node a).bind Node.parent

end Heap

/-- The keys of the tree and the record of each. -/
structure Directory where
  keys : Set UInt64
  record : UInt64 → Slot

/-- The nodes in use, the level of each above the leaves, and where the keys in its charge begin
and end. -/
structure Labels where
  live : Set Slot
  level : Slot → ℕ
  lo : Slot → ℕ
  hi : Slot → ℕ

/-- Where the place of a node in its parent ends. -/
def Labels.slotHi (g : Labels) : Option (Slot × Slot) → Slot → ℕ
  | none,a => g.hi a
  | some (left,right),a => if a = left then g.hi right else g.hi a

/-- A root that was not split may have few keys. -/
def MayBeSmall (root : Slot) (hang : Option (Slot × Slot)) (a : Slot) : Prop :=
  a = root ∧ ∀ right,hang ≠ some (a,right)

section Nodes
variable (order : ℕ) (d : Directory) (g : Labels) (root : Slot) (hang : Option (Slot × Slot))
  (a : Slot) (nd : Node)

structure LeafOk (ks : List UInt64) : Prop where
  isLeaf : nd.isLeaf = true
  row : Row order ks (ks.map fun k => .record (d.record k)) nd
  sorted : ks.Pairwise (· < ·)
  mem_iff : ∀ k,k ∈ ks ↔ k ∈ d.keys ∧ g.lo a ≤ k.toNat ∧ k.toNat < g.hi a
  fill : ¬MayBeSmall root hang a → cut (order-1) ≤ ks.length
  link : (nd.pointers[order-1]? = some .null ∧ g.hi a = 2^64) ∨
    ∃ b ∈ g.live,g.level b = 0 ∧ g.lo b = g.hi a ∧ nd.pointers[order-1]? = some (.node b)

/-- The keys of an internal node are where its children but for the first begin. -/
structure InnerOk (ks : List UInt64) (c : Slot) (cs : List Slot) : Prop where
  isLeaf : nd.isLeaf = false
  row : Row order ks ((c :: cs).map .node) nd
  keys_eq : ks.map UInt64.toNat = cs.map g.lo
  tiles : Tiles g.lo (g.slotHi hang) (g.lo a) (g.hi a) (c :: cs)
  fill : ¬MayBeSmall root hang a → cut order-1 ≤ ks.length
  kid : ∀ b ∈ c :: cs,b ∈ g.live ∧ g.level b+1 = g.level a

inductive NodeOk : Prop
  | leaf (ks : List UInt64) (hlevel : g.level a = 0) (h : LeafOk order d g root hang a nd ks)
  | inner (ks : List UInt64) (c : Slot) (cs : List Slot) (hlevel : 0 < g.level a)
      (h : InnerOk order g root hang a nd ks c cs)

end Nodes

/-- A new half beside the old one, between which a split has divided the keys. -/
structure Hangs (g : Labels) (root : Slot) (h : Heap) (left right : Slot) : Prop where
  left_live : left ∈ g.live
  right_live : right ∈ g.live
  level_eq : g.level right = g.level left
  lo_eq : g.lo right = g.hi left
  left_lt : g.lo left < g.hi left
  right_lt : g.lo right < g.hi right
  parent_eq : h.parent right = h.parent left
  ne_root : right ≠ root

structure Shape (order : ℕ) (d : Directory) (g : Labels) (root : Slot)
    (hang : Option (Slot × Slot)) (h : Heap) : Prop where
  ok : nodeLayout.Ok h.nodes g.live
  root_live : root ∈ g.live
  root_lo : g.lo root = 0
  root_hi : g.slotHi hang root = 2^64
  root_parent : h.parent root = none
  level_le : ∀ a ∈ g.live,g.level a ≤ g.level root
  node : ∀ a ∈ g.live,∃ nd,h.node a = some nd ∧ NodeOk order d g root hang a nd
  down : ∀ a ∈ g.live,0 < g.level a → ∀ c ∈ h.kids a,h.parent c = some a
  up : ∀ a ∈ g.live,a ≠ root → (∀ left,hang ≠ some (left,a)) →
    ∃ p ∈ g.live,0 < g.level p ∧ a ∈ h.kids p
  hangs : ∀ left right,hang = some (left,right) → Hangs g root h left right

variable {order : ℕ} {d d' : Directory} {g g' : Labels} {root root' : Slot}
  {hang hang' : Option (Slot × Slot)} {h h' : Heap} {a b c : Slot} {nd nd' : Node}
  {ks : List UInt64} {cs : List Slot}

@[simp] lemma Labels.slotHi_none (g : Labels) (a : Slot) : g.slotHi none a = g.hi a := rfl

@[simp] lemma Labels.slotHi_left (g : Labels) (left right : Slot) :
    g.slotHi (some (left,right)) left = g.hi right := if_pos rfl

lemma Labels.slotHi_of_ne (g : Labels) {left : Slot} (right : Slot) (ha : a ≠ left) :
    g.slotHi (some (left,right)) a = g.hi a := if_neg ha

lemma filterMap_node? (cs : List Slot) : (cs.map Ptr.node).filterMap Ptr.node? = cs := by
  induction cs with
  | nil => rfl
  | cons c cs ih => simpa [Ptr.node?] using ih

lemma filterMap_record? (rs : List Slot) : (rs.map Ptr.record).filterMap Ptr.record? = rs := by
  induction rs with
  | nil => rfl
  | cons r rs ih => simpa [Ptr.record?] using ih

lemma kids_of_row (hnd : h.node a = some nd) (hrow : Row order ks (cs.map .node) nd)
    (hcs : cs.length = ks.length+1) : h.kids a = cs := by
  have htake := hrow.pointers_take
  rw [List.length_map,hcs] at htake
  simp only [Heap.kids,hnd]
  rw [hrow.numKeys_eq,htake,filterMap_node?]

lemma parent_of_node (hnd : h.node a = some nd) : h.parent a = nd.parent := by
  simp [Heap.parent,hnd]

namespace InnerOk

lemma length_eq (hi : InnerOk order g root hang a nd ks c cs) : cs.length = ks.length := by
  have := congrArg List.length hi.keys_eq
  simpa using this.symm

lemma kids_eq (hi : InnerOk order g root hang a nd ks c cs) (hnd : h.node a = some nd) :
    h.kids a = c :: cs := kids_of_row hnd hi.row (by simp [hi.length_eq])

lemma sorted (hi : InnerOk order g root hang a nd ks c cs) : ks.Pairwise (· < ·) := by
  have := hi.tiles.pairwise_lo
  rw [List.map_cons,List.pairwise_cons,← hi.keys_eq,List.pairwise_map] at this
  exact this.2.imp fun hk => UInt64.lt_iff_toNat_lt.mpr hk

end InnerOk

/-- The node is filled as it was. -/
structure SameRow (nd nd' : Node) : Prop where
  pointers_eq : nd'.pointers = nd.pointers
  keys_eq : nd'.keys = nd.keys
  numKeys_eq : nd'.numKeys = nd.numKeys
  isLeaf_eq : nd'.isLeaf = nd.isLeaf

lemma SameRow.refl (nd : Node) : SameRow nd nd := ⟨rfl,rfl,rfl,rfl⟩

lemma SameRow.withParent (p : Slot) (nd : Node) : SameRow nd (nd.withParent p) := ⟨rfl,rfl,rfl,rfl⟩

lemma SameRow.row (hs : SameRow nd nd') {ps : List Ptr} (hr : Row order ks ps nd) :
    Row order ks ps nd' where
  keys_length := by rw [hs.keys_eq,hr.keys_length]
  pointers_length := by rw [hs.pointers_eq,hr.pointers_length]
  numKeys_eq := by rw [hs.numKeys_eq,hr.numKeys_eq]
  keys_take := by rw [hs.keys_eq,hr.keys_take]
  pointers_take := by rw [hs.pointers_eq,hr.pointers_take]

/-- Nodes in use stay so, with their levels and the beginning of the keys in their charge. -/
structure Labels.Grows (g g' : Labels) : Prop where
  live : ∀ a ∈ g.live,a ∈ g'.live
  level_eq : ∀ a ∈ g.live,g'.level a = g.level a
  lo_eq : ∀ a ∈ g.live,g'.lo a = g.lo a

lemma Labels.Grows.refl (g : Labels) : g.Grows g := ⟨fun _ ha => ha,fun _ _ => rfl,fun _ _ => rfl⟩

/-- An internal root has more than one child. -/
def Labels.Branched (g : Labels) (root : Slot) : Prop :=
  0 < g.level root → ∃ a ∈ g.live,g.level a+1 = g.level root ∧ g.lo a ≠ 0

lemma Labels.Grows.branched (hg : g.Grows g') (hroot : root ∈ g.live) (hb : g.Branched root) :
    g'.Branched root := by
  intro hpos
  rw [hg.level_eq root hroot] at hpos ⊢
  obtain ⟨a,ha,hlevel,hlo⟩ := hb hpos
  exact ⟨a,hg.live a ha,by rw [hg.level_eq a ha,hlevel],by rwa [hg.lo_eq a ha]⟩

/-- A node that a step leaves alone is as it should be after the step. -/
lemma NodeOk.congr (hn : NodeOk order d g root hang a nd) (hs : SameRow nd nd') (hg : g.Grows g')
    (ha : a ∈ g.live) (hhi : g'.hi a = g.hi a)
    (hsmall : MayBeSmall root hang a → MayBeSmall root' hang' a)
    (hslot : 0 < g.level a → ∀ c ∈ h.kids a,g'.slotHi hang' c = g.slotHi hang c)
    (hnd : h.node a = some nd)
    (hd : g.level a = 0 → ∀ k : UInt64,g.lo a ≤ k.toNat → k.toNat < g.hi a →
      (k ∈ d'.keys ↔ k ∈ d.keys) ∧ (k ∈ d.keys → d'.record k = d.record k)) :
    NodeOk order d' g' root' hang' a nd' := by
  cases hn with
  | leaf ks hlevel hleaf =>
    have hd := hd hlevel
    refine .leaf ks (by rw [hg.level_eq a ha,hlevel])
      ⟨by rw [hs.isLeaf_eq,hleaf.isLeaf],?_,hleaf.sorted,?_,fun h => hleaf.fill (mt hsmall h),?_⟩
    · have hmap : (ks.map fun k => Ptr.record (d'.record k)) =
          ks.map fun k => Ptr.record (d.record k) := by
        apply List.map_congr_left
        intro k hk
        obtain ⟨hkd,hlo,hhi⟩ := (hleaf.mem_iff k).mp hk
        rw [(hd k hlo hhi).2 hkd]
      rw [hmap]
      exact hs.row hleaf.row
    · intro k
      rw [hleaf.mem_iff k,hg.lo_eq a ha,hhi]
      constructor
      · rintro ⟨hk,hlo,hhi⟩
        exact ⟨(hd k hlo hhi).1.mpr hk,hlo,hhi⟩
      · rintro ⟨hk,hlo,hhi⟩
        exact ⟨(hd k hlo hhi).1.mp hk,hlo,hhi⟩
    · rw [hs.pointers_eq,hhi]
      rcases hleaf.link with hnull | ⟨b,hb,hblevel,hblo,hlink⟩
      · exact .inl hnull
      · exact .inr ⟨b,hg.live b hb,by rw [hg.level_eq b hb,hblevel],by rw [hg.lo_eq b hb,hblo],
          hlink⟩
  | inner ks c cs hlevel hinner =>
    have hlo : ∀ b ∈ c :: cs,g'.lo b = g.lo b := fun b hb => hg.lo_eq b (hinner.kid b hb).1
    have hslot := hslot hlevel
    rw [hinner.kids_eq hnd] at hslot
    refine .inner ks c cs (by rwa [hg.level_eq a ha])
      ⟨by rw [hs.isLeaf_eq,hinner.isLeaf],hs.row hinner.row,?_,?_,
        fun h => hinner.fill (mt hsmall h),?_⟩
    · rw [hinner.keys_eq]
      exact List.map_congr_left fun b hb => (hlo b (by simp [hb])).symm
    · rw [hg.lo_eq a ha,hhi]
      exact hinner.tiles.congr hlo hslot
    · intro b hb
      obtain ⟨hlive,hb⟩ := hinner.kid b hb
      exact ⟨hg.live b hlive,by rw [hg.level_eq b hlive,hg.level_eq a ha,hb]⟩

namespace Shape

lemma inner (hs : Shape order d g root hang h) (ha : a ∈ g.live) (hlevel : 0 < g.level a) :
    ∃ nd ks c cs,h.node a = some nd ∧ InnerOk order g root hang a nd ks c cs ∧
      h.kids a = c :: cs := by
  obtain ⟨nd,hnd,hn⟩ := hs.node a ha
  cases hn with
  | leaf ks hzero hleaf => omega
  | inner ks c cs _ hinner => exact ⟨nd,ks,c,cs,hnd,hinner,hinner.kids_eq hnd⟩

lemma leaf (hs : Shape order d g root hang h) (ha : a ∈ g.live) (hlevel : g.level a = 0) :
    ∃ nd ks,h.node a = some nd ∧ LeafOk order d g root hang a nd ks := by
  obtain ⟨nd,hnd,hn⟩ := hs.node a ha
  cases hn with
  | leaf ks _ hleaf => exact ⟨nd,ks,hnd,hleaf⟩
  | inner ks c cs hpos hinner => omega

lemma kid (hs : Shape order d g root hang h) (ha : a ∈ g.live) (hlevel : 0 < g.level a)
    (hc : c ∈ h.kids a) : c ∈ g.live ∧ g.level c+1 = g.level a := by
  obtain ⟨nd,ks,b,cs,-,hinner,hkids⟩ := hs.inner ha hlevel
  rw [hkids] at hc
  exact hinner.kid c hc

/-- With nothing hanging, the nodes form a tiled tree. -/
def tree (hs : Shape order d g root none h) : TiledTree Slot ℕ where
  live := g.live
  root := root
  level := g.level
  lo := g.lo
  hi := g.hi
  kids := h.kids
  root_live := hs.root_live
  root_lt := by
    have hhi : g.hi root = 2^64 := hs.root_hi
    rw [hs.root_lo,hhi]
    decide
  kid_live _ ha hlevel _ hc := hs.kid ha hlevel hc
  tiles a ha hlevel := by
    obtain ⟨nd,ks,b,cs,-,hinner,hkids⟩ := hs.inner ha hlevel
    rw [hkids]
    exact hinner.tiles
  up a ha hne := hs.up a ha hne (by simp)
  level_le := hs.level_le

end Shape

end ElasticTranslations.Benchmarks.BTree
