import ElasticTranslations.Benchmarks.BTreeCoalesce
import ElasticTranslations.Benchmarks.BTreeRedistribute
import Mathlib.Order.BooleanAlgebra.Set

/-! A deletion from the B+ tree, from the leaf up: as long as a node lacks a key it is put right
with a neighbor, which may take a key from the node above. -/
namespace ElasticTranslations.Benchmarks.BTree
open Structures
variable {order : ℕ} {d : Directory} {g g' : Labels} {root a b n left right p : Slot}
  {short short' : Option Slot} {pending pending' live : Set Slot} {h h₀ h' : Heap} {i : ℕ}
  {kPrime key : UInt64} {ndp nd : Node} {ks : List UInt64} {c : Slot} {cs : List Slot}

/-- A node leaves the heap with its arrays. -/
lemma Heap.free_node (hok : nodeLayout.Ok h.nodes live) (hb : b ∈ live) :
    ∃ h₁ h₂,h.freeArrays b = some h₁ ∧ h₁.freeNode b = some h₂ ∧
      nodeLayout.Ok h₂.nodes (live \ {b}) ∧ h₂.records = h.records ∧
      ∀ a,a ≠ b → h₂.node a = h.node a := by
  obtain ⟨nd,hnd⟩ := exists_node hok hb
  have harrays : h.freeArrays b = some (h.setNode b { nd with keys := [],pointers := [] }) :=
    update_eq hnd rfl
  obtain ⟨nodes,hpush,hok',hold⟩ :=
    (ok_setNode hok hb { nd with keys := [],pointers := [] }).push hb
  refine ⟨_,⟨nodes,h.records⟩,harrays,?_,hok',rfl,fun a ha => ?_⟩
  · rw [freeNode,hpush]
    rfl
  · exact (hold a ha).trans (h.node_setNode_of_ne ha _)

namespace Shrinking

/-- Only the nodes of the tree count. -/
lemma congr (hs : Shrinking order d g root short pending h)
    (hnode : ∀ a ∈ g.live,h'.node a = h.node a) (hok : nodeLayout.Ok h'.nodes (g.live ∪ pending'))
    (hapart : ∀ a ∈ pending',a ∉ g.live) : Shrinking order d g root short pending' h' := by
  have hparent : ∀ a ∈ g.live,h'.parent a = h.parent a := fun a ha => by
    rw [Heap.parent,hnode a ha,Heap.parent]
  have hkids : ∀ a ∈ g.live,h'.kids a = h.kids a := fun a ha => by
    rw [Heap.kids,hnode a ha,Heap.kids]
  refine { hs with
    ok := hok
    apart := hapart
    root_parent := (hparent root hs.root_live).trans hs.root_parent
    node := fun a ha => by
      rw [hnode a ha]
      exact hs.node a ha
    down := fun a ha hpos c hc => ?_
    up := fun a ha hne => ?_ }
  · rw [hkids a ha] at hc
    rw [hparent c (hs.kid ha hpos hc).1,hs.down a ha hpos c hc]
  · obtain ⟨p,hp,hpos,hap⟩ := hs.up a ha hne
    exact ⟨p,hp,hpos,by rwa [hkids p hp]⟩

/-- A node that has left the tree is freed. -/
lemma free (hs : Shrinking order d g root short (Insert.insert b pending) h) (hb : b ∉ pending) :
    ∃ h₁ h₂,h.freeArrays b = some h₁ ∧ h₁.freeNode b = some h₂ ∧ h₂.records = h.records ∧
      Shrinking order d g root short pending h₂ := by
  have hblive := hs.apart b (Set.mem_insert b pending)
  obtain ⟨h₁,h₂,h1,h2,hok,hrecords,hold⟩ := Heap.free_node hs.ok (b := b) (by simp)
  refine ⟨h₁,h₂,h1,h2,hrecords,hs.congr (fun a ha => hold a (ne_of_mem_of_not_mem ha hblive)) ?_
    fun a ha => hs.apart a (Set.mem_insert_of_mem b ha)⟩
  rwa [Set.union_insert,Set.insert_sdiff_self_of_notMem] at hok
  simp [hblive,hb]

/-- Nothing lacks a key, as it seemed. -/
lemma settle (hs : Shrinking order d g root (some n) pending h)
    (hfill : ∀ nd,h.node n = some nd → n ≠ root → minKeys order nd ≤ nd.numKeys)
    (hbranched : g.Branched root) : Shrinking order d g root none pending h := by
  refine { hs with
    node := fun a ha => ?_
    branched := fun _ => hbranched }
  obtain ⟨nd,hnd,hok,hmin⟩ := hs.node a ha
  refine ⟨nd,hnd,hok,fun hne => ?_⟩
  by_cases han : a = n
  · subst han
    exact (hfill nd hnd hne).trans (Nat.le_add_right _ _)
  · have := hmin hne
    rwa [if_neg fun heq => han (Option.some.inj heq).symm] at this

/-- How many keys a leaf has room for and one more, or an internal node. -/
def capacity (order : ℕ) (nd : Node) : ℕ := if nd.isLeaf then order else order-1

lemma isLeaf_iff (hs : Shrinking order d g root short pending h) (ha : a ∈ g.live)
    (hnd : h.node a = some nd) : nd.isLeaf = true ↔ g.level a = 0 := by
  rcases Nat.eq_zero_or_pos (g.level a) with hzero | hpos
  · obtain ⟨nd₀,ks,hnd₀,hleaf,-⟩ := hs.leaf ha hzero
    obtain rfl : nd₀ = nd := Option.some.inj (hnd₀.symm.trans hnd)
    simp [hleaf.isLeaf,hzero]
  · obtain ⟨nd₀,ks,c,cs,hnd₀,hinner,-⟩ := hs.inner ha hpos
    obtain rfl : nd₀ = nd := Option.some.inj (hnd₀.symm.trans hnd)
    simp [hinner.isLeaf]
    omega

/-- A node whose border moves keeps some keys. -/
lemma moveBorder_live_union {k : ℕ} (hk : k < g.hi right) :
    (g.moveBorder left right k).live ∪ pending = g.live ∪ pending := by
  simp [Labels.moveBorder,hk]

lemma moveBorder_apart {k : ℕ} (hs : Shrinking order d g root short pending h) :
    ∀ a ∈ pending,a ∉ (g.moveBorder left right k).live :=
  fun a ha halive => hs.apart a ha halive.1

section Neighbors
variable (hs : Shrinking order d g root (some n) pending h) (horder : 3 ≤ order)
  (hnb : Neighbors g h p left right i) (hndp : h.node p = some ndp)
  (hinner : InnerOk order g p none p ndp ks c cs) (hfill : p ≠ root → cut order-1 ≤ ks.length)
  (hkey : ks[i]? = some kPrime) (hkPrime : kPrime.toNat = g.lo right)
include hs horder hnb hndp hinner hfill hkey hkPrime

/-- Two neighbors with few keys become one, and now their parent lacks a key. -/
lemma coalesce (hn : n = left ∨ n = right)
    (hfit : ∀ nd₁ nd₂,h.node left = some nd₁ → h.node right = some nd₂ →
      nd₁.numKeys+nd₂.numKeys < capacity order nd₁) :
    ∃ h₁ h₂ nd₂,absorb order h right left kPrime = some h₁ ∧ h₁.node right = some nd₂ ∧
      nd₂.parent = some p ∧
      h₁.update p (Node.removeEntry order kPrime (.node right)) = some h₂ ∧
      h₂.records = h.records ∧
      Shrinking order d (g.moveBorder left right (g.hi right)) root (some p)
        (Insert.insert right pending) h₂ := by
  have hleft := hnb.left_live hs
  have hlive : (g.moveBorder left right (g.hi right)).live ∪ Insert.insert right pending =
      g.live ∪ pending := by
    ext a
    by_cases har : a = right
    · subst har
      simp [hnb.right_live hs]
    · simp [Labels.moveBorder,har]
  have hapart : ∀ a ∈ Insert.insert right pending,
      a ∉ (g.moveBorder left right (g.hi right)).live := by
    rintro a (rfl | ha) halive
    · exact absurd (halive.2 rfl) (lt_irrefl _)
    · exact hs.apart a ha halive.1
  rcases Nat.eq_zero_or_pos (g.level left) with hzero | hpos
  · obtain ⟨h₁,h₂,nd₂,habsorb,hnd₂,hparent,hupdate,hrecords,hr⟩ :=
      hs.absorb_leaf horder hnb hndp hinner hfill hkey hzero fun nd₁ nd₂ hnd₁ hnd₂ => by
        have := hfit nd₁ nd₂ hnd₁ hnd₂
        rwa [capacity,if_pos ((hs.isLeaf_iff hleft hnd₁).mpr hzero)] at this
    exact ⟨h₁,h₂,nd₂,habsorb,hnd₂,hparent,hupdate,hrecords,hr.shrinking hs hn hnb hlive hapart⟩
  · obtain ⟨h₁,h₂,nd₂,moved,habsorb,hnd₂,hparent,hupdate,hrecords,hr⟩ :=
      hs.absorb_node hnb hndp hinner hfill hkey hpos hkPrime fun nd₁ nd₂ hnd₁ hnd₂ => by
        have := hfit nd₁ nd₂ hnd₁ hnd₂
        rwa [capacity,if_neg (mt (hs.isLeaf_iff hleft hnd₁).mp hpos.ne')] at this
    exact ⟨h₁,h₂,nd₂,habsorb,hnd₂,hparent,hupdate,hrecords,hr.shrinking hs hn hnb hlive hapart⟩

/-- The right node lacks a key and gets one of its neighbor's. -/
lemma redistribute_right (hn : right = n)
    (hshort : ∀ nd,h.node right = some nd → nd.numKeys < minKeys order nd)
    (hboth : ∀ nd nd',h.node right = some nd → h.node left = some nd' →
      capacity order nd ≤ nd'.numKeys+nd.numKeys) :
    ∃ h' g',redistributeNodes h right left (some i) i kPrime = some h' ∧
      h'.records = h.records ∧ g'.level = g.level ∧ Shrinking order d g' root none pending h' := by
  subst hn
  have hi := (List.getElem?_eq_some_iff.mp hkey).1
  have hright := hnb.right_live hs
  have hll := hnb.left_level hs
  have hrl := hnb.right_level hs
  rcases Nat.eq_zero_or_pos (g.level left) with hzero | hpos
  · have hleaf : ∀ nd,h.node right = some nd → nd.isLeaf = true := fun nd hnd =>
      (hs.isLeaf_iff hright hnd).mpr (by omega)
    obtain ⟨k,h',hstep,hrecords,hk,hr⟩ := hs.borrowFromLeft_leaf (j := i) horder hnb hndp hinner
      hfill hi hzero (fun nd hnd => by
        have := hshort nd hnd
        rwa [minKeys,if_pos (hleaf nd hnd)] at this) fun nd₁ nd₂ hnd₁ hnd₂ => by
        have := hboth nd₂ nd₁ hnd₂ hnd₁
        rwa [capacity,if_pos (hleaf nd₂ hnd₂)] at this
    exact ⟨h',g.moveBorder left right k.toNat,hstep,hrecords,rfl,
      hr.shrinking hs (.inr rfl) hnb (moveBorder_live_union hk) (moveBorder_apart hs)⟩
  · have hinner' : ∀ nd,h.node right = some nd → ¬nd.isLeaf = true := fun nd hnd =>
      mt (hs.isLeaf_iff hright hnd).mp (by omega)
    obtain ⟨k,h',moved,hstep,hrecords,hk,hr⟩ := hs.borrowFromLeft_node (j := i) horder hnb hndp
      hinner hfill hi hpos hkPrime (fun nd hnd => by
        have := hshort nd hnd
        rwa [minKeys,if_neg (hinner' nd hnd)] at this) fun nd₁ nd₂ hnd₁ hnd₂ => by
        have := hboth nd₂ nd₁ hnd₂ hnd₁
        rwa [capacity,if_neg (hinner' nd₂ hnd₂)] at this
    exact ⟨h',g.moveBorder left right k.toNat,hstep,hrecords,rfl,
      hr.shrinking hs (.inr rfl) hnb (moveBorder_live_union hk) (moveBorder_apart hs)⟩

/-- The left node lacks a key and gets one of its neighbor's. -/
lemma redistribute_left (hn : left = n)
    (hshort : ∀ nd,h.node left = some nd → nd.numKeys < minKeys order nd)
    (hboth : ∀ nd nd',h.node left = some nd → h.node right = some nd' →
      capacity order nd ≤ nd'.numKeys+nd.numKeys) :
    ∃ h' g',redistributeNodes h left right none i kPrime = some h' ∧
      h'.records = h.records ∧ g'.level = g.level ∧ Shrinking order d g' root none pending h' := by
  subst hn
  have hi := (List.getElem?_eq_some_iff.mp hkey).1
  have hleft := hnb.left_live hs
  rcases Nat.eq_zero_or_pos (g.level left) with hzero | hpos
  · have hleaf : ∀ nd,h.node left = some nd → nd.isLeaf = true := fun nd hnd =>
      (hs.isLeaf_iff hleft hnd).mpr hzero
    obtain ⟨k,h',hstep,hrecords,hk,hr⟩ := hs.borrowFromRight_leaf horder hnb
      hndp hinner hfill hi kPrime hzero (fun nd hnd => by
        have := hshort nd hnd
        rwa [minKeys,if_pos (hleaf nd hnd)] at this) fun nd₁ nd₂ hnd₁ hnd₂ => by
        have := hboth nd₁ nd₂ hnd₁ hnd₂
        rwa [capacity,if_pos (hleaf nd₁ hnd₁),add_comm] at this
    exact ⟨h',g.moveBorder left right k.toNat,hstep,hrecords,rfl,
      hr.shrinking hs (.inl rfl) hnb (moveBorder_live_union hk) (moveBorder_apart hs)⟩
  · have hinner' : ∀ nd,h.node left = some nd → ¬nd.isLeaf = true := fun nd hnd =>
      mt (hs.isLeaf_iff hleft hnd).mp hpos.ne'
    obtain ⟨k,h',moved,hstep,hrecords,hk,hr⟩ := hs.borrowFromRight_node horder hnb hndp hinner
      hfill hi hpos hkPrime (fun nd hnd => by
        have := hshort nd hnd
        rwa [minKeys,if_neg (hinner' nd hnd)] at this) fun nd₁ nd₂ hnd₁ hnd₂ => by
        have := hboth nd₁ nd₂ hnd₁ hnd₂
        rwa [capacity,if_neg (hinner' nd₁ hnd₁),add_comm] at this
    exact ⟨h',g.moveBorder left right k.toNat,hstep,hrecords,rfl,
      hr.shrinking hs (.inl rfl) hnb (moveBorder_live_union hk) (moveBorder_apart hs)⟩

/-- Two neighbors with many keys share them, and no node lacks one then. -/
lemma redistribute {neighbor : Slot} {index : Option ℕ}
    (hn : n = right ∧ neighbor = left ∧ index = some i ∨
      n = left ∧ neighbor = right ∧ index = none)
    (hshort : ∀ nd,h.node n = some nd → nd.numKeys < minKeys order nd)
    (hboth : ∀ nd nd',h.node n = some nd → h.node neighbor = some nd' →
      capacity order nd ≤ nd'.numKeys+nd.numKeys) :
    ∃ h' g',redistributeNodes h n neighbor index i kPrime = some h' ∧
      h'.records = h.records ∧ g'.level = g.level ∧ Shrinking order d g' root none pending h' := by
  rcases hn with ⟨rfl,rfl,rfl⟩ | ⟨rfl,rfl,rfl⟩
  · exact hs.redistribute_right horder hnb hndp hinner hfill hkey hkPrime rfl hshort hboth
  · exact hs.redistribute_left horder hnb hndp hinner hfill hkey hkPrime rfl hshort hboth

end Neighbors

end Shrinking

/-- An internal node with a key has a child that does not begin at 0. -/
lemma InnerOk.exists_kid (hi : InnerOk order g root none a nd ks c cs) (hks : 0 < ks.length) :
    ∃ b ∈ c :: cs,g.lo b ≠ 0 := by
  have hlen := hi.length_eq
  obtain ⟨b,cs,rfl⟩ := List.exists_cons_of_length_pos (show 0 < cs.length by omega)
  obtain ⟨-,hlt,hb,-⟩ := hi.tiles
  exact ⟨b,by simp,by omega⟩

/-- How a deletion ends: there is no node left, or a tree that is no higher than before. -/
def Deleted (order : ℕ) (d : Directory) (g : Labels) (root : Slot) (pending : Set Slot) (h : Heap) :
    Option Slot → Heap → Prop
  | none,h' => d.keys = ∅ ∧ nodeLayout.Ok h'.nodes pending ∧ h'.records = h.records
  | some r,h' => h'.records = h.records ∧
      ∃ g',Shrinking order d g' r none pending h' ∧ g'.level r ≤ g.level root

lemma Deleted.free {r : Option Slot}
    (hd : Deleted order d g root (Insert.insert b pending) h r h') (hb : b ∉ pending) :
    ∃ h₁ h₂,h'.freeArrays b = some h₁ ∧ h₁.freeNode b = some h₂ ∧
      Deleted order d g root pending h r h₂ := by
  cases r with
  | none =>
    obtain ⟨hkeys,hok,hrecords⟩ := hd
    obtain ⟨h₁,h₂,h1,h2,hok',hrecords',-⟩ := Heap.free_node hok (Set.mem_insert b pending)
    rw [Set.insert_sdiff_self_of_notMem hb] at hok'
    exact ⟨h₁,h₂,h1,h2,hkeys,hok',hrecords'.trans hrecords⟩
  | some r =>
    obtain ⟨hrecords,g',hs,hle⟩ := hd
    obtain ⟨h₁,h₂,h1,h2,hrecords',hs'⟩ := hs.free hb
    exact ⟨h₁,h₂,h1,h2,hrecords'.trans hrecords,g',hs',hle⟩

lemma Deleted.congr {r : Option Slot} (hd : Deleted order d g root pending h r h')
    (hlevel : g'.level root = g.level root) (hrecords : h.records = h₀.records) :
    Deleted order d g' root pending h₀ r h' := by
  cases r with
  | none => exact ⟨hd.1,hd.2.1,hd.2.2.trans hrecords⟩
  | some r => exact ⟨hd.1.trans hrecords,hlevel ▸ hd.2⟩

/-- The only child of the root has no parent any more, and the root is free. -/
structure Promoted (h : Heap) (root c : Slot) (h' : Heap) : Prop where
  node_self : ∃ nd,h.node c = some nd ∧ h'.node c = some { nd with parent := none }
  node_of_ne : ∀ a,a ≠ root → a ≠ c → h'.node a = h.node a

namespace Promoted
variable (hp : Promoted h root c h') (hs : Shrinking order d g root (some root) pending h)
include hp

lemma parent_self : h'.parent c = none := by
  obtain ⟨nd,-,hnd⟩ := hp.node_self
  exact parent_of_node hnd

lemma sameRow (har : a ≠ root) (hnd : h.node a = some nd) :
    ∃ nd',h'.node a = some nd' ∧ SameRow nd nd' := by
  by_cases hac : a = c
  · subst hac
    obtain ⟨nd₁,hnd₁,hnd'⟩ := hp.node_self
    obtain rfl : nd₁ = nd := Option.some.inj (hnd₁.symm.trans hnd)
    exact ⟨_,hnd',rfl,rfl,rfl,rfl⟩
  · exact ⟨nd,(hp.node_of_ne a har hac).trans hnd,.refl nd⟩

include hs

lemma kids_eq (ha : a ∈ g.live) (har : a ≠ root) : h'.kids a = h.kids a := by
  obtain ⟨nd,hnd,-⟩ := hs.node a ha
  obtain ⟨nd',hnd',hrow⟩ := hp.sameRow har hnd
  simp only [Heap.kids,hnd,hnd',hrow.pointers_eq,hrow.numKeys_eq]

variable (hpos : 0 < g.level root) (hkids : h.kids root = [c])
include hpos hkids

omit hp in
/-- The root and its child are no children of the other nodes. -/
lemma kid_ne (ha : a ∈ g.live) (har : a ≠ root) (hapos : 0 < g.level a) (hb : b ∈ h.kids a) :
    b ≠ root ∧ b ≠ c := by
  have hparent := hs.down a ha hapos b hb
  constructor
  · rintro rfl
    rw [hs.root_parent] at hparent
    simp at hparent
  · rintro rfl
    have := hs.down root hs.root_live hpos b (by simp [hkids])
    exact har (Option.some.inj (hparent.symm.trans this))

lemma node (hclevel : g.level c+1 = g.level root) (ha : a ∈ g.live) (har : a ≠ root) :
    ∃ nd,h'.node a = some nd ∧ NodeOk order d { g with live := g.live \ {root} } a none a nd ∧
      minKeys order nd ≤ nd.numKeys := by
  obtain ⟨nd,hnd,hok,hfill⟩ := hs.node a ha
  obtain ⟨nd',hnd',hrow⟩ := hp.sameRow har hnd
  refine ⟨nd',hnd',hok.relabel hrow hnd rfl rfl rfl (fun hapos b hb => ?_)
    (fun hzero b hb hblevel hblo => ⟨⟨hb,?_⟩,rfl⟩) fun _ _ _ _ => ⟨Iff.rfl,fun _ => rfl⟩,?_⟩
  · exact ⟨⟨(hs.kid ha hapos hb).1,(kid_ne hs hpos hkids ha har hapos hb).1⟩,rfl,rfl⟩
  · rintro rfl
    omega
  · have := hfill har
    rw [if_neg fun heq => har (Option.some.inj heq).symm] at this
    rwa [minKeys,hrow.isLeaf_eq,hrow.numKeys_eq]

lemma down (ha : a ∈ g.live) (har : a ≠ root) (hapos : 0 < g.level a) (hb : b ∈ h'.kids a) :
    h'.parent b = some a := by
  rw [hp.kids_eq hs ha har] at hb
  obtain ⟨hbr,hbc⟩ := kid_ne hs hpos hkids ha har hapos hb
  rw [Heap.parent,hp.node_of_ne b hbr hbc]
  exact hs.down a ha hapos b hb

omit hpos in
lemma up (ha : a ∈ g.live) (har : a ≠ root) (hac : a ≠ c) :
    ∃ p ∈ g.live \ {root},0 < g.level p ∧ a ∈ h'.kids p := by
  obtain ⟨p,hplive,hppos,hap⟩ := hs.up a ha har
  have hpr : p ≠ root := by
    rintro rfl
    rw [hkids,List.mem_singleton] at hap
    exact hac hap
  exact ⟨p,⟨hplive,hpr⟩,hppos,by rwa [hp.kids_eq hs hplive hpr]⟩

omit hp in
/-- The new root has more than one child, if it is not a leaf: it lacks no key. -/
lemma branched (horder : 3 ≤ order) (hc : c ∈ g.live) (hcr : c ≠ root) :
    Labels.Branched { g with live := g.live \ {root} } c := by
  intro hcpos
  obtain ⟨nd₁,ks₁,c₁,cs₁,-,hi₁,hkids₁,hfill⟩ := hs.inner hc hcpos
  have hfill := hfill hcr
  rw [if_neg fun heq => hcr (Option.some.inj heq).symm] at hfill
  have hcut : 0 < cut order-1 := by
    rw [cut]
    split_ifs <;> omega
  obtain ⟨b,hb,hblo⟩ := hi₁.exists_kid (by omega)
  obtain ⟨hblive,hblevel⟩ := hi₁.kid b hb
  have hbr := (kid_ne hs hpos hkids hc hcr hcpos (hkids₁ ▸ hb)).1
  exact ⟨b,⟨hblive,hbr⟩,hblevel,hblo⟩

end Promoted

namespace Shrinking

/-- The only child of the root takes its place. -/
lemma promote (hs : Shrinking order d g root (some root) pending h) (horder : 3 ≤ order)
    (hpos : 0 < g.level root) (hnd : h.node root = some nd)
    (hinner : InnerOk order g root none root nd [] c []) :
    ∃ h₁ h₂ h₃,h.update c (fun nd => some { nd with parent := none }) = some h₁ ∧
      h₁.freeArrays root = some h₂ ∧ h₂.freeNode root = some h₃ ∧ h₃.records = h.records ∧
      Shrinking order d { g with live := g.live \ {root} } c none pending h₃ := by
  obtain ⟨hclive,hclevel⟩ := hinner.kid c (by simp)
  obtain ⟨hclo,-,hchi⟩ := hinner.tiles
  have hcr : c ≠ root := by
    rintro rfl
    omega
  have hkids := hinner.kids_eq hnd
  have hnotPending : root ∉ pending := fun hcon => hs.apart root hcon hs.root_live
  obtain ⟨ndc,hndc,-⟩ := hs.node c hclive
  obtain ⟨h₂,h₃,h2,h3,hok,hrecords,hold⟩ :=
    Heap.free_node (Heap.ok_setNode hs.ok (.inl hclive) { ndc with parent := none })
      (b := root) (.inl hs.root_live)
  have hp : Promoted h root c h₃ := ⟨⟨ndc,hndc,(hold c hcr).trans (h.node_setNode_self c _)⟩,
    fun a har hac => (hold a har).trans (h.node_setNode_of_ne hac _)⟩
  rw [Set.union_sdiff_distrib,Set.sdiff_singleton_eq_self hnotPending] at hok
  refine ⟨_,h₂,h₃,Heap.update_eq hndc rfl,h2,h3,hrecords,?_⟩
  exact {
    ok := hok
    apart := fun a ha hcon => hs.apart a ha hcon.1
    root_live := ⟨hclive,hcr⟩
    root_lo := hclo.trans hs.root_lo
    root_hi := hchi.trans hs.root_hi
    root_parent := hp.parent_self
    level_le := fun a ha => by
      have : g.level a < g.level root := hs.tree.level_lt ha.1 ha.2
      exact show g.level a ≤ g.level c by omega
    node := fun a ha => by
      obtain ⟨nd,hnd,hok,hfill⟩ := hp.node hs hpos hkids hclevel ha.1 ha.2
      exact ⟨nd,hnd,hok,fun _ => hfill⟩
    down := fun a ha hapos b hb => hp.down hs hpos hkids ha.1 ha.2 hapos hb
    up := fun a ha hac => hp.up hs hkids ha.1 ha.2 hac
    branched := fun _ => Promoted.branched hs hpos hkids horder hclive hcr }

lemma adjustRoot (hs : Shrinking order d g root (some root) pending h) (horder : 3 ≤ order) :
    ∃ r h',BTree.adjustRoot h root = some (r,h') ∧ Deleted order d g root pending h r h' := by
  rcases Nat.eq_zero_or_pos (g.level root) with hzero | hpos
  · obtain ⟨nd,ks,hnd,hleaf,-⟩ := hs.leaf hs.root_live hzero
    by_cases hkeys : nd.numKeys > 0
    · refine ⟨some root,h,by simp [BTree.adjustRoot,hnd,hkeys],rfl,g,?_,le_rfl⟩
      exact hs.settle (fun _ _ hne => absurd rfl hne) fun hcon => absurd hcon (by omega)
    · have hnil : ks = [] := List.eq_nil_of_length_eq_zero (by rw [← hleaf.row.numKeys_eq]; omega)
      have hlive : g.live = {root} := by
        ext a
        refine ⟨fun ha => ?_,fun ha => ha ▸ hs.root_live⟩
        by_contra hne
        have : g.level a < g.level root := hs.tree.level_lt ha hne
        omega
      obtain ⟨h₁,h₂,h1,h2,hok,hrecords,-⟩ := Heap.free_node hs.ok (b := root) (.inl hs.root_live)
      refine ⟨none,h₂,?_,?_,?_,hrecords⟩
      · simp [BTree.adjustRoot,hnd,hkeys,hleaf.isLeaf,h1,h2]
      · ext k
        have := hleaf.mem_iff k
        rw [hnil,hs.root_lo,hs.root_hi] at this
        simpa [k.toNat_lt] using this
      · rw [hlive] at hok
        rwa [Set.singleton_union,Set.insert_sdiff_self_of_notMem] at hok
        exact fun hcon => hs.apart root hcon hs.root_live
  · obtain ⟨nd,ks,c,cs,hnd,hinner,hkids,-⟩ := hs.inner hs.root_live hpos
    by_cases hkeys : nd.numKeys > 0
    · refine ⟨some root,h,by simp [BTree.adjustRoot,hnd,hkeys],rfl,g,?_,le_rfl⟩
      refine hs.settle (fun _ _ hne => absurd rfl hne) fun _ => ?_
      obtain ⟨b,hb,hblo⟩ := hinner.exists_kid (by rw [← hinner.row.numKeys_eq]; exact hkeys)
      obtain ⟨hblive,hblevel⟩ := hinner.kid b hb
      exact ⟨b,hblive,hblevel,hblo⟩
    · have hnil : ks = [] :=
        List.eq_nil_of_length_eq_zero (by rw [← hinner.row.numKeys_eq]; omega)
      subst hnil
      have hnil : cs = [] := List.eq_nil_of_length_eq_zero hinner.length_eq
      subst hnil
      obtain ⟨h₁,h₂,h₃,h1,h2,h3,hrecords,hs'⟩ := hs.promote horder hpos hnd hinner
      have hptr : nd.pointers[0]? = some (.node c) := by
        rw [hinner.row.pointers_get (by simp)]
        rfl
      have hclevel := (hinner.kid c (by simp)).2
      refine ⟨some c,h₃,?_,hrecords,_,hs',show g.level c ≤ g.level root by omega⟩
      simp [BTree.adjustRoot,hnd,hkeys,hinner.isLeaf,hptr,h1,h2,h3]

section Steps
variable (fuel : ℕ) {ptr : Ptr} (hupdate : h₀.update n (Node.removeEntry order key ptr) = some h)
  (hroot : n ≠ root) (hnd : h.node n = some nd)
include hupdate hroot hnd

lemma deleteEntry_enough (hmin : minKeys order nd ≤ nd.numKeys) :
    BTree.deleteEntry order root (fuel+1) h₀ n key ptr = some (some root,h) := by
  rw [minKeys] at hmin
  simp only [BTree.deleteEntry,hupdate,Option.bind_eq_bind,Option.bind_some,if_neg hroot,hnd,
    if_pos hmin]
  rfl

lemma deleteEntry_short {nb : Slot} {ndb : Node} {index : Option ℕ}
    (hmin : ¬minKeys order nd ≤ nd.numKeys) (hparent : h.parent n = some p)
    (hgetnb : getNeighbor h n p = some (nb,index,i,kPrime)) (hndb : h.node nb = some ndb) :
    BTree.deleteEntry order root (fuel+1) h₀ n key ptr =
      if ndb.numKeys+nd.numKeys < capacity order nd then
        coalesceNodes (BTree.deleteEntry order root fuel) order h n nb index kPrime
      else (redistributeNodes h n nb index i kPrime).bind fun h => some (some root,h) := by
  rw [minKeys] at hmin
  rw [parent_of_node hnd] at hparent
  simp only [BTree.deleteEntry,hupdate,Option.bind_eq_bind,Option.bind_some,if_neg hroot,hnd,
    ge_iff_le,if_neg hmin,hparent,hgetnb,hndb]
  rfl

end Steps

/-- Whichever of the two lacked a key, it is the right one that goes. -/
lemma coalesceNodes_eq {delete : Heap → Slot → UInt64 → Ptr → Option (Option Slot × Heap)}
    {nb : Slot} {index : Option ℕ} {h₁ h₂ h₃ h₄ : Heap} {r : Option Slot}
    (hcase : n = right ∧ nb = left ∧ index = some i ∨ n = left ∧ nb = right ∧ index = none)
    (habsorb : absorb order h right left kPrime = some h₁) (hnd : h₁.node right = some nd)
    (hparent : nd.parent = some p) (hdelete : delete h₁ p kPrime (.node right) = some (r,h₂))
    (harrays : h₂.freeArrays right = some h₃) (hfree : h₃.freeNode right = some h₄) :
    coalesceNodes delete order h n nb index kPrime = some (r,h₄) := by
  rcases hcase with ⟨rfl,rfl,rfl⟩ | ⟨rfl,rfl,rfl⟩ <;>
  simp [coalesceNodes,habsorb,hnd,hparent,hdelete,harrays,hfree]

/-- Nodes of one level have room for as many keys. -/
lemma capacity_eq (hs : Shrinking order d g root short pending h) {nda ndb : Node}
    (ha : a ∈ g.live) (hb : b ∈ g.live) (hlevel : g.level a = g.level b)
    (hnda : h.node a = some nda) (hndb : h.node b = some ndb) :
    capacity order nda = capacity order ndb := by
  have h1 := hs.isLeaf_iff ha hnda
  rw [hlevel,← hs.isLeaf_iff hb hndb] at h1
  simp only [capacity,h1]

/-- The deletion of an entry, which has left its node already, goes on up the tree. -/
lemma deleteEntry {fuel : ℕ} {ptr : Ptr} (horder : 3 ≤ order)
    (hs : Shrinking order d g root (some n) pending h) (hn : n ∈ g.live)
    (hupdate : h₀.update n (Node.removeEntry order key ptr) = some h)
    (hfuel : g.level root < fuel+g.level n) :
    ∃ r h',BTree.deleteEntry order root fuel h₀ n key ptr = some (r,h') ∧
      Deleted order d g root pending h r h' := by
  induction fuel generalizing g n pending h h₀ key ptr with
  | zero =>
    have := hs.level_le n hn
    omega
  | succ fuel ih =>
    by_cases hroot : n = root
    · subst hroot
      obtain ⟨r,h',hadjust,hdeleted⟩ := hs.adjustRoot horder
      exact ⟨r,h',by simp [BTree.deleteEntry,hupdate,hadjust],hdeleted⟩
    obtain ⟨nd,hnd,-⟩ := hs.node n hn
    by_cases hmin : minKeys order nd ≤ nd.numKeys
    · refine ⟨some root,h,deleteEntry_enough fuel hupdate hroot hnd hmin,rfl,g,?_,le_rfl⟩
      refine hs.settle (fun nd' hnd' _ => ?_) (hs.branched fun heq => hroot (Option.some.inj heq))
      rwa [← Option.some.inj (hnd.symm.trans hnd')]
    obtain ⟨p,ndp,ks,c,cs,left,right,i,kPrime,nb,index,hparent,hndp,hinner,-,hfill,hnb,hkey,hkPrime,
      hgetnb,hcase⟩ := hs.exists_neighbor horder hroot hn
    have hlevel := hnb.left_level hs
    have hlevel' := hnb.right_level hs
    obtain ⟨ndl,hndl,-⟩ := hs.node left (hnb.left_live hs)
    obtain ⟨ndr,hndr,-⟩ := hs.node right (hnb.right_live hs)
    -- the node that lacks a key is one of the two, and its neighbor is the other one
    obtain ⟨ndb,hndb,hn',hsum⟩ : ∃ ndb,h.node nb = some ndb ∧ (n = left ∨ n = right) ∧
        ndb.numKeys+nd.numKeys = ndl.numKeys+ndr.numKeys := by
      rcases hcase with ⟨rfl,rfl,-⟩ | ⟨rfl,rfl,-⟩
      · obtain rfl := Option.some.inj (hnd.symm.trans hndr)
        exact ⟨ndl,hndl,.inr rfl,rfl⟩
      · obtain rfl := Option.some.inj (hnd.symm.trans hndl)
        exact ⟨ndr,hndr,.inl rfl,add_comm _ _⟩
    have hnlevel : g.level left = g.level n := by
      rcases hn' with rfl | rfl <;> omega
    have hstep := deleteEntry_short fuel hupdate hroot hnd hmin hparent hgetnb hndb
    by_cases hfit : ndb.numKeys+nd.numKeys < capacity order nd
    · rw [if_pos hfit] at hstep
      obtain ⟨h₁,h₂,nd₂,habsorb,hnd₂,hnd₂p,hremove,hrecords,hs'⟩ :=
        hs.coalesce horder hnb hndp hinner hfill hkey hkPrime hn' fun nd₁ nd₂ hnd₁ hnd₂ => by
          obtain rfl := Option.some.inj (hndl.symm.trans hnd₁)
          obtain rfl := Option.some.inj (hndr.symm.trans hnd₂)
          rwa [hs.capacity_eq (hnb.left_live hs) hn hnlevel hndl hnd,← hsum]
      have hplive : p ∈ (g.moveBorder left right (g.hi right)).live :=
        Labels.moveBorder_live_of_ne hnb.live (hnb.right_ne_up hs).symm
      obtain ⟨r,h₃,hdelete,hdeleted⟩ := ih hs' hplive hremove (by
        simp only [Labels.moveBorder_level]
        omega)
      obtain ⟨h₄,h₅,h4,h5,hdeleted⟩ := hdeleted.free fun hcon =>
        hs.apart right hcon (hnb.right_live hs)
      exact ⟨r,h₅,hstep.trans (coalesceNodes_eq hcase habsorb hnd₂ hnd₂p hdelete h4 h5),
        hdeleted.congr rfl hrecords⟩
    · rw [if_neg hfit] at hstep
      obtain ⟨h',g',hredist,hrecords,hlevel,hs'⟩ := hs.redistribute horder hnb hndp hinner hfill
        hkey hkPrime hcase (fun nd' hnd' => by
          rw [← Option.some.inj (hnd.symm.trans hnd')]
          omega) fun nd' ndb' hnd' hndb' => by
          rw [← Option.some.inj (hnd.symm.trans hnd'),← Option.some.inj (hndb.symm.trans hndb')]
          omega
      exact ⟨some root,h',hstep.trans (by rw [hredist]; rfl),hrecords,g',hs',by rw [hlevel]⟩

end Shrinking

end ElasticTranslations.Benchmarks.BTree
