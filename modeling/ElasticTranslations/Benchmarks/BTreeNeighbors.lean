import ElasticTranslations.Benchmarks.BTreeShrinking

/-! A step of a deletion at two neighbors and their parent. The entries of the two are divided
anew: the border between them moves, and the key in the parent with it. -/
namespace ElasticTranslations.Benchmarks.BTree
open Structures
variable {order : ℕ} {d : Directory} {g : Labels} {root : Slot} {short short' : Option Slot}
  {pending live : Set Slot} {h h' : Heap} {a n left right p owner : Slot} {i k : ℕ}
  {nd nd₁ nd₂ nd₃ : Node} {moved : List Slot} {ks : List UInt64} {c : Slot} {cs : List Slot}

namespace Neighbors
variable (hnb : Neighbors g h p left right i) (hs : Shrinking order d g root short pending h)
include hnb hs

lemma nodup : (h.kids p).Nodup := (hs.tree.tiles p hnb.live hnb.level_pos).nodup

lemma ne_right {j : ℕ} (ha : (h.kids p)[j]? = some a) (hj : j ≠ i+1) : a ≠ right := by
  rintro rfl
  have hlt := (List.getElem?_eq_some_iff.mp ha).1
  exact hj ((List.getElem?_inj hlt (hnb.nodup hs)).mp (ha.trans hnb.right_at.symm))

lemma left_ne_up : left ≠ p := by
  rintro rfl
  have := hnb.left_level hs
  omega

lemma right_ne_up : right ≠ p := by
  rintro rfl
  have := hnb.right_level hs
  omega

/-- The other children of the parent keep their labels. -/
lemma exists_others (k : ℕ) :
    ∃ as bs,as.length = i ∧ h.kids p = as++left :: right :: bs ∧
      (∀ a ∈ as++left :: bs,a ≠ right ∧ (g.moveBorder left right k).lo a = g.lo a) ∧
      ∀ a ∈ as++right :: bs,(g.moveBorder left right k).hi a = g.hi a := by
  obtain ⟨as,bs,hlen,hkids⟩ := hnb.exists_split
  have hnodup := hnb.nodup hs
  rw [hkids] at hnodup
  have hright : (as++left :: right :: bs).Perm (right :: (as++left :: bs)) := by
    rw [List.append_cons,List.append_cons as left bs]
    exact List.perm_middle
  have hleft : (as++left :: right :: bs).Perm (left :: (as++right :: bs)) := List.perm_middle
  refine ⟨as,bs,hlen,hkids,fun a ha => ?_,fun a ha => Labels.moveBorder_hi_of_ne ?_⟩
  · have hne := ne_of_mem_of_not_mem ha (List.nodup_cons.mp (hright.nodup_iff.mp hnodup)).1
    exact ⟨hne,Labels.moveBorder_lo_of_ne hne⟩
  · exact ne_of_mem_of_not_mem ha (List.nodup_cons.mp (hleft.nodup_iff.mp hnodup)).1

end Neighbors

/-- Only the two neighbors, their parent and the children that one of them has adopted differ
from what they were. -/
structure Trio (h : Heap) (live : Set Slot) (left right p owner : Slot) (nd₁ nd₂ nd₃ : Node)
    (moved : List Slot) (h' : Heap) : Prop where
  left_live : left ∈ live
  right_live : right ∈ live
  up_live : p ∈ live
  left_ne_right : left ≠ right
  left_ne_up : left ≠ p
  right_ne_up : right ≠ p
  ok : nodeLayout.Ok h'.nodes live
  records_eq : h'.records = h.records
  node_left : h'.node left = some nd₁
  node_right : h'.node right = some nd₂
  node_up : h'.node p = some nd₃
  moves : Moves h (live \ {left,right,p}) owner moved h'

lemma Moves.refl (h : Heap) (s : Set Slot) (n : Slot) : Moves h s n [] h := fun _ _ => by simp

namespace Trio

lemma start (hs : Shrinking order d g root short pending h) (hnb : Neighbors g h p left right i)
    (owner : Slot) (hnd₁ : h.node left = some nd₁) (hnd₂ : h.node right = some nd₂)
    (hnd₃ : h.node p = some nd₃) :
    Trio h (g.live ∪ pending) left right p owner nd₁ nd₂ nd₃ [] h where
  left_live := .inl (hnb.left_live hs)
  right_live := .inl (hnb.right_live hs)
  up_live := .inl hnb.live
  left_ne_right := hnb.left_ne_right hs
  left_ne_up := hnb.left_ne_up hs
  right_ne_up := hnb.right_ne_up hs
  ok := hs.ok
  records_eq := rfl
  node_left := hnd₁
  node_right := hnd₂
  node_up := hnd₃
  moves := .refl h _ owner

variable (ht : Trio h live left right p owner nd₁ nd₂ nd₃ moved h')
include ht

lemma setLeft (nd : Node) :
    Trio h live left right p owner nd nd₂ nd₃ moved (h'.setNode left nd) :=
  { ht with
    ok := Heap.ok_setNode ht.ok ht.left_live nd
    records_eq := ht.records_eq
    node_left := h'.node_setNode_self left nd
    node_right := by rw [h'.node_setNode_of_ne ht.left_ne_right.symm,ht.node_right]
    node_up := by rw [h'.node_setNode_of_ne ht.left_ne_up.symm,ht.node_up]
    moves := ht.moves.setNode (by simp) nd }

lemma setRight (nd : Node) :
    Trio h live left right p owner nd₁ nd nd₃ moved (h'.setNode right nd) :=
  { ht with
    ok := Heap.ok_setNode ht.ok ht.right_live nd
    records_eq := ht.records_eq
    node_left := by rw [h'.node_setNode_of_ne ht.left_ne_right,ht.node_left]
    node_right := h'.node_setNode_self right nd
    node_up := by rw [h'.node_setNode_of_ne ht.right_ne_up.symm,ht.node_up]
    moves := ht.moves.setNode (by simp) nd }

lemma setUp (nd : Node) :
    Trio h live left right p owner nd₁ nd₂ nd moved (h'.setNode p nd) :=
  { ht with
    ok := Heap.ok_setNode ht.ok ht.up_live nd
    records_eq := ht.records_eq
    node_left := by rw [h'.node_setNode_of_ne ht.left_ne_up,ht.node_left]
    node_right := by rw [h'.node_setNode_of_ne ht.right_ne_up,ht.node_right]
    node_up := h'.node_setNode_self p nd
    moves := ht.moves.setNode (by simp) nd }

/-- One of the two adopts a child. -/
lemma adopt (hok : nodeLayout.Ok h.nodes live) {c : Slot} (hc : c ∈ live \ {left,right,p}) :
    ∃ h'',h'.update c (fun nd => some { nd with parent := some owner }) = some h'' ∧
      Trio h live left right p owner nd₁ nd₂ nd₃ (moved++[c]) h'' := by
  obtain ⟨hcl,hcr,hcp⟩ : c ≠ left ∧ c ≠ right ∧ c ≠ p := by simpa using hc.2
  obtain ⟨nd,hnd⟩ := Heap.exists_node hok hc.1
  obtain ⟨nd',hnd',hmoves⟩ := ht.moves.step hc hnd
  refine ⟨_,Heap.update_eq hnd' rfl,{ ht with
    ok := Heap.ok_setNode ht.ok hc.1 _
    records_eq := ht.records_eq
    node_left := ?_
    node_right := ?_
    node_up := ?_
    moves := hmoves }⟩
  · rw [h'.node_setNode_of_ne hcl.symm,ht.node_left]
  · rw [h'.node_setNode_of_ne hcr.symm,ht.node_right]
  · rw [h'.node_setNode_of_ne hcp.symm,ht.node_up]

end Trio

section Parent
variable (order : ℕ) (d : Directory) (g : Labels) (root p left right : Slot) (k : ℕ)
  (short : Option Slot) (h h' : Heap)

/-- The parent, after the border between two of its children has moved. -/
structure Rebordered : Prop where
  node : ∃ nd,h'.node p = some nd ∧ NodeOk order d (g.moveBorder left right k) p none p nd ∧
    (p ≠ root → minKeys order nd ≤ nd.numKeys+if short = some p then 1 else 0)
  mem_kids : ∀ c,c ∈ h'.kids p ↔ c ∈ h.kids p ∧ c ∈ (g.moveBorder left right k).live
  parent_eq : h'.parent p = h.parent p

end Parent

namespace Rebordered
variable (hs : Shrinking order d g root short pending h) (hnb : Neighbors g h p left right i)
  (hnd : h.node p = some nd) (hinner : InnerOk order g p none p nd ks c cs)
  (hfill : p ≠ root → cut order-1 ≤ ks.length)
include hs hnb hnd hinner hfill

/-- The key between the two is a new one. -/
lemma of_set {key : UInt64} (hlo : g.lo left < key.toNat) (hhi : key.toNat < g.hi right)
    (hr : Rewritten order (ks.set i key) ((c :: cs).map .node) nd nd₃)
    (hnd₃ : h'.node p = some nd₃) :
    Rebordered order d g root p left right key.toNat none h h' := by
  obtain ⟨hrow,hisLeaf,hparent⟩ := hr
  have hkids := hinner.kids_eq hnd
  have hkids' : h'.kids p = c :: cs := kids_of_row hnd₃ hrow (by simp [hinner.length_eq])
  obtain ⟨as,bs,-,hsplit,hloeq,hhieq⟩ := hnb.exists_others hs key.toNat
  have hat := hnb.right_at
  rw [hkids] at hsplit hat
  have hkid : ∀ b ∈ c :: cs,b ∈ (g.moveBorder left right key.toNat).live ∧
      g.level b+1 = g.level p := fun b hb =>
    ⟨⟨(hinner.kid b hb).1,fun _ => hhi⟩,(hinner.kid b hb).2⟩
  refine ⟨⟨nd₃,hnd₃,.inner _ c cs hnb.level_pos ⟨hisLeaf.trans hinner.isLeaf,hrow,?_,?_,
    fun hcon => absurd (NodeOk.mayBeSmall_self p) hcon,hkid⟩,fun hroot => ?_⟩,fun b => ?_,?_⟩
  · rw [List.map_set,hinner.keys_eq]
    refine List.ext_getElem? fun j => ?_
    by_cases hj : j = i
    · subst hj
      have hlt := (List.getElem?_eq_some_iff.mp hat).1
      rw [List.getElem?_set_self (by simpa using hlt),List.getElem?_map,
        show cs[j]? = some right from hat,Option.map_some,Labels.moveBorder_lo_right]
    · rw [List.getElem?_set_ne (Ne.symm hj),List.getElem?_map,List.getElem?_map]
      refine Option.map_congr fun b hb => (Labels.moveBorder_lo_of_ne ?_).symm
      exact hnb.ne_right hs (j := j+1) (by rw [hkids]; exact hb) (by omega)
  · rw [Labels.moveBorder_lo_of_ne (hnb.right_ne_up hs).symm,
      Labels.moveBorder_hi_of_ne (hnb.left_ne_up hs).symm,hsplit]
    refine (hsplit ▸ hinner.tiles).move (fun a ha => (hloeq a ha).2) hhieq ?_ ?_ ?_
    · exact (Labels.moveBorder_lo_right g).trans (Labels.moveBorder_hi_left g).symm
    · simpa using hlo
    · simpa using hhi
  · rw [minKeys,hisLeaf,if_neg (by simp [hinner.isLeaf]),hrow.numKeys_eq,List.length_set]
    exact (hfill hroot).trans (Nat.le_add_right _ _)
  · rw [hkids',hkids]
    exact ⟨fun hb => ⟨hb,(hkid b hb).1⟩,And.left⟩
  · rw [parent_of_node hnd₃,hparent,parent_of_node hnd]

/-- The right one has gone with the key between the two. -/
lemma of_eraseIdx
    (hr : Rewritten order (ks.eraseIdx i) (((c :: cs).eraseIdx (i+1)).map .node) nd nd₃)
    (hnd₃ : h'.node p = some nd₃) :
    Rebordered order d g root p left right (g.hi right) (some p) h h' := by
  obtain ⟨hrow,hisLeaf,hparent⟩ := hr
  have hkids := hinner.kids_eq hnd
  obtain ⟨as,bs,hlen,hsplit,hloeq,hhieq⟩ := hnb.exists_others hs (g.hi right)
  have hat := hnb.right_at
  rw [hkids] at hsplit hat
  have hilt : i < ks.length := by
    have := (List.getElem?_eq_some_iff.mp hat).1
    rw [List.length_cons,hinner.length_eq] at this
    omega
  have herase : (c :: cs).eraseIdx (i+1) = as++left :: bs := by
    rw [hsplit,← hlen,List.eraseIdx_append_of_length_le (by omega)]
    simp
  have herase' : c :: cs.eraseIdx i = as++left :: bs := herase
  have hkids' : h'.kids p = c :: cs.eraseIdx i :=
    kids_of_row hnd₃ hrow (by
      rw [List.length_cons,List.length_eraseIdx_of_lt (by rwa [hinner.length_eq]),
        List.length_eraseIdx_of_lt hilt,hinner.length_eq])
  have hmem : ∀ b,b ∈ c :: cs.eraseIdx i ↔ b ∈ c :: cs ∧ b ≠ right := by
    intro b
    rw [herase',hsplit]
    constructor
    · intro hb
      refine ⟨?_,(hloeq b hb).1⟩
      simp only [List.mem_append,List.mem_cons] at hb ⊢
      tauto
    · rintro ⟨hb,hbr⟩
      simp only [List.mem_append,List.mem_cons] at hb ⊢
      tauto
  refine ⟨⟨nd₃,hnd₃,.inner _ c (cs.eraseIdx i) hnb.level_pos ⟨hisLeaf.trans hinner.isLeaf,hrow,
    ?_,?_,fun hcon => absurd (NodeOk.mayBeSmall_self p) hcon,fun b hb => ?_⟩,fun hroot => ?_⟩,
    fun b => ?_,?_⟩
  · rw [← List.eraseIdx_map,hinner.keys_eq,List.eraseIdx_map]
    exact List.map_congr_left fun b hb =>
      ((hloeq b (herase' ▸ List.mem_cons_of_mem c hb)).2).symm
  · rw [Labels.moveBorder_lo_of_ne (hnb.right_ne_up hs).symm,
      Labels.moveBorder_hi_of_ne (hnb.left_ne_up hs).symm,herase']
    refine (hsplit ▸ hinner.tiles).merge (fun a ha => (hloeq a ha).2) (fun a ha => hhieq a ?_)
      (Labels.moveBorder_hi_left g)
    simp only [List.mem_append,List.mem_cons] at ha ⊢
    tauto
  · obtain ⟨hb,hbr⟩ := (hmem b).mp hb
    exact ⟨Labels.moveBorder_live_of_ne (hinner.kid b hb).1 hbr,(hinner.kid b hb).2⟩
  · rw [minKeys,hisLeaf,if_neg (by simp [hinner.isLeaf]),hrow.numKeys_eq,
      List.length_eraseIdx_of_lt hilt,if_pos rfl]
    have := hfill hroot
    omega
  · rw [hkids',hkids,hmem]
    refine and_congr_right fun hb => ⟨fun hbr => ?_,fun hblive hbr => ?_⟩
    · exact Labels.moveBorder_live_of_ne (hinner.kid b hb).1 hbr
    · exact absurd (hblive.2 hbr) (lt_irrefl _)
  · rw [parent_of_node hnd₃,hparent,parent_of_node hnd]

end Rebordered

/-- A node with other entries, and not too few. -/
structure Refilled (order least : ℕ) (ks : List UInt64) (ps : List Ptr) (nd nd' : Node) : Prop
    extends Rewritten order ks ps nd nd' where
  fill : least ≤ ks.length

/-- A neighbor as the step leaves it. -/
structure Mended (order : ℕ) (d : Directory) (g : Labels) (a : Slot) (nd nd' : Node) : Prop where
  node : NodeOk order d g a none a nd'
  fill : minKeys order nd' ≤ nd'.numKeys
  parent_eq : nd'.parent = nd.parent

/-- The children of the two neighbors afterwards. -/
structure Adopts (g : Labels) (h : Heap) (left right : Slot) (k : ℕ) (moved : List Slot)
    (h' : Heap) : Prop where
  moved_kid : ∀ c ∈ moved,0 < g.level left ∧ (c ∈ h.kids left ∨ c ∈ h.kids right)
  down : 0 < g.level left → ∀ a ∈ [left,right],a ∈ (g.moveBorder left right k).live →
    ∀ c ∈ h'.kids a,h'.parent c = some a
  up : 0 < g.level left → ∀ c,(c ∈ h.kids left ∨ c ∈ h.kids right) →
    ∃ a ∈ [left,right],a ∈ (g.moveBorder left right k).live ∧ c ∈ h'.kids a

lemma Adopts.of_leaves (hzero : g.level left = 0) : Adopts g h left right k [] h' where
  moved_kid := by simp
  down hpos := by omega
  up hpos := by omega

section Parts
variable {ndLeft ndRight : Node}

/-- A neighbor is as it should be, but perhaps for its label. -/
lemma Mended.exists_node (hm : Mended order d g a nd nd') (hnd : h.node a = some nd') :
    ∃ nd,h.node a = some nd ∧ NodeOk order d g a none a nd ∧
      (a ≠ root → minKeys order nd ≤ nd.numKeys+if short = some a then 1 else 0) :=
  ⟨nd',hnd,hm.node,fun _ => hm.fill.trans (Nat.le_add_right _ _)⟩

lemma Rearranges.of_parts (hs : Shrinking order d g root short pending h)
    (hnb : Neighbors g h p left right i)
    (ht : Trio h (g.live ∪ pending) left right p owner ndLeft ndRight nd₃ moved h')
    (hnd₁ : h.node left = some nd₁) (hnd₂ : h.node right = some nd₂) (hlo : g.lo left < k)
    (hleft : Mended order d (g.moveBorder left right k) left nd₁ ndLeft)
    (hright : k < g.hi right → Mended order d (g.moveBorder left right k) right nd₂ ndRight)
    (hkids : Adopts g h left right k moved h')
    (hup : Rebordered order d g root p left right k short' h h')
    (hgone : ¬k < g.hi right → short' = some p) :
    Rearranges order d g root pending h p left right k short' owner moved h' where
  ok := ht.ok
  moves a ha := ht.moves a ⟨.inl ha.1,ha.2⟩
  moved_kid := hkids.moved_kid
  lt_border := hlo
  node a ha halive := by
    rcases List.mem_cons.mp ha with rfl | ha
    · exact hleft.exists_node ht.node_left
    · rcases List.mem_cons.mp ha with rfl | ha
      · exact (hright (halive.2 rfl)).exists_node ht.node_right
      · rw [List.mem_singleton.mp ha]
        exact hup.node
  parent_left := by
    rw [parent_of_node ht.node_left,hleft.parent_eq,← parent_of_node hnd₁,hnb.left_parent hs]
  parent_right hk := by
    rw [parent_of_node ht.node_right,(hright hk).parent_eq,← parent_of_node hnd₂,
      hnb.right_parent hs]
  parent_eq := hup.parent_eq
  mem_kids := hup.mem_kids
  down := hkids.down
  up := hkids.up
  gone := hgone

end Parts

/-- The keys between two bounds, in two lists with a border between them. -/
structure Divided (d : Directory) (lo k hi : ℕ) (as bs : List UInt64) : Prop where
  sorted_left : as.Pairwise (· < ·)
  sorted_right : bs.Pairwise (· < ·)
  mem_left : ∀ x,x ∈ as ↔ x ∈ d.keys ∧ lo ≤ x.toNat ∧ x.toNat < k
  mem_right : ∀ x,x ∈ bs ↔ x ∈ d.keys ∧ k ≤ x.toNat ∧ x.toNat < hi

lemma Divided.of_append {lo hi : ℕ} {as bs : List UInt64} (hsorted : (as++bs).Pairwise (· < ·))
    (hmem : ∀ x,x ∈ as++bs ↔ x ∈ d.keys ∧ lo ≤ x.toNat ∧ x.toNat < hi)
    (has : ∀ x ∈ as,x.toNat < k) (hbs : ∀ x ∈ bs,k ≤ x.toNat) (hlo : lo ≤ k) (hhi : k ≤ hi) :
    Divided d lo k hi as bs where
  sorted_left := (List.pairwise_append.mp hsorted).1
  sorted_right := (List.pairwise_append.mp hsorted).2.1
  mem_left x := by
    constructor
    · intro hx
      obtain ⟨hxd,hxlo,-⟩ := (hmem x).mp (List.mem_append_left bs hx)
      exact ⟨hxd,hxlo,has x hx⟩
    · rintro ⟨hxd,hxlo,hxk⟩
      refine (List.mem_append.mp ((hmem x).mpr ⟨hxd,hxlo,hxk.trans_le hhi⟩)).resolve_right ?_
      exact fun hx => absurd (hbs x hx) (by omega)
  mem_right x := by
    constructor
    · intro hx
      obtain ⟨hxd,-,hxhi⟩ := (hmem x).mp (List.mem_append_right as hx)
      exact ⟨hxd,hbs x hx,hxhi⟩
    · rintro ⟨hxd,hxk,hxhi⟩
      refine (List.mem_append.mp ((hmem x).mpr ⟨hxd,hlo.trans hxk,hxhi⟩)).resolve_left ?_
      exact fun hx => absurd (has x hx) (by omega)

section Leaves
variable {ndLeft ndRight : Node} {ks₁ ks₂ as bs : List UInt64}
  (hs : Shrinking order d g root short pending h) (hnb : Neighbors g h p left right i)
include hs hnb

lemma Neighbors.link_right (hl₂ : LeafOk order d g right none right nd₂ ks₂) :
    (nd₂.pointers[order-1]? = some .null ∧ g.hi right = 2^64) ∨
      ∃ b ∈ (g.moveBorder left right k).live,g.level b = 0 ∧
        (g.moveBorder left right k).lo b = g.hi right ∧
        nd₂.pointers[order-1]? = some (.node b) := by
  rcases hl₂.link with hnull | ⟨b,hb,hblevel,hblo,hlink⟩
  · exact .inl hnull
  · have hne : b ≠ right := by
      rintro rfl
      have := hnb.border hs
      omega
    exact .inr ⟨b,Labels.moveBorder_live_of_ne hb hne,hblevel,
      (Labels.moveBorder_lo_of_ne hne).trans hblo,hlink⟩

/-- The keys of the two leaves, one behind the other. -/
lemma Neighbors.sorted_append (hl₁ : LeafOk order d g left none left nd₁ ks₁)
    (hl₂ : LeafOk order d g right none right nd₂ ks₂) : (ks₁++ks₂).Pairwise (· < ·) := by
  have hborder := hnb.border hs
  refine List.pairwise_append.mpr ⟨hl₁.sorted,hl₂.sorted,fun x hx y hy => ?_⟩
  have := ((hl₁.mem_iff x).mp hx).2.2
  have := ((hl₂.mem_iff y).mp hy).2.1
  exact UInt64.lt_iff_toNat_lt.mpr (by omega)

lemma Neighbors.mem_append (hl₁ : LeafOk order d g left none left nd₁ ks₁)
    (hl₂ : LeafOk order d g right none right nd₂ ks₂) (x : UInt64) :
    x ∈ ks₁++ks₂ ↔ x ∈ d.keys ∧ g.lo left ≤ x.toNat ∧ x.toNat < g.hi right := by
  have hborder := hnb.border hs
  rw [List.mem_append,hl₁.mem_iff,hl₂.mem_iff]
  constructor
  · rintro (⟨hx,hxlo,hxhi⟩ | ⟨hx,hxlo,hxhi⟩)
    · exact ⟨hx,hxlo,by omega⟩
    · exact ⟨hx,by omega,hxhi⟩
  · rintro ⟨hx,hxlo,hxhi⟩
    rcases lt_or_ge x.toNat (g.hi left) with hxl | hxr
    · exact .inl ⟨hx,hxlo,hxl⟩
    · exact .inr ⟨hx,by omega,hxhi⟩

lemma Mended.right_leaf (hl₂ : LeafOk order d g right none right nd₂ ks₂)
    (hdivided : Divided d (g.lo left) k (g.hi right) as bs) (hzero : g.level right = 0)
    (hr₂ : Refilled order (cut (order-1)) bs (bs.map fun x => .record (d.record x)) nd₂ ndRight)
    (hlink₂ : ndRight.pointers[order-1]? = nd₂.pointers[order-1]?) :
    Mended order d (g.moveBorder left right k) right nd₂ ndRight where
  node := by
    have hlr := hnb.left_ne_right hs
    refine .leaf bs hzero ⟨hr₂.isLeaf_eq.trans hl₂.isLeaf,hr₂.row,hdivided.sorted_right,?_,
      fun hcon => absurd (NodeOk.mayBeSmall_self right) hcon,?_⟩
    · rw [Labels.moveBorder_lo_right,Labels.moveBorder_hi_of_ne hlr.symm]
      exact hdivided.mem_right
    · rw [hlink₂,Labels.moveBorder_hi_of_ne hlr.symm]
      exact hnb.link_right hs hl₂
  fill := by
    rw [minKeys,hr₂.isLeaf_eq,if_pos hl₂.isLeaf,hr₂.row.numKeys_eq]
    exact hr₂.fill
  parent_eq := hr₂.parent_eq

variable (hzero : g.level left = 0)
include hzero

lemma Neighbors.link_left (hl₁ : LeafOk order d g left none left nd₁ ks₁) :
    nd₁.pointers[order-1]? = some (.node right) := by
  have hborder := hnb.border hs
  have hright := hs.tree.within (hnb.right_live hs)
  have hlevel := hnb.left_level hs
  have hlevel' := hnb.right_level hs
  have hhi : hs.tree.hi hs.tree.root = 2^64 := hs.root_hi
  have hwithin : g.lo right < g.hi right ∧ g.hi right ≤ 2^64 := ⟨hright.2.1,hhi ▸ hright.2.2⟩
  rcases hl₁.link with ⟨-,hend⟩ | ⟨b,hb,hblevel,hblo,hlink⟩
  · omega
  · obtain rfl : b = right := by
      refine hs.tree.eq_of_mem hb (hnb.right_live hs) ?_ ⟨le_rfl,(hs.tree.within hb).2.1⟩ ⟨?_,?_⟩
      · exact show g.level b = g.level right by omega
      · exact show g.lo right ≤ g.lo b by omega
      · exact show g.lo b < g.hi right by omega
    exact hlink

lemma Mended.left_leaf (hl₁ : LeafOk order d g left none left nd₁ ks₁)
    (hl₂ : LeafOk order d g right none right nd₂ ks₂)
    (hdivided : Divided d (g.lo left) k (g.hi right) as bs) (hhi : k ≤ g.hi right)
    (hr₁ : Refilled order (cut (order-1)) as (as.map fun x => .record (d.record x)) nd₁ ndLeft)
    (hlink₁ : ndLeft.pointers[order-1]? =
      if k < g.hi right then nd₁.pointers[order-1]? else nd₂.pointers[order-1]?) :
    Mended order d (g.moveBorder left right k) left nd₁ ndLeft where
  node := by
    refine .leaf as hzero ⟨hr₁.isLeaf_eq.trans hl₁.isLeaf,hr₁.row,hdivided.sorted_left,?_,
      fun hcon => absurd (NodeOk.mayBeSmall_self left) hcon,?_⟩
    · rw [Labels.moveBorder_lo_of_ne (hnb.left_ne_right hs),Labels.moveBorder_hi_left]
      exact hdivided.mem_left
    · rw [hlink₁,Labels.moveBorder_hi_left]
      split_ifs with hk
      · refine .inr ⟨right,⟨hnb.right_live hs,fun _ => hk⟩,?_,?_,?_⟩
        · exact (hnb.level_eq hs).trans hzero
        · exact Labels.moveBorder_lo_right g
        · exact hnb.link_left hs hzero hl₁
      · obtain rfl : k = g.hi right := by omega
        exact hnb.link_right hs hl₂
  fill := by
    rw [minKeys,hr₁.isLeaf_eq,if_pos hl₁.isLeaf,hr₁.row.numKeys_eq]
    exact hr₁.fill
  parent_eq := hr₁.parent_eq

/-- Two leaves whose entries are divided anew. -/
lemma Rearranges.of_leaves
    (ht : Trio h (g.live ∪ pending) left right p owner ndLeft ndRight nd₃ [] h')
    (hnd₁ : h.node left = some nd₁) (hl₁ : LeafOk order d g left none left nd₁ ks₁)
    (hnd₂ : h.node right = some nd₂) (hl₂ : LeafOk order d g right none right nd₂ ks₂)
    (hks : as++bs = ks₁++ks₂) (has : ∀ x ∈ as,x.toNat < k) (hbs : ∀ x ∈ bs,k ≤ x.toNat)
    (hlo : g.lo left < k) (hhi : k ≤ g.hi right)
    (hr₁ : Refilled order (cut (order-1)) as (as.map fun x => .record (d.record x)) nd₁ ndLeft)
    (hlink₁ : ndLeft.pointers[order-1]? =
      if k < g.hi right then nd₁.pointers[order-1]? else nd₂.pointers[order-1]?)
    (hr₂ : k < g.hi right →
      Refilled order (cut (order-1)) bs (bs.map fun x => .record (d.record x)) nd₂ ndRight ∧
        ndRight.pointers[order-1]? = nd₂.pointers[order-1]?)
    (hup : Rebordered order d g root p left right k short' h h')
    (hgone : ¬k < g.hi right → short' = some p) :
    Rearranges order d g root pending h p left right k short' owner [] h' := by
  have hdivided : Divided d (g.lo left) k (g.hi right) as bs :=
    .of_append (hks ▸ hnb.sorted_append hs hl₁ hl₂)
      (fun x => hks ▸ hnb.mem_append hs hl₁ hl₂ x) has hbs hlo.le hhi
  refine .of_parts hs hnb ht hnd₁ hnd₂ hlo (.left_leaf hs hnb hzero hl₁ hl₂ hdivided hhi hr₁ hlink₁)
    (fun hk => ?_) (.of_leaves hzero) hup hgone
  exact .right_leaf hs hnb hl₂ hdivided ((hnb.level_eq hs).trans hzero) (hr₂ hk).1 (hr₂ hk).2

end Leaves

section InnerNodes
variable {ndLeft ndRight : Node} {ks₁ ks₂ as bs : List UInt64} {c₁ c₂ a₁ : Slot}
  {cs₁ cs₂ as₁ ys : List Slot}
  (hs : Shrinking order d g root short pending h) (hnb : Neighbors g h p left right i)
include hs hnb

/-- The children of the two are not the two, nor their parent. -/
lemma Neighbors.other_of_kid {x : Slot} (hx : x ∈ g.live) (hlevel : g.level x+1 = g.level left) :
    x ∈ (g.live ∪ pending) \ {left,right,p} := by
  have hl := hnb.left_level hs
  have hr := hnb.right_level hs
  refine ⟨.inl hx,?_⟩
  simp only [Set.mem_insert_iff,Set.mem_singleton_iff,not_or]
  refine ⟨?_,?_,?_⟩ <;>
  · rintro rfl
    omega

/-- A child that one of the two has now, be it adopted or kept. -/
lemma Trio.parent_of_kid {x : Slot}
    (ht : Trio h (g.live ∪ pending) left right p owner ndLeft ndRight nd₃ moved h')
    (hx : x ∈ g.live ∧ g.level x+1 = g.level left) (ha : a ∈ g.live) (hlevel : 0 < g.level a)
    (hkid : x ∈ moved ∧ owner = a ∨ x ∉ moved ∧ x ∈ h.kids a) : h'.parent x = some a := by
  obtain ⟨hxs,hxs'⟩ := hnb.other_of_kid hs hx.1 hx.2
  obtain ⟨nd,hnd⟩ := Heap.exists_node hs.ok hxs
  rcases hkid with ⟨hm,rfl⟩ | ⟨hm,hold⟩
  · exact ht.moves.parent_of_mem ⟨hxs,hxs'⟩ hnd hm
  · rw [ht.moves.parent_of_not_mem ⟨hxs,hxs'⟩ hm]
    exact hs.down a ha hlevel x hold

variable (hpos : 0 < g.level left)
include hpos

/-- A part of the children of two neighbors is the children of one of them now. -/
lemma Mended.of_part {b : Slot} {bs : List Slot} (hb : a = left ∨ a = right)
    (hi : InnerOk order g a none a nd ks c cs) (hr : Refilled order (cut order-1) as
      ((b :: bs).map .node) nd nd₁)
    (hkid : ∀ x ∈ b :: bs,x ∈ g.live ∧ g.level x+1 = g.level left)
    (hkeys : as.map UInt64.toNat = bs.map g.lo)
    (htiles : Tiles g.lo g.hi ((g.moveBorder left right k).lo a) ((g.moveBorder left right k).hi a)
      (b :: bs)) :
    Mended order d (g.moveBorder left right k) a nd nd₁ where
  node := by
    have hlevel : g.level a = g.level left := by
      rcases hb with rfl | rfl
      · rfl
      · exact hnb.level_eq hs
    have hne : ∀ x ∈ b :: bs,x ≠ left ∧ x ≠ right := by
      intro x hx
      obtain ⟨-,hother⟩ := hnb.other_of_kid hs (hkid x hx).1 (hkid x hx).2
      simp only [Set.mem_insert_iff,not_or] at hother
      exact ⟨hother.1,hother.2.1⟩
    have hlo : ∀ x ∈ b :: bs,(g.moveBorder left right k).lo x = g.lo x := fun x hx =>
      Labels.moveBorder_lo_of_ne (hne x hx).2
    refine .inner as b bs (by rwa [Labels.moveBorder_level,hlevel])
      ⟨hr.isLeaf_eq.trans hi.isLeaf,hr.row,?_,htiles.congr hlo fun x hx => ?_,
        fun hcon => absurd (NodeOk.mayBeSmall_self a) hcon,fun x hx => ⟨?_,?_⟩⟩
    · rw [hkeys]
      exact List.map_congr_left fun x hx => (hlo x (List.mem_cons_of_mem b hx)).symm
    · exact Labels.moveBorder_hi_of_ne (hne x hx).1
    · exact Labels.moveBorder_live_of_ne (hkid x hx).1 (hne x hx).2
    · rw [Labels.moveBorder_level,hlevel]
      exact (hkid x hx).2
  fill := by
    rw [minKeys,hr.isLeaf_eq,if_neg (by simp [hi.isLeaf]),hr.row.numKeys_eq]
    exact hr.fill
  parent_eq := hr.parent_eq

variable (ht : Trio h (g.live ∪ pending) left right p owner ndLeft ndRight nd₃ moved h')
  (hnd₁ : h.node left = some nd₁) (hi₁ : InnerOk order g left none left nd₁ ks₁ c₁ cs₁)
  (hnd₂ : h.node right = some nd₂) (hi₂ : InnerOk order g right none right nd₂ ks₂ c₂ cs₂)
include ht hnd₁ hi₁ hnd₂ hi₂

/-- The children of the two are those they had, in two new parts. -/
lemma Adopts.of_nodes {xs : List Slot} (hcs : xs++ys = c₁ :: cs₁++c₂ :: cs₂)
    (hnew₁ : h'.kids left = xs) (hnew₂ : k < g.hi right → h'.kids right = ys)
    (hnil : ¬k < g.hi right → ys = []) (hmoved : ∀ c ∈ moved,c ∈ c₁ :: cs₁++c₂ :: cs₂)
    (hmoved₁ : ∀ c ∈ xs,c ∈ moved ∧ owner = left ∨ c ∉ moved ∧ c ∈ c₁ :: cs₁)
    (hmoved₂ : ∀ c ∈ ys,c ∈ moved ∧ owner = right ∨ c ∉ moved ∧ c ∈ c₂ :: cs₂) :
    Adopts g h left right k moved h' := by
  have hlevel := hnb.level_eq hs
  have hkids₁ := hi₁.kids_eq hnd₁
  have hkids₂ := hi₂.kids_eq hnd₂
  have hkid : ∀ x ∈ xs++ys,x ∈ g.live ∧ g.level x+1 = g.level left := by
    intro x hx
    rw [hcs] at hx
    rcases List.mem_append.mp hx with hx | hx
    · exact hi₁.kid x hx
    · exact hlevel ▸ hi₂.kid x hx
  refine ⟨fun c hc => ?_,fun _ a ha halive x hx => ?_,fun _ x hx => ?_⟩
  · rw [hkids₁,hkids₂]
    exact ⟨hpos,List.mem_append.mp (hmoved c hc)⟩
  · rcases List.mem_pair.mp ha with rfl | rfl
    · rw [hnew₁] at hx
      exact ht.parent_of_kid hs hnb (hkid x (List.mem_append_left ys hx)) halive.1 hpos
        (hkids₁ ▸ hmoved₁ x hx)
    · rw [hnew₂ (halive.2 rfl)] at hx
      exact ht.parent_of_kid hs hnb (hkid x (List.mem_append_right xs hx)) halive.1
        (hlevel ▸ hpos) (hkids₂ ▸ hmoved₂ x hx)
  · rw [hkids₁,hkids₂,← List.mem_append,← hcs] at hx
    rcases List.mem_append.mp hx with hx | hx
    · exact ⟨left,by simp,Labels.moveBorder_live_of_ne (hnb.left_live hs) (hnb.left_ne_right hs),
        hnew₁ ▸ hx⟩
    · have hk : k < g.hi right := by
        by_contra hcon
        rw [hnil hcon] at hx
        simp at hx
      exact ⟨right,by simp,⟨hnb.right_live hs,fun _ => hk⟩,hnew₂ hk ▸ hx⟩

/-- Two internal nodes whose children are divided anew. -/
lemma Rearranges.of_nodes (hcs : a₁ :: as₁++ys = c₁ :: cs₁++c₂ :: cs₂) (hlo : g.lo left < k)
    (hr₁ : Refilled order (cut order-1) as ((a₁ :: as₁).map .node) nd₁ ndLeft)
    (hkeys₁ : as.map UInt64.toNat = as₁.map g.lo)
    (htiles₁ : Tiles g.lo g.hi (g.lo left) k (a₁ :: as₁))
    (hr₂ : k < g.hi right → ∃ a₂ as₂ bs,ys = a₂ :: as₂ ∧
      Refilled order (cut order-1) bs ((a₂ :: as₂).map .node) nd₂ ndRight ∧
      bs.map UInt64.toNat = as₂.map g.lo ∧ Tiles g.lo g.hi k (g.hi right) (a₂ :: as₂))
    (hnil : ¬k < g.hi right → ys = [] ∧ short' = some p)
    (hmoved : ∀ c ∈ moved,c ∈ c₁ :: cs₁++c₂ :: cs₂)
    (hmoved₁ : ∀ c ∈ a₁ :: as₁,c ∈ moved ∧ owner = left ∨ c ∉ moved ∧ c ∈ c₁ :: cs₁)
    (hmoved₂ : ∀ c ∈ ys,c ∈ moved ∧ owner = right ∨ c ∉ moved ∧ c ∈ c₂ :: cs₂)
    (hup : Rebordered order d g root p left right k short' h h') :
    Rearranges order d g root pending h p left right k short' owner moved h' := by
  have hlr := hnb.left_ne_right hs
  have hkid : ∀ x ∈ a₁ :: as₁++ys,x ∈ g.live ∧ g.level x+1 = g.level left := by
    intro x hx
    rw [hcs] at hx
    rcases List.mem_append.mp hx with hx | hx
    · exact hi₁.kid x hx
    · exact hnb.level_eq hs ▸ hi₂.kid x hx
  have hnew₁ : h'.kids left = a₁ :: as₁ := kids_of_row ht.node_left hr₁.row (by
    have := congrArg List.length hkeys₁
    simpa using this.symm)
  have hnew₂ : k < g.hi right → h'.kids right = ys := by
    intro hk
    obtain ⟨a₂,as₂,bs,rfl,hr₂,hkeys₂,-⟩ := hr₂ hk
    refine kids_of_row ht.node_right hr₂.row ?_
    have := congrArg List.length hkeys₂
    simpa using this.symm
  refine .of_parts hs hnb ht hnd₁ hnd₂ hlo (.of_part hs hnb hpos (.inl rfl) hi₁ hr₁
    (fun x hx => hkid x (List.mem_append_left ys hx)) hkeys₁ ?_) (fun hk => ?_)
    (.of_nodes hs hnb hpos ht hnd₁ hi₁ hnd₂ hi₂ hcs hnew₁ hnew₂ (fun hk => (hnil hk).1) hmoved
      hmoved₁ hmoved₂) hup fun hk => (hnil hk).2
  · rwa [Labels.moveBorder_lo_of_ne hlr,Labels.moveBorder_hi_left]
  · obtain ⟨a₂,as₂,bs,rfl,hr₂,hkeys₂,htiles₂⟩ := hr₂ hk
    refine .of_part hs hnb hpos (.inr rfl) hi₂ hr₂
      (fun x hx => hkid x (List.mem_append_right _ hx)) hkeys₂ ?_
    rwa [Labels.moveBorder_lo_right,Labels.moveBorder_hi_of_ne hlr.symm]

end InnerNodes

end ElasticTranslations.Benchmarks.BTree
