import ElasticTranslations.Benchmarks.BTreeNeighbors

/-! Two neighbors become one: the left one takes in all of the right one, which leaves the tree
with the key between the two. -/
namespace ElasticTranslations.Benchmarks.BTree
open Structures
variable {order : ℕ} {d : Directory} {g : Labels} {root n left right p : Slot}
  {short : Option Slot} {pending : Set Slot} {h h₁ : Heap} {i : ℕ} {kPrime : UInt64} {ndp : Node}
  {ks : List UInt64} {c : Slot} {cs : List Slot}

/-- A node adopts all children that it has. -/
lemma Trio.reparentAll {live : Set Slot} {h' : Heap} {nd₁ nd₂ nd₃ : Node} {xs : List Slot}
    (ht : Trio h live left right p left nd₁ nd₂ nd₃ [] h') (hok : nodeLayout.Ok h.nodes live)
    (hrow : Row order ks (xs.map .node) nd₁) (hlen : nd₁.numKeys+1 = xs.length)
    (hother : ∀ x ∈ xs,x ∈ live \ {left,right,p}) :
    ∃ h'',forUp (reparent left) (nd₁.numKeys+1) 0 h' = some h'' ∧
      Trio h live left right p left nd₁ nd₂ nd₃ xs h'' := by
  obtain ⟨h'',hloop,ht'⟩ := forUp_rule (reparent left) (n := nd₁.numKeys+1) (i := 0)
    (I := fun j h' => Trio h live left right p left nd₁ nd₂ nd₃ (xs.take j) h') ht (by
      intro j h' _ hj ht
      have hj : j < xs.length := by omega
      have hptr : nd₁.pointers[j]? = some (.node xs[j]) := by
        rw [hrow.pointers_get (by simpa using hj),List.getElem?_map,List.getElem?_eq_getElem hj,
          Option.map_some]
      obtain ⟨h'',hadopt,ht'⟩ := ht.adopt hok (hother _ (List.getElem_mem hj))
      rw [List.take_succ_eq_append_getElem hj]
      exact ⟨h'',by simpa [reparent,ht.node_left,hptr] using hadopt,ht'⟩)
  rw [Nat.zero_add,List.take_of_length_le hlen.ge] at ht'
  exact ⟨h'',hloop,ht'⟩

/-- The entry of the right one leaves the parent. -/
lemma Neighbors.removeEntry_row (hnb : Neighbors g h p left right i) (hndp : h.node p = some ndp)
    (hinner : InnerOk order g p none p ndp ks c cs) (hkey : ks[i]? = some kPrime) :
    ∃ nd',ndp.removeEntry order kPrime (.node right) = some nd' ∧
      Rewritten order (ks.eraseIdx i) (((c :: cs).eraseIdx (i+1)).map .node) ndp nd' := by
  have hat := hnb.right_at
  rw [hinner.kids_eq hndp] at hat
  obtain ⟨nd',hnd',hr,-⟩ := Node.removeEntry_row hinner.row
    (by simp [hinner.isLeaf,hinner.length_eq]) (hinner.sorted.imp fun hlt => UInt64.ne_of_lt hlt)
    (hinner.tiles.nodup.map fun a b hab => Ptr.node.inj hab) hkey
    (j := i+1) (p := .node right) (by rw [List.getElem?_map,hat,Option.map_some])
  rw [List.eraseIdx_map] at hr
  exact ⟨nd',hnd',hr⟩

namespace Shrinking
variable (hs : Shrinking order d g root (some n) pending h)
include hs

/-- One of two neighbors does not lack a key. -/
lemma some_le (hnb : Neighbors g h p left right i) {least x y : ℕ}
    (hx : left ≠ root → least ≤ x+if some n = some left then 1 else 0)
    (hy : right ≠ root → least ≤ y+if some n = some right then 1 else 0) : least ≤ x+y := by
  have hx := hx (hnb.left_ne_root hs)
  have hy := hy (hnb.right_ne_root hs)
  by_cases hnl : n = left
  · subst hnl
    rw [if_neg fun heq => hnb.left_ne_right hs (Option.some.inj heq)] at hy
    omega
  · rw [if_neg fun heq => hnl (Option.some.inj heq)] at hx
    omega

variable (horder : 3 ≤ order) (hnb : Neighbors g h p left right i) (hndp : h.node p = some ndp)
  (hinner : InnerOk order g p none p ndp ks c cs) (hfill : p ≠ root → cut order-1 ≤ ks.length)
  (hkey : ks[i]? = some kPrime)
include horder hnb hndp hinner hfill hkey

lemma absorb_leaf (hzero : g.level left = 0)
    (hfit : ∀ nd₁ nd₂,h.node left = some nd₁ → h.node right = some nd₂ →
      nd₁.numKeys+nd₂.numKeys < order) :
    ∃ h₁ h₂ nd₂,absorb order h right left kPrime = some h₁ ∧ h₁.node right = some nd₂ ∧
      nd₂.parent = some p ∧
      h₁.update p (Node.removeEntry order kPrime (.node right)) = some h₂ ∧
      h₂.records = h.records ∧
      Rearranges order d g root pending h p left right (g.hi right) (some p) left [] h₂ := by
  have hborder := hnb.border hs
  have hlevel := hnb.left_level hs
  have hlevel' := hnb.right_level hs
  obtain ⟨nd₁,ks₁,hnd₁,hl₁,hfill₁⟩ := hs.leaf (hnb.left_live hs) hzero
  obtain ⟨nd₂,ks₂,hnd₂,hl₂,hfill₂⟩ := hs.leaf (hnb.right_live hs) (by omega)
  have hfit := hfit nd₁ nd₂ hnd₁ hnd₂
  rw [hl₁.row.numKeys_eq,hl₂.row.numKeys_eq] at hfit
  obtain ⟨ndLeft,habsorb,hr,hlink⟩ := Node.absorbLeaf_row hl₁.row (by simp)
    hl₂.row (by simp) (by omega) (by omega)
  obtain ⟨nd₃,hremove,hr₃⟩ := hnb.removeEntry_row hndp hinner hkey
  have h0 := Trio.start hs hnb left hnd₁ hnd₂ hndp
  have h1 := h0.setLeft ndLeft
  have h2 := h1.setUp nd₃
  refine ⟨_,_,nd₂,?_,h1.node_right,?_,Heap.update_eq h1.node_up hremove,h2.records_eq,?_⟩
  · simp [absorb,hnd₂,hl₂.isLeaf,Heap.update_eq hnd₁ habsorb]
  · rw [← parent_of_node hnd₂,hnb.right_parent hs]
  · rw [← List.map_append] at hr
    refine .of_leaves hs hnb hzero h2 hnd₁ hl₁ hnd₂ hl₂ (List.append_nil (ks₁++ks₂))
      (fun x hx => ?_) (by simp) (by omega) le_rfl ⟨hr,?_⟩ ?_
      (fun hcon => absurd hcon (lt_irrefl _))
      (.of_eraseIdx hs hnb hndp hinner hfill hr₃ h2.node_up) fun _ => rfl
    · rcases List.mem_append.mp hx with hx | hx
      · have := ((hl₁.mem_iff x).mp hx).2.2
        omega
      · exact ((hl₂.mem_iff x).mp hx).2.2
    · rw [List.length_append]
      exact hs.some_le hnb hfill₁ hfill₂
    · rw [if_neg (lt_irrefl _),hlink]

omit horder in
lemma absorb_node (hpos : 0 < g.level left) (hkPrime : kPrime.toNat = g.lo right)
    (hfit : ∀ nd₁ nd₂,h.node left = some nd₁ → h.node right = some nd₂ →
      nd₁.numKeys+nd₂.numKeys < order-1) :
    ∃ h₁ h₂ nd₂ moved,absorb order h right left kPrime = some h₁ ∧ h₁.node right = some nd₂ ∧
      nd₂.parent = some p ∧
      h₁.update p (Node.removeEntry order kPrime (.node right)) = some h₂ ∧
      h₂.records = h.records ∧
      Rearranges order d g root pending h p left right (g.hi right) (some p) left moved h₂ := by
  have hborder := hnb.border hs
  have hlevel := hnb.level_eq hs
  obtain ⟨nd₁,ks₁,c₁,cs₁,hnd₁,hi₁,-,hfill₁⟩ := hs.inner (hnb.left_live hs) hpos
  obtain ⟨nd₂,ks₂,c₂,cs₂,hnd₂,hi₂,-,hfill₂⟩ := hs.inner (hnb.right_live hs) (by omega)
  have hfit := hfit nd₁ nd₂ hnd₁ hnd₂
  rw [hi₁.row.numKeys_eq,hi₂.row.numKeys_eq] at hfit
  obtain ⟨ndLeft,habsorb,hr⟩ := Node.absorbNode_row hi₁.row (by simp [hi₁.length_eq]) hi₂.row
    (by simp [hi₂.length_eq]) (by omega) kPrime
  rw [← List.map_append] at hr
  obtain ⟨nd₃,hremove,hr₃⟩ := hnb.removeEntry_row hndp hinner hkey
  have h0 := Trio.start hs hnb left hnd₁ hnd₂ hndp
  have h1 := h0.setLeft ndLeft
  obtain ⟨nd₀,hnd₀⟩ : ∃ nd₀ : Node,some { nd₂ with numKeys := 0 } = some nd₀ := ⟨_,rfl⟩
  have h2 := h1.setRight nd₀
  -- all children of the left one now, those it had before too
  obtain ⟨h₃,hloop,h3⟩ := h2.reparentAll hs.ok hr.row
    (by simp [hr.row.numKeys_eq,hi₁.length_eq,hi₂.length_eq]) fun x hx => by
      rcases List.mem_append.mp hx with hx | hx
      · exact hnb.other_of_kid hs (hi₁.kid x hx).1 (hi₁.kid x hx).2
      · exact hnb.other_of_kid hs (hi₂.kid x hx).1 (hlevel ▸ (hi₂.kid x hx).2)
  have h4 := h3.setUp nd₃
  refine ⟨h₃,_,nd₀,c₁ :: cs₁++c₂ :: cs₂,?_,h3.node_right,?_,
    Heap.update_eq h3.node_up hremove,h4.records_eq,?_⟩
  · simp [absorb,hnd₂,hi₂.isLeaf,Heap.update_eq hnd₁ habsorb,
      Heap.update_eq (f := fun nd => some { nd with numKeys := 0 }) h1.node_right hnd₀,
      h2.node_left,hloop]
  · rw [← Option.some.inj hnd₀,← hnb.right_parent hs,parent_of_node hnd₂]
  · have htiles : Tiles g.lo g.hi (g.lo left) (g.hi right) (c₁ :: (cs₁++c₂ :: cs₂)) :=
      tiles_append.mpr ⟨g.hi left,hi₁.tiles,hborder.1 ▸ hi₂.tiles⟩
    have hkeys : (ks₁++kPrime :: ks₂).map UInt64.toNat = (cs₁++c₂ :: cs₂).map g.lo := by
      rw [List.map_append,List.map_cons,List.map_append,List.map_cons,hi₁.keys_eq,hi₂.keys_eq,
        hkPrime,hi₂.tiles.1]
    refine .of_nodes hs hnb hpos h4 hnd₁ hi₁ hnd₂ hi₂ (List.append_nil _) (by omega) ⟨hr,?_⟩ hkeys
      htiles (fun hcon => absurd hcon (lt_irrefl _)) (fun _ => ⟨rfl,rfl⟩) (fun x hx => hx)
      (fun x hx => .inl ⟨hx,rfl⟩) (by simp) (.of_eraseIdx hs hnb hndp hinner hfill hr₃ h4.node_up)
    have := hs.some_le hnb hfill₁ hfill₂
    rw [List.length_append,List.length_cons]
    omega

end Shrinking

end ElasticTranslations.Benchmarks.BTree
