import ElasticTranslations.Benchmarks.BTreeLookup

/-! A split of a node of the B+ tree: the old node keeps the lower part of its keys, and a new one
with the upper part hangs beside it. -/
namespace ElasticTranslations.Benchmarks.BTree
open Structures
variable {order : ℕ} {d d' : Directory} {g g' : Labels} {root root' : Slot}
  {hang hang' : Option (Slot × Slot)} {h h' : Heap} {a b c n : Slot} {nd nd' : Node}
  {s : Set Slot} {moved : List Slot}

namespace Moves

lemma sameRow (hm : Moves h s n moved h') (ha : a ∈ s) (hnd : h.node a = some nd) :
    ∃ nd',h'.node a = some nd' ∧ SameRow nd nd' := by
  have hnode := hm a ha
  rw [hnd] at hnode
  split_ifs at hnode
  · exact ⟨_,hnode,.withParent n nd⟩
  · exact ⟨_,hnode,.refl nd⟩

lemma kids_eq (hm : Moves h s n moved h') (ha : a ∈ s) (hnd : h.node a = some nd) :
    h'.kids a = h.kids a := by
  obtain ⟨nd',hnd',hrow⟩ := hm.sameRow ha hnd
  simp only [Heap.kids,hnd,hnd',hrow.pointers_eq,hrow.numKeys_eq]

lemma parent_of_mem (hm : Moves h s n moved h') (ha : a ∈ s) (hnd : h.node a = some nd)
    (hmem : a ∈ moved) : h'.parent a = some n := by
  have hnode := hm a ha
  rw [if_pos hmem,hnd] at hnode
  exact parent_of_node hnode

lemma parent_of_not_mem (hm : Moves h s n moved h') (ha : a ∈ s) (hmem : a ∉ moved) :
    h'.parent a = h.parent a := by
  rw [Heap.parent,hm a ha,if_neg hmem,Heap.parent]

end Moves

namespace Heap

lemma moves_setNode (h : Heap) (s : Set Slot) (n : Slot) (nd : Node) :
    Moves h (s \ {n}) n [] (h.setNode n nd) := by
  intro a ha
  rw [if_neg (by simp),h.node_setNode_of_ne ha.2]

lemma kids_setNode_of_ne (h : Heap) (ha : a ≠ n) (nd : Node) :
    (h.setNode n nd).kids a = h.kids a := by
  rw [kids,h.node_setNode_of_ne ha,kids]

/-- A write that keeps the parent of the node keeps all of them. -/
lemma parent_setNode (hnd : h.node n = some nd) (hparent : nd'.parent = nd.parent) (a : Slot) :
    (h.setNode n nd').parent a = h.parent a := by
  by_cases ha : a = n
  · subst ha
    rw [parent_of_node (h.node_setNode_self a nd'),parent_of_node hnd,hparent]
  · rw [parent,h.node_setNode_of_ne ha,parent]

end Heap

lemma Shape.parent_root_ne (hs : Shape order d g root hang h) (a : Slot) :
    h.parent root ≠ some a := by
  rw [hs.root_parent]
  exact fun hcon => by cases hcon

/-- A node outside the split, in the labels after it. -/
lemma Shape.rest (hs : Shape order d g root hang h) (hm : Moves h s n moved h') (ha : a ∈ g.live)
    (has : a ∈ s) (hg : g.Grows g') (hhi : g'.hi a = g.hi a)
    (hsmall : MayBeSmall root hang a → MayBeSmall root' hang' a)
    (hslot : 0 < g.level a → ∀ c ∈ h.kids a,g'.slotHi hang' c = g.slotHi hang c)
    (hd : g.level a = 0 → ∀ k : UInt64,g.lo a ≤ k.toNat → k.toNat < g.hi a →
      (k ∈ d'.keys ↔ k ∈ d.keys) ∧ (k ∈ d.keys → d'.record k = d.record k)) :
    ∃ nd',h'.node a = some nd' ∧ NodeOk order d' g' root' hang' a nd' := by
  obtain ⟨nd,hnd,hn⟩ := hs.node a ha
  obtain ⟨nd',hnd',hrow⟩ := hm.sameRow has hnd
  exact ⟨nd',hnd',hn.congr hrow hg ha hhi hsmall hslot hnd hd⟩

namespace Labels

/-- The labels after a split of `old` at a key. -/
def split (g : Labels) (old new : Slot) (k : ℕ) : Labels where
  live := Insert.insert new g.live
  level a := if a = new then g.level old else g.level a
  lo a := if a = new then k else g.lo a
  hi a := if a = old then k else if a = new then g.hi old else g.hi a

variable {old new : Slot} {k : ℕ}

lemma split_grows (hnew : new ∉ g.live) : g.Grows (g.split old new k) where
  live _ ha := Set.mem_insert_of_mem new ha
  level_eq _ ha := if_neg (ne_of_mem_of_not_mem ha hnew)
  lo_eq _ ha := if_neg (ne_of_mem_of_not_mem ha hnew)

@[simp] lemma split_level_new (g : Labels) :
    (g.split old new k).level new = g.level old := if_pos rfl

@[simp] lemma split_lo_new (g : Labels) : (g.split old new k).lo new = k := if_pos rfl

@[simp] lemma split_hi_old (g : Labels) : (g.split old new k).hi old = k := if_pos rfl

lemma split_hi_new (hne : new ≠ old) : (g.split old new k).hi new = g.hi old := by
  simp [split,hne]

lemma split_hi_of_ne (hnew : a ≠ new) (hold : a ≠ old) : (g.split old new k).hi a = g.hi a := by
  simp [split,hnew,hold]

/-- The places of the nodes in their parents are as before. -/
lemma split_slotHi (hne : new ≠ old) (ha : a ≠ new) :
    (g.split old new k).slotHi (some (old,new)) a = g.hi a := by
  by_cases hao : a = old
  · subst hao
    rw [slotHi_left,split_hi_new hne]
  · rw [slotHi_of_ne _ _ hao,split_hi_of_ne ha hao]

end Labels

/-- What a split has to provide: its halves, and where the children of the old node are now. -/
structure Splits (order : ℕ) (d d' : Directory) (g : Labels) (root : Slot)
    (hang : Option (Slot × Slot)) (h : Heap) (old new : Slot) (k : ℕ) (nd₁ nd₂ : Node)
    (moved : List Slot) (h' : Heap) : Prop where
  halves : Halves h g.live old new nd₁ nd₂ moved h'
  live : old ∈ g.live
  lo_lt : g.lo old < k
  lt_hi : k < g.hi old
  slot_eq : ∀ a ∈ g.live,h.parent a ≠ some old → g.slotHi hang a = g.hi a
  parent₁ : nd₁.parent = h.parent old
  parent₂ : nd₂.parent = h.parent old
  node₁ : NodeOk order d' (g.split old new k) root (some (old,new)) old nd₁
  node₂ : NodeOk order d' (g.split old new k) root (some (old,new)) new nd₂
  agree : ∀ a ∈ g.live,a ≠ old → g.level a = 0 → ∀ k : UInt64,g.lo a ≤ k.toNat → k.toNat < g.hi a →
    (k ∈ d'.keys ↔ k ∈ d.keys) ∧ (k ∈ d.keys → d'.record k = d.record k)
  moved_parent : ∀ c ∈ moved,h.parent c = some old
  kids₁ : 0 < g.level old → ∀ c ∈ h'.kids old,
    c ∈ g.live ∧ c ≠ old ∧ c ∉ moved ∧ h.parent c = some old
  kids₂ : 0 < g.level old → ∀ c ∈ h'.kids new,c ∈ g.live ∧ c ≠ old ∧ c ∈ moved
  kept : ∀ c,0 < g.level old ∧ c ∈ h.kids old ∨ (∃ left,hang = some (left,c)) →
    0 < g.level old ∧ (c ∈ h'.kids old ∨ c ∈ h'.kids new)

namespace Splits
variable {old new : Slot} {k : ℕ} {nd₁ nd₂ : Node} (hs : Shape order d g root hang h)
  (hp : Splits order d d' g root hang h old new k nd₁ nd₂ moved h')

section Heap
include hp

lemma new_ne : new ≠ old := (ne_of_mem_of_not_mem hp.live hp.halves.fresh).symm

lemma ne_new (ha : a ∈ g.live) : a ≠ new := ne_of_mem_of_not_mem ha hp.halves.fresh

lemma grows : g.Grows (g.split old new k) := Labels.split_grows hp.halves.fresh

lemma parent_old : h'.parent old = h.parent old :=
  (parent_of_node hp.halves.left).trans hp.parent₁

lemma parent_new : h'.parent new = h.parent old :=
  (parent_of_node hp.halves.right).trans hp.parent₂

/-- The children of another node are not the old node's. -/
lemma parent_eq (ha : a ∈ g.live) (hne : h.parent a ≠ some old) : h'.parent a = h.parent a := by
  by_cases hao : a = old
  · rw [hao,hp.parent_old]
  · exact hp.halves.moves.parent_of_not_mem ⟨ha,hao⟩ fun hm => hne (hp.moved_parent a hm)

end Heap

section Fields
include hs hp

lemma kids_eq (ha : a ∈ g.live) (hao : a ≠ old) : h'.kids a = h.kids a := by
  obtain ⟨nd,hnd,-⟩ := hs.node a ha
  exact hp.halves.moves.kids_eq ⟨ha,hao⟩ hnd

lemma level_le (ha : a ∈ (g.split old new k).live) :
    (g.split old new k).level a ≤ (g.split old new k).level root := by
  rw [hp.grows.level_eq root hs.root_live]
  rcases Set.mem_insert_iff.mp ha with rfl | ha
  · rw [Labels.split_level_new]
    exact hs.level_le old hp.live
  · rw [hp.grows.level_eq a ha]
    exact hs.level_le a ha

/-- A node other than the halves. -/
lemma node_of_ne (ha : a ∈ g.live) (hao : a ≠ old) :
    ∃ nd,h'.node a = some nd ∧
      NodeOk order d' (g.split old new k) root (some (old,new)) a nd := by
  refine hs.rest hp.halves.moves ha ⟨ha,hao⟩ hp.grows
    (Labels.split_hi_of_ne (hp.ne_new ha) hao) ?_ ?_ (hp.agree a ha hao)
  · rintro ⟨rfl,-⟩
    exact ⟨rfl,fun right hcon => hao (Prod.mk.inj (Option.some.inj hcon)).1.symm⟩
  · intro hlevel c hc
    have hclive := (hs.kid ha hlevel hc).1
    rw [Labels.split_slotHi hp.new_ne (hp.ne_new hclive),hp.slot_eq c hclive]
    rw [hs.down a ha hlevel c hc]
    exact fun hcon => hao (Option.some.inj hcon)

lemma down (ha : a ∈ (g.split old new k).live) (hlevel : 0 < (g.split old new k).level a)
    (hc : c ∈ h'.kids a) : h'.parent c = some a := by
  rcases Set.mem_insert_iff.mp ha with rfl | ha
  · rw [Labels.split_level_new] at hlevel
    obtain ⟨hclive,hcne,hcm⟩ := hp.kids₂ hlevel c hc
    obtain ⟨nd,hnd⟩ := Heap.exists_node hs.ok hclive
    exact hp.halves.moves.parent_of_mem ⟨hclive,hcne⟩ hnd hcm
  · rw [hp.grows.level_eq a ha] at hlevel
    by_cases hao : a = old
    · subst hao
      obtain ⟨hclive,hcne,hcm,hcp⟩ := hp.kids₁ hlevel c hc
      rw [hp.halves.moves.parent_of_not_mem ⟨hclive,hcne⟩ hcm,hcp]
    · rw [hp.kids_eq hs ha hao] at hc
      have hcp := hs.down a ha hlevel c hc
      rw [hp.parent_eq (hs.kid ha hlevel hc).1,hcp]
      rw [hcp]
      exact fun hcon => hao (Option.some.inj hcon)

/-- What was under the old node is under one of its halves. -/
lemma up (ha : a ∈ g.live) (hroot : a ≠ root) : ∃ p ∈ (g.split old new k).live,
    0 < (g.split old new k).level p ∧ a ∈ h'.kids p := by
  have hold : 0 < g.level old ∧ (a ∈ h'.kids old ∨ a ∈ h'.kids new) →
      ∃ p ∈ (g.split old new k).live,0 < (g.split old new k).level p ∧ a ∈ h'.kids p := by
    rintro ⟨hlevel,hk | hk⟩
    · exact ⟨old,hp.grows.live old hp.live,by rwa [hp.grows.level_eq old hp.live],hk⟩
    · exact ⟨new,Set.mem_insert new g.live,by rwa [Labels.split_level_new],hk⟩
  by_cases hhang : ∃ left,hang = some (left,a)
  · exact hold (hp.kept a (.inr hhang))
  · obtain ⟨p,hplive,hplevel,hap⟩ := hs.up a ha hroot fun left hcon => hhang ⟨left,hcon⟩
    by_cases hpo : p = old
    · subst hpo
      exact hold (hp.kept a (.inl ⟨hplevel,hap⟩))
    · exact ⟨p,hp.grows.live p hplive,by rwa [hp.grows.level_eq p hplive],
        by rwa [hp.kids_eq hs hplive hpo]⟩

lemma hangs : Hangs (g.split old new k) root h' old new where
  left_live := hp.grows.live old hp.live
  right_live := Set.mem_insert new g.live
  level_eq := by rw [Labels.split_level_new,hp.grows.level_eq old hp.live]
  lo_eq := by rw [Labels.split_lo_new,Labels.split_hi_old]
  left_lt := by
    rw [hp.grows.lo_eq old hp.live,Labels.split_hi_old]
    exact hp.lo_lt
  right_lt := by
    rw [Labels.split_lo_new,Labels.split_hi_new hp.new_ne]
    exact hp.lt_hi
  parent_eq := by rw [hp.parent_old,hp.parent_new]
  ne_root := (hp.ne_new hs.root_live).symm

/-- After a split the tree has its shape, with the new half hanging beside the old one. -/
lemma shape : Shape order d' (g.split old new k) root (some (old,new)) h' where
  ok := hp.halves.ok
  root_live := hp.grows.live root hs.root_live
  root_lo := by rw [hp.grows.lo_eq root hs.root_live,hs.root_lo]
  root_hi := by
    rw [Labels.split_slotHi hp.new_ne (hp.ne_new hs.root_live),
      ← hp.slot_eq root hs.root_live (hs.parent_root_ne old),hs.root_hi]
  root_parent := by rw [hp.parent_eq hs.root_live (hs.parent_root_ne old),hs.root_parent]
  level_le _ ha := hp.level_le hs ha
  node a ha := by
    rcases Set.mem_insert_iff.mp ha with rfl | ha
    · exact ⟨nd₂,hp.halves.right,hp.node₂⟩
    · by_cases hao : a = old
      · rw [hao]
        exact ⟨nd₁,hp.halves.left,hp.node₁⟩
      · exact hp.node_of_ne hs ha hao
  down _ ha hlevel _ hc := hp.down hs ha hlevel hc
  up a ha hroot hnothang := by
    rcases Set.mem_insert_iff.mp ha with rfl | ha
    · exact absurd rfl (hnothang old)
    · exact hp.up hs ha hroot
  hangs left right heq := by
    obtain ⟨rfl,rfl⟩ : old = left ∧ new = right := by simpa using heq
    exact hp.hangs hs

end Fields

end Splits

end ElasticTranslations.Benchmarks.BTree
