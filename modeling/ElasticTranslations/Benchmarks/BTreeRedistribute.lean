import ElasticTranslations.Benchmarks.BTreeNeighbors

/-! A node that lacks a key gets an entry of its neighbor: the last one of the left neighbor or
the first one of the right neighbor. -/
namespace ElasticTranslations.Benchmarks.BTree
open Structures
variable {order : ℕ} {d : Directory} {g : Labels} {root left right p : Slot} {pending : Set Slot}
  {h : Heap} {i j : ℕ} {kPrime : UInt64} {ndp : Node} {ks : List UInt64} {c : Slot}
  {cs : List Slot}

/-- A node can spare an entry, if the two have more than enough together. -/
lemma spare_leaf {x y : ℕ} (horder : 3 ≤ order) (hshort : y < cut (order-1))
    (hboth : order ≤ x+y) : cut (order-1)+1 ≤ x ∧ 2 ≤ x := by
  have := two_mul_cut_le (order-1)
  have := cut_pos (n := order-1) (by omega)
  omega

lemma spare_node {x y : ℕ} (horder : 3 ≤ order) (hshort : y < cut order-1)
    (hboth : order-1 ≤ x+y) : cut order-1+1 ≤ x := by
  have := two_mul_cut_le order
  omega

lemma exists_concat {α : Type} {xs : List α} (hpos : 0 < xs.length) : ∃ ys y,xs = ys++[y] := by
  rcases List.eq_nil_or_concat xs with rfl | ⟨ys,y,rfl⟩
  · simp at hpos
  · exact ⟨ys,y,List.concat_eq_append⟩

section Runs
variable {live : Set Slot} {h' : Heap} {nd₁ nd₂ : Node} {ks₁ ks₂ : List UInt64}
  {ps₁ ps₂ ps : List Ptr} {k : UInt64} {q : Ptr} {b : Slot}

/-- What the neighbor does with its counter at the end. -/
lemma update_ppred {n : ℕ} (hnd : h.node left = some nd₁) (hn : nd₁.numKeys = n+1) :
    h.update left (fun nb => nb.numKeys.ppred.bind fun numKeys => some { nb with numKeys }) =
      some (h.setNode left { nd₁ with numKeys := n }) :=
  Heap.update_eq hnd (by rw [Nat.ppred_eq_some.mpr hn.symm]; rfl)

variable (kPrime)

/-- The last entry of a leaf comes to the front of the next one. -/
lemma redistributeNodes_left_leaf (h0 : Trio h live left right p right nd₁ nd₂ ndp [] h)
    (hrow₁ : Row order (ks₁++[k]) (ps₁++[q]) nd₁) (hlen₁ : ps₁.length = ks₁.length)
    (hrow₂ : Row order ks₂ ps₂ nd₂) (hlen₂ : ps₂.length = ks₂.length) (hleaf : nd₂.isLeaf = true)
    (hroom : ks₂.length < order-1) (hparent : nd₂.parent = some p) (hrow : Row order ks ps ndp)
    (hi : i < ks.length) :
    ∃ h' ndLeft ndRight ndUp,redistributeNodes h right left (some j) i kPrime = some h' ∧
      Trio h live left right p right ndLeft ndRight ndUp [] h' ∧
      Rewritten order ks₁ ps₁ nd₁ ndLeft ∧ Rewritten order (k :: ks₂) (q :: ps₂) nd₂ ndRight ∧
      Rewritten order (ks.set i k) ps ndp ndUp ∧
      (ks₁.length < order-1 → ndLeft.pointers[order-1]? = nd₁.pointers[order-1]?) ∧
      ndRight.pointers[order-1]? = nd₂.pointers[order-1]? := by
  obtain ⟨m₁,m₂,m₃,hmake,hptr,hkey,hr₂,⟨hmleaf,hmparent⟩,hlink₂⟩ :=
    Node.pushFront_row hrow₂ (by simp [hleaf,hlen₂]) hroom k q
  obtain ⟨l₁,hback,hr₁,hnum₁,hlink₁⟩ := Node.popBack_row hrow₁ .null
  obtain ⟨ndUp,hset,hr₃⟩ := Node.setKey_row hrow hi k
  have hlast := Node.keys_last hrow₁
  have hplast := Node.pointers_last hrow₁
  have hnum : nd₁.numKeys = ks₁.length+1 := by rw [hrow₁.numKeys_eq,List.length_append]; rfl
  rw [hlen₁] at hback hplast hlink₁
  have h1 := h0.setRight m₁
  have h2 := h1.setRight m₂
  have h3 := h2.setLeft l₁
  have h4 := h3.setRight m₃
  have h5 := h4.setUp ndUp
  have h6 := h5.setRight { m₃ with numKeys := m₃.numKeys+1 }
  have h7 := h6.setLeft { l₁ with numKeys := ks₁.length }
  refine ⟨_,_,_,_,?_,h7,hr₁,hr₂,hr₃,hlink₁,hlink₂ hleaf⟩
  simp [redistributeNodes,borrowFromLeft,Heap.update_eq h0.node_right hmake,h1.node_right,
    hmparent.trans hparent,h1.node_left,hnum,hlast,hmleaf,hleaf,hplast,
    Heap.update_eq h1.node_right hptr,Heap.update_eq h2.node_left hback,
    Heap.update_eq h3.node_right hkey,Heap.update_eq h4.node_up hset,
    Heap.update_eq (f := fun nd => some { nd with numKeys := nd.numKeys+1 }) h5.node_right rfl,
    update_ppred h6.node_left (hnum₁.trans hnum)]

/-- The last child of an internal node comes to the front of the next one. -/
lemma redistributeNodes_left_node (h0 : Trio h live left right p right nd₁ nd₂ ndp [] h)
    (hok : nodeLayout.Ok h.nodes live) (hb : b ∈ live \ {left,right,p})
    (hrow₁ : Row order (ks₁++[k]) (ps₁++[.node b]) nd₁) (hlen₁ : ps₁.length = ks₁.length+1)
    (hrow₂ : Row order ks₂ ps₂ nd₂) (hlen₂ : ps₂.length = ks₂.length+1)
    (hleaf : nd₂.isLeaf = false) (hroom : ks₂.length < order-1) (hparent : nd₂.parent = some p)
    (hrow : Row order ks ps ndp) (hi : i < ks.length) :
    ∃ h' ndLeft ndRight ndUp,redistributeNodes h right left (some j) i kPrime = some h' ∧
      Trio h live left right p right ndLeft ndRight ndUp [b] h' ∧
      Rewritten order ks₁ ps₁ nd₁ ndLeft ∧
      Rewritten order (kPrime :: ks₂) (.node b :: ps₂) nd₂ ndRight ∧
      Rewritten order (ks.set i k) ps ndp ndUp := by
  obtain ⟨m₁,m₂,m₃,hmake,hptr,hkey,hr₂,⟨hmleaf,hmparent⟩,-⟩ :=
    Node.pushFront_row hrow₂ (by simp [hleaf,hlen₂]) hroom kPrime (.node b)
  obtain ⟨l₁,hback,hr₁,hnum₁,-⟩ := Node.popBack_row hrow₁ .null
  obtain ⟨ndUp,hset,hr₃⟩ := Node.setKey_row hrow hi k
  have hlast := Node.keys_last hrow₁
  have hplast := Node.pointers_last hrow₁
  have hnum : nd₁.numKeys = ks₁.length+1 := by rw [hrow₁.numKeys_eq,List.length_append]; rfl
  rw [hlen₁] at hback hplast
  have h1 := h0.setRight m₁
  have h2 := h1.setRight m₂
  obtain ⟨h₃,hadopt,h3⟩ := h2.adopt hok hb
  have h4 := h3.setLeft l₁
  have h5 := h4.setRight m₃
  have h6 := h5.setUp ndUp
  have h7 := h6.setRight { m₃ with numKeys := m₃.numKeys+1 }
  have h8 := h7.setLeft { l₁ with numKeys := ks₁.length }
  refine ⟨_,_,_,_,?_,h8,hr₁,hr₂,hr₃⟩
  simp [redistributeNodes,borrowFromLeft,Heap.update_eq h0.node_right hmake,h1.node_right,
    hmparent.trans hparent,h1.node_left,hnum,hlast,hmleaf,hleaf,hplast,adopt,hadopt,
    Heap.update_eq h1.node_right hptr,Heap.update_eq h3.node_left hback,
    Heap.update_eq h4.node_right hkey,Heap.update_eq h5.node_up hset,
    Heap.update_eq (f := fun nd => some { nd with numKeys := nd.numKeys+1 }) h6.node_right rfl,
    update_ppred h7.node_left (hnum₁.trans hnum)]

/-- The first entry of a leaf comes to the end of the one before. -/
lemma redistributeNodes_right_leaf {k' : UInt64}
    (h0 : Trio h live left right p left nd₁ nd₂ ndp [] h)
    (hrow₁ : Row order ks₁ ps₁ nd₁) (hlen₁ : ps₁.length = ks₁.length) (hleaf₁ : nd₁.isLeaf = true)
    (hroom : ks₁.length < order-1) (hparent : nd₁.parent = some p)
    (hrow₂ : Row order (k :: k' :: ks₂) (q :: ps₂) nd₂) (hlen₂ : ps₂.length = ks₂.length+1)
    (hleaf₂ : nd₂.isLeaf = true) (hrow : Row order ks ps ndp) (hi : i < ks.length) :
    ∃ h' ndLeft ndRight ndUp,redistributeNodes h left right none i kPrime = some h' ∧
      Trio h live left right p left ndLeft ndRight ndUp [] h' ∧
      Rewritten order (ks₁++[k]) (ps₁++[q]) nd₁ ndLeft ∧
      Rewritten order (k' :: ks₂) ps₂ nd₂ ndRight ∧ Rewritten order (ks.set i k') ps ndp ndUp ∧
      ndLeft.pointers[order-1]? = nd₁.pointers[order-1]? ∧
      ndRight.pointers[order-1]? = nd₂.pointers[order-1]? := by
  obtain ⟨m₁,m₂,hkey,hptr,hr₁,hlink₁⟩ := Node.pushBack_row hrow₁ hroom (by omega) k q
  obtain ⟨r₁,hfront,hr₂,hnum₂,hlink₂⟩ := Node.popFront_row hrow₂ (by simp [hleaf₂,hlen₂])
  obtain ⟨ndUp,hset,hr₃⟩ := Node.setKey_row hrow hi k'
  have hfirst : nd₂.keys[0]? = some k := by rw [hrow₂.keys_get (by simp)]; rfl
  have hsecond : nd₂.keys[1]? = some k' := by rw [hrow₂.keys_get (by simp)]; rfl
  have hpfirst : nd₂.pointers[0]? = some q := by
    rw [hrow₂.pointers_get (by simp)]
    rfl
  rw [hlen₁] at hptr hlink₁
  rw [hleaf₂] at hfront
  have h1 := h0.setLeft m₁
  have h2 := h1.setLeft m₂
  have h3 := h2.setUp ndUp
  have h4 := h3.setRight r₁
  have h5 := h4.setLeft { m₂ with numKeys := m₂.numKeys+1 }
  have h6 := h5.setRight { r₁ with numKeys := (k' :: ks₂).length }
  refine ⟨_,_,_,_,?_,h6,hr₁,hr₂,hr₃,hlink₁ hroom,hlink₂ hleaf₂⟩
  simp [redistributeNodes,borrowFromRight,h0.node_left,hparent,h0.node_right,hfirst,hpfirst,hleaf₁,
    hrow₁.numKeys_eq,Heap.update_eq h0.node_left hkey,Heap.update_eq h1.node_left hptr,
    hsecond,Heap.update_eq h2.node_up hset,Heap.update_eq h3.node_right hfront,
    Heap.update_eq (f := fun nd => some { nd with numKeys := nd.numKeys+1 }) h4.node_left rfl,
    update_ppred h5.node_right (hnum₂.trans hrow₂.numKeys_eq)]

/-- The first child of an internal node comes to the end of the one before. -/
lemma redistributeNodes_right_node (h0 : Trio h live left right p left nd₁ nd₂ ndp [] h)
    (hok : nodeLayout.Ok h.nodes live) (hb : b ∈ live \ {left,right,p})
    (hrow₁ : Row order ks₁ ps₁ nd₁) (hlen₁ : ps₁.length = ks₁.length+1)
    (hleaf₁ : nd₁.isLeaf = false) (hroom : ks₁.length < order-1) (hparent : nd₁.parent = some p)
    (hrow₂ : Row order (k :: ks₂) (.node b :: ps₂) nd₂) (hlen₂ : ps₂.length = ks₂.length+1)
    (hleaf₂ : nd₂.isLeaf = false) (hrow : Row order ks ps ndp) (hi : i < ks.length) :
    ∃ h' ndLeft ndRight ndUp,redistributeNodes h left right none i kPrime = some h' ∧
      Trio h live left right p left ndLeft ndRight ndUp [b] h' ∧
      Rewritten order (ks₁++[kPrime]) (ps₁++[.node b]) nd₁ ndLeft ∧
      Rewritten order ks₂ ps₂ nd₂ ndRight ∧ Rewritten order (ks.set i k) ps ndp ndUp := by
  obtain ⟨m₁,m₂,hkey,hptr,hr₁,-⟩ := Node.pushBack_row hrow₁ hroom (by omega) kPrime (.node b)
  obtain ⟨r₁,hfront,hr₂,hnum₂,-⟩ := Node.popFront_row hrow₂ (by simp [hleaf₂,hlen₂])
  obtain ⟨ndUp,hset,hr₃⟩ := Node.setKey_row hrow hi k
  have hfirst : nd₂.keys[0]? = some k := by rw [hrow₂.keys_get (by simp)]; rfl
  have hpfirst : nd₂.pointers[0]? = some (.node b) := by
    rw [hrow₂.pointers_get (by simp)]
    rfl
  rw [hlen₁] at hptr
  rw [hleaf₂] at hfront
  have h1 := h0.setLeft m₁
  have h2 := h1.setLeft m₂
  obtain ⟨h₃,hadopt,h3⟩ := h2.adopt hok hb
  have h4 := h3.setUp ndUp
  have h5 := h4.setRight r₁
  have h6 := h5.setLeft { m₂ with numKeys := m₂.numKeys+1 }
  have h7 := h6.setRight { r₁ with numKeys := ks₂.length }
  refine ⟨_,_,_,_,?_,h7,hr₁,hr₂,hr₃⟩
  simp [redistributeNodes,borrowFromRight,h0.node_left,hparent,h0.node_right,hfirst,hpfirst,hleaf₁,
    hrow₁.numKeys_eq,Heap.update_eq h0.node_left hkey,Heap.update_eq h1.node_left hptr,
    adopt,hadopt,Heap.update_eq h3.node_up hset,Heap.update_eq h4.node_right hfront,
    Heap.update_eq (f := fun nd => some { nd with numKeys := nd.numKeys+1 }) h5.node_left rfl,
    update_ppred h6.node_right (hnum₂.trans hrow₂.numKeys_eq)]

end Runs

section Kids
variable {short : Option Slot} {nd₁ nd₂ : Node} {ks₁ ks₂ : List UInt64} {k : UInt64}
  {c₁ c₂ b : Slot} {cs₁ cs₂ : List Slot} (hs : Shrinking order d g root short pending h)
  (hnb : Neighbors g h p left right i)
include hs hnb

/-- The last child of the left one begins with its last key. -/
lemma Neighbors.last_kid (hi₁ : InnerOk order g left none left nd₁ (ks₁++[k]) c₁ (cs₁++[b]))
    (hi₂ : InnerOk order g right none right nd₂ ks₂ c₂ cs₂) :
    ks₁.map UInt64.toNat = cs₁.map g.lo ∧ Tiles g.lo g.hi (g.lo left) k.toNat (c₁ :: cs₁) ∧
      Tiles g.lo g.hi k.toNat (g.hi right) (b :: c₂ :: cs₂) ∧ b ∉ c₁ :: cs₁ ∧ b ∉ c₂ :: cs₂ := by
  have hkeys := hi₁.keys_eq
  rw [List.map_append,List.map_append] at hkeys
  obtain ⟨hkeys₁,hkb⟩ := List.append_inj' hkeys rfl
  have hkb : k.toNat = g.lo b := by simpa using hkb
  have htiles : Tiles g.lo g.hi (g.lo left) (g.hi right) (c₁ :: cs₁++b :: c₂ :: cs₂) := by
    rw [show c₁ :: cs₁++b :: c₂ :: cs₂ = c₁ :: (cs₁++[b])++c₂ :: cs₂ by simp]
    exact tiles_append.mpr ⟨g.hi left,hi₁.tiles,(hnb.border hs).1 ▸ hi₂.tiles⟩
  have hnodup := List.nodup_append.mp htiles.nodup
  obtain ⟨m,htiles₁,htiles₂⟩ := tiles_append.mp htiles
  obtain rfl : m = k.toNat := htiles₂.1.symm.trans hkb.symm
  exact ⟨hkeys₁,htiles₁,htiles₂,fun hmem => hnodup.2.2 b hmem b (by simp) rfl,
    (List.nodup_cons.mp hnodup.2.1).1⟩

/-- The second child of the right one begins with its first key. -/
lemma Neighbors.first_kid (hi₁ : InnerOk order g left none left nd₁ ks₁ c₁ cs₁)
    (hi₂ : InnerOk order g right none right nd₂ (k :: ks₂) c₂ (b :: cs₂)) :
    ks₂.map UInt64.toNat = cs₂.map g.lo ∧
      Tiles g.lo g.hi (g.lo left) k.toNat (c₁ :: (cs₁++[c₂])) ∧
      Tiles g.lo g.hi k.toNat (g.hi right) (b :: cs₂) ∧ c₂ ∉ c₁ :: cs₁ ∧ c₂ ∉ b :: cs₂ := by
  obtain ⟨hkb,hkeys₂⟩ : k.toNat = g.lo b ∧ ks₂.map UInt64.toNat = cs₂.map g.lo :=
    List.cons_eq_cons.mp hi₂.keys_eq
  have htiles : Tiles g.lo g.hi (g.lo left) (g.hi right) (c₁ :: cs₁++c₂ :: b :: cs₂) :=
    tiles_append.mpr ⟨g.hi left,hi₁.tiles,(hnb.border hs).1 ▸ hi₂.tiles⟩
  have hnodup := List.nodup_append.mp htiles.nodup
  rw [show c₁ :: cs₁++c₂ :: b :: cs₂ = c₁ :: (cs₁++[c₂])++b :: cs₂ by simp] at htiles
  obtain ⟨m,htiles₁,htiles₂⟩ := tiles_append.mp htiles
  obtain rfl : m = k.toNat := htiles₂.1.symm.trans hkb.symm
  exact ⟨hkeys₂,htiles₁,htiles₂,fun hmem => hnodup.2.2 c₂ hmem c₂ (by simp) rfl,
    (List.nodup_cons.mp hnodup.2.1).1⟩

end Kids

section FromLeft
variable (hs : Shrinking order d g root (some right) pending h) (horder : 3 ≤ order)
  (hnb : Neighbors g h p left right i) (hndp : h.node p = some ndp)
  (hinner : InnerOk order g p none p ndp ks c cs) (hfill : p ≠ root → cut order-1 ≤ ks.length)
  (hi : i < ks.length)
include hs horder hnb hndp hinner hfill hi

lemma Shrinking.borrowFromLeft_leaf (hzero : g.level left = 0)
    (hshort : ∀ nd,h.node right = some nd → nd.numKeys < cut (order-1))
    (hboth : ∀ nd₁ nd₂,h.node left = some nd₁ → h.node right = some nd₂ →
      order ≤ nd₁.numKeys+nd₂.numKeys) :
    ∃ k : UInt64,∃ h',redistributeNodes h right left (some j) i kPrime = some h' ∧
      h'.records = h.records ∧ k.toNat < g.hi right ∧
      Rearranges order d g root pending h p left right k.toNat none right [] h' := by
  have hborder := hnb.border hs
  have hlevel := hnb.level_eq hs
  obtain ⟨nd₁,ks₁,hnd₁,hl₁,-⟩ := hs.leaf (hnb.left_live hs) hzero
  obtain ⟨nd₂,ks₂,hnd₂,hl₂,hfill₂⟩ := hs.leaf (hnb.right_live hs) (by omega)
  have hshort := hshort nd₂ hnd₂
  have hboth := hboth nd₁ nd₂ hnd₁ hnd₂
  have hfill₂ := hfill₂ (hnb.right_ne_root hs)
  rw [if_pos rfl] at hfill₂
  rw [hl₂.row.numKeys_eq] at hshort hboth
  rw [hl₁.row.numKeys_eq] at hboth
  obtain ⟨hspare,htwo⟩ := spare_leaf horder hshort hboth
  have hle := hl₁.row.length_keys_le
  obtain ⟨as,k,rfl⟩ := exists_concat (show 0 < ks₁.length by omega)
  rw [List.length_append,List.length_singleton] at hspare htwo hle
  have hrow₁ := hl₁.row
  rw [List.map_append,List.map_singleton] at hrow₁
  obtain ⟨h',ndLeft,ndRight,ndUp,hstep,ht,hr₁,hr₂,hr₃,hlink₁,hlink₂⟩ :=
    redistributeNodes_left_leaf (j := j) kPrime (.start hs hnb right hnd₁ hnd₂ hndp)
      hrow₁ (by simp) hl₂.row (by simp) hl₂.isLeaf (by omega)
      ((parent_of_node hnd₂).symm.trans (hnb.right_parent hs)) hinner.row hi
  have hless : ∀ x ∈ as,x.toNat < k.toNat := fun x hx =>
    UInt64.lt_iff_toNat_lt.mp ((List.pairwise_append.mp hl₁.sorted).2.2 x hx k (by simp))
  have hkmem := (hl₁.mem_iff k).mp (by simp)
  obtain ⟨x,hx⟩ := List.exists_mem_of_length_pos (show 0 < as.length by omega)
  have hxlo := ((hl₁.mem_iff x).mp (by simp [hx])).2.1
  have hxk := hless x hx
  refine ⟨k,h',hstep,ht.records_eq,by omega,?_⟩
  refine .of_leaves hs hnb hzero ht hnd₁ hl₁ hnd₂ hl₂ (List.append_cons as k ks₂) hless
    (fun x hx => ?_) (by omega) (by omega) ⟨hr₁,by omega⟩ ?_
    (fun _ => ⟨⟨hr₂,by simpa using hfill₂⟩,hlink₂⟩)
    (.of_set hs hnb hndp hinner hfill (by omega) (by omega) hr₃ ht.node_up)
    fun hcon => absurd (show k.toNat < g.hi right by omega) hcon
  · rcases List.mem_cons.mp hx with rfl | hx
    · exact le_rfl
    · have := ((hl₂.mem_iff x).mp hx).2.1
      omega
  · rw [if_pos (by omega)]
    exact hlink₁ (by omega)

lemma Shrinking.borrowFromLeft_node (hpos : 0 < g.level left) (hkPrime : kPrime.toNat = g.lo right)
    (hshort : ∀ nd,h.node right = some nd → nd.numKeys < cut order-1)
    (hboth : ∀ nd₁ nd₂,h.node left = some nd₁ → h.node right = some nd₂ →
      order-1 ≤ nd₁.numKeys+nd₂.numKeys) :
    ∃ k : UInt64,∃ h' moved,redistributeNodes h right left (some j) i kPrime = some h' ∧
      h'.records = h.records ∧ k.toNat < g.hi right ∧
      Rearranges order d g root pending h p left right k.toNat none right moved h' := by
  have hlevel := hnb.level_eq hs
  obtain ⟨nd₁,ks₁,c₁,cs₁,hnd₁,hi₁,-,-⟩ := hs.inner (hnb.left_live hs) hpos
  obtain ⟨nd₂,ks₂,c₂,cs₂,hnd₂,hi₂,-,hfill₂⟩ := hs.inner (hnb.right_live hs) (by omega)
  have hshort := hshort nd₂ hnd₂
  have hboth := hboth nd₁ nd₂ hnd₁ hnd₂
  have hfill₂ := hfill₂ (hnb.right_ne_root hs)
  rw [if_pos rfl] at hfill₂
  rw [hi₂.row.numKeys_eq] at hshort hboth
  rw [hi₁.row.numKeys_eq] at hboth
  have hspare := spare_node horder hshort hboth
  have hlen := hi₁.length_eq
  have hle := hi₁.row.length_keys_le
  obtain ⟨as,k,rfl⟩ := exists_concat (show 0 < ks₁.length by omega)
  rw [List.length_append,List.length_singleton] at hspare hlen hle
  obtain ⟨bs,b,rfl⟩ := exists_concat (show 0 < cs₁.length by omega)
  rw [List.length_append,List.length_singleton] at hlen
  have hrow₁ := hi₁.row
  rw [show (c₁ :: (bs++[b])).map Ptr.node = (c₁ :: bs).map Ptr.node++[.node b] by simp] at hrow₁
  have hb := hi₁.kid b (by simp)
  obtain ⟨h',ndLeft,ndRight,ndUp,hstep,ht,hr₁,hr₂,hr₃⟩ :=
    redistributeNodes_left_node (j := j) kPrime (.start hs hnb right hnd₁ hnd₂ hndp)
      hs.ok (hnb.other_of_kid hs hb.1 hb.2) hrow₁ (by simpa using hlen) hi₂.row
      (by simp [hi₂.length_eq]) hi₂.isLeaf (by omega)
      ((parent_of_node hnd₂).symm.trans (hnb.right_parent hs)) hinner.row hi
  obtain ⟨hkeys₁,htiles₁,htiles₂,hbnot₁,hbnot₂⟩ := hnb.last_kid hs hi₁ hi₂
  have hlo := htiles₁.2.1.trans_le htiles₁.2.2.le
  have hhi : k.toNat < g.hi right := htiles₂.2.1.trans_le htiles₂.2.2.le
  refine ⟨k,h',[b],hstep,ht.records_eq,hhi,?_⟩
  refine .of_nodes hs hnb hpos ht hnd₁ hi₁ hnd₂ hi₂ (by simp) hlo ⟨hr₁,by omega⟩ hkeys₁ htiles₁
    (fun _ => ⟨b,c₂ :: cs₂,kPrime :: ks₂,rfl,⟨hr₂,by simpa using hfill₂⟩,?_,htiles₂⟩)
    (fun hcon => absurd hhi hcon) (by simp) (fun x hx => ?_) (fun x hx => ?_)
    (.of_set hs hnb hndp hinner hfill hlo hhi hr₃ ht.node_up)
  · rw [List.map_cons,List.map_cons,hkPrime,hi₂.tiles.1,hi₂.keys_eq]
  · refine .inr ⟨fun hm => hbnot₁ (List.mem_singleton.mp hm ▸ hx),?_⟩
    rw [← List.cons_append]
    exact List.mem_append_left _ hx
  · rcases List.mem_cons.mp hx with rfl | hx
    · exact .inl ⟨by simp,rfl⟩
    · exact .inr ⟨fun hm => hbnot₂ (List.mem_singleton.mp hm ▸ hx),hx⟩

end FromLeft

section FromRight
variable (hs : Shrinking order d g root (some left) pending h) (horder : 3 ≤ order)
  (hnb : Neighbors g h p left right i) (hndp : h.node p = some ndp)
  (hinner : InnerOk order g p none p ndp ks c cs) (hfill : p ≠ root → cut order-1 ≤ ks.length)
  (hi : i < ks.length)
include hs horder hnb hndp hinner hfill hi

lemma Shrinking.borrowFromRight_leaf (kPrime : UInt64) (hzero : g.level left = 0)
    (hshort : ∀ nd,h.node left = some nd → nd.numKeys < cut (order-1))
    (hboth : ∀ nd₁ nd₂,h.node left = some nd₁ → h.node right = some nd₂ →
      order ≤ nd₁.numKeys+nd₂.numKeys) :
    ∃ k : UInt64,∃ h',redistributeNodes h left right none i kPrime = some h' ∧
      h'.records = h.records ∧ k.toNat < g.hi right ∧
      Rearranges order d g root pending h p left right k.toNat none left [] h' := by
  have hborder := hnb.border hs
  have hlevel := hnb.level_eq hs
  obtain ⟨nd₁,ks₁,hnd₁,hl₁,hfill₁⟩ := hs.leaf (hnb.left_live hs) hzero
  obtain ⟨nd₂,ks₂,hnd₂,hl₂,-⟩ := hs.leaf (hnb.right_live hs) (by omega)
  have hshort := hshort nd₁ hnd₁
  have hboth := hboth nd₁ nd₂ hnd₁ hnd₂
  have hfill₁ := hfill₁ (hnb.left_ne_root hs)
  rw [if_pos rfl] at hfill₁
  rw [hl₁.row.numKeys_eq] at hshort hboth
  rw [hl₂.row.numKeys_eq,add_comm] at hboth
  obtain ⟨hspare,htwo⟩ := spare_leaf horder hshort hboth
  have hcut := two_mul_cut_le (order-1)
  obtain ⟨k,ks₂,rfl⟩ := List.exists_cons_of_length_pos (show 0 < ks₂.length by omega)
  rw [List.length_cons] at hspare htwo
  obtain ⟨k',bs,rfl⟩ := List.exists_cons_of_length_pos (show 0 < ks₂.length by omega)
  obtain ⟨h',ndLeft,ndRight,ndUp,hstep,ht,hr₁,hr₂,hr₃,hlink₁,hlink₂⟩ :=
    redistributeNodes_right_leaf kPrime (.start hs hnb left hnd₁ hnd₂ hndp) hl₁.row
      (by simp) hl₁.isLeaf (by omega) ((parent_of_node hnd₁).symm.trans (hnb.left_parent hs))
      hl₂.row (by simp) hl₂.isLeaf hinner.row hi
  have hsorted := List.pairwise_cons.mp hl₂.sorted
  have hsorted' := List.pairwise_cons.mp hsorted.2
  have hkk' := UInt64.lt_iff_toNat_lt.mp (hsorted.1 k' (by simp))
  have hk := (hl₂.mem_iff k).mp (by simp)
  have hk' := (hl₂.mem_iff k').mp (by simp)
  refine ⟨k',h',hstep,ht.records_eq,by omega,?_⟩
  refine .of_leaves hs hnb hzero ht hnd₁ hl₁ hnd₂ hl₂ (List.append_cons ks₁ k (k' :: bs)).symm
    (fun x hx => ?_) (fun x hx => ?_) (by omega) (by omega)
    ⟨by simpa using hr₁,by simpa using hfill₁⟩ ?_ (fun _ => ⟨⟨hr₂,by omega⟩,hlink₂⟩)
    (.of_set hs hnb hndp hinner hfill (by omega) (by omega) hr₃ ht.node_up)
    fun hcon => absurd (show k'.toNat < g.hi right by omega) hcon
  · rcases List.mem_append.mp hx with hx | hx
    · have := ((hl₁.mem_iff x).mp hx).2.2
      omega
    · rwa [List.mem_singleton.mp hx]
  · rcases List.mem_cons.mp hx with rfl | hx
    · exact le_rfl
    · exact (UInt64.lt_iff_toNat_lt.mp (hsorted'.1 x hx)).le
  · rw [if_pos (by omega),hlink₁]

lemma Shrinking.borrowFromRight_node (hpos : 0 < g.level left)
    (hkPrime : kPrime.toNat = g.lo right)
    (hshort : ∀ nd,h.node left = some nd → nd.numKeys < cut order-1)
    (hboth : ∀ nd₁ nd₂,h.node left = some nd₁ → h.node right = some nd₂ →
      order-1 ≤ nd₁.numKeys+nd₂.numKeys) :
    ∃ k : UInt64,∃ h' moved,redistributeNodes h left right none i kPrime = some h' ∧
      h'.records = h.records ∧ k.toNat < g.hi right ∧
      Rearranges order d g root pending h p left right k.toNat none left moved h' := by
  have hlevel := hnb.level_eq hs
  obtain ⟨nd₁,ks₁,c₁,cs₁,hnd₁,hi₁,-,hfill₁⟩ := hs.inner (hnb.left_live hs) hpos
  obtain ⟨nd₂,ks₂,c₂,cs₂,hnd₂,hi₂,-,-⟩ := hs.inner (hnb.right_live hs) (by omega)
  have hshort := hshort nd₁ hnd₁
  have hboth := hboth nd₁ nd₂ hnd₁ hnd₂
  have hfill₁ := hfill₁ (hnb.left_ne_root hs)
  rw [if_pos rfl] at hfill₁
  rw [hi₁.row.numKeys_eq] at hshort hboth
  rw [hi₂.row.numKeys_eq,add_comm] at hboth
  have hspare := spare_node horder hshort hboth
  have hcut := two_mul_cut_le order
  have hlen := hi₂.length_eq
  obtain ⟨k,bs,rfl⟩ := List.exists_cons_of_length_pos (show 0 < ks₂.length by omega)
  rw [List.length_cons] at hspare hlen
  obtain ⟨b,cs₂,rfl⟩ := List.exists_cons_of_length_pos (show 0 < cs₂.length by omega)
  have hc₂ := hi₂.kid c₂ (by simp)
  obtain ⟨h',ndLeft,ndRight,ndUp,hstep,ht,hr₁,hr₂,hr₃⟩ :=
    redistributeNodes_right_node kPrime (.start hs hnb left hnd₁ hnd₂ hndp) hs.ok
      (hnb.other_of_kid hs hc₂.1 (hlevel ▸ hc₂.2)) hi₁.row (by simp [hi₁.length_eq]) hi₁.isLeaf
      (by omega) ((parent_of_node hnd₁).symm.trans (hnb.left_parent hs)) hi₂.row
      (by simpa using hlen) hi₂.isLeaf hinner.row hi
  obtain ⟨hkeys₂,htiles₁,htiles₂,hcnot₁,hcnot₂⟩ := hnb.first_kid hs hi₁ hi₂
  have hlo := htiles₁.2.1.trans_le htiles₁.2.2.le
  have hhi : k.toNat < g.hi right := htiles₂.2.1.trans_le htiles₂.2.2.le
  refine ⟨k,h',[c₂],hstep,ht.records_eq,hhi,?_⟩
  refine .of_nodes hs hnb hpos ht hnd₁ hi₁ hnd₂ hi₂ (by simp) hlo
    ⟨by simpa using hr₁,by simpa using hfill₁⟩ ?_ htiles₁
    (fun _ => ⟨b,cs₂,bs,rfl,⟨hr₂,by omega⟩,hkeys₂,htiles₂⟩) (fun hcon => absurd hhi hcon) (by simp)
    (fun x hx => ?_) (fun x hx => ?_) (.of_set hs hnb hndp hinner hfill hlo hhi hr₃ ht.node_up)
  · rw [List.map_append,List.map_append,hi₁.keys_eq,List.map_singleton,List.map_singleton,hkPrime,
      hi₂.tiles.1]
  · rw [← List.cons_append] at hx
    rcases List.mem_append.mp hx with hx | hx
    · exact .inr ⟨fun hm => hcnot₁ (List.mem_singleton.mp hm ▸ hx),hx⟩
    · exact .inl ⟨hx,rfl⟩
  · exact .inr ⟨fun hm => hcnot₂ (List.mem_singleton.mp hm ▸ hx),List.mem_cons_of_mem c₂ hx⟩

end FromRight

end ElasticTranslations.Benchmarks.BTree
