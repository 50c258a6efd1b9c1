import ElasticTranslations.Benchmarks.BTreeSplits

/-! The new half of a split comes under a node of the level above: under the parent of the old
half, if it has room, under the parent or its own new half, if it has not, or under a new root. -/
namespace ElasticTranslations.Benchmarks.BTree
open Structures
variable {order : ℕ} {d : Directory} {g : Labels} {root left right p : Slot} {h : Heap}
  {nd : Node} {key : UInt64} {ks : List UInt64} {c : Slot} {cs : List Slot} {i : ℕ}

lemma Hangs.ne (hh : Hangs g root h left right) : right ≠ left := by
  rintro rfl
  have := hh.lo_eq
  have := hh.right_lt
  omega

/-- The row of a parent with the half that hangs beside one of its children. -/
structure Attached (g : Labels) (p right c : Slot) (cs : List Slot) (ks' : List UInt64)
    (cs' : List Slot) : Prop where
  keys_eq : ks'.map UInt64.toNat = cs'.map g.lo
  tiles : Tiles g.lo g.hi (g.lo p) (g.hi p) (c :: cs')
  mem_iff : ∀ b,b ∈ c :: cs' ↔ b = right ∨ b ∈ c :: cs

lemma InnerOk.attached (hi : InnerOk order g root (some (left,right)) p nd ks c cs)
    (hh : Hangs g root h left right) (hat : (c :: cs)[i]? = some left)
    (hkey : g.lo right = key.toNat) :
    Attached g p right c cs (ks.insertIdx i key) (cs.insertIdx i right) := by
  have hlt : i < (c :: cs).length := (List.getElem?_eq_some_iff.mp hat).1
  rw [List.length_cons] at hlt
  obtain ⟨hrow,hrow'⟩ := insertIdx_of_getElem? hat right
  rw [List.insertIdx_succ_cons] at hrow'
  refine ⟨?_,?_,?_⟩
  · rw [List.map_insertIdx,List.map_insertIdx,hi.keys_eq,hkey]
  · have hnodup := hi.tiles.nodup
    have htiles := hi.tiles
    rw [hrow] at hnodup htiles
    rw [hrow']
    refine htiles.split (fun _ _ => rfl) ?_ hh.left_lt hh.lo_eq hh.right_lt (by simp)
    intro a ha
    have hne : a ≠ left := by
      rintro rfl
      exact (List.nodup_cons.mp (List.perm_middle.nodup_iff.mp hnodup)).1 ha
    rw [Labels.slotHi_of_ne g right hne]
  · intro b
    rw [List.mem_cons,List.mem_insertIdx (by omega),List.mem_cons]
    tauto

/-- The half belongs under the parent as the other children do. -/
lemma InnerOk.attached_kid (hi : InnerOk order g root (some (left,right)) p nd ks c cs)
    (hh : Hangs g root h left right) (hat : (c :: cs)[i]? = some left) {ks' : List UInt64}
    {cs' : List Slot} (hatt : Attached g p right c cs ks' cs') {b : Slot} (hb : b ∈ c :: cs') :
    b ∈ g.live ∧ g.level b+1 = g.level p := by
  rcases (hatt.mem_iff b).mp hb with rfl | hb
  · have hleft := hi.kid left (List.mem_of_getElem? hat)
    exact ⟨hh.right_live,by rw [hh.level_eq,hleft.2]⟩
  · exact hi.kid b hb

/-- The labels with a new root above the old one. -/
def Labels.addRoot (g : Labels) (old new : Slot) : Labels where
  live := Insert.insert new g.live
  level a := if a = new then g.level old+1 else g.level a
  lo a := if a = new then 0 else g.lo a
  hi a := if a = new then 2^64 else g.hi a

lemma Labels.addRoot_grows {new : Slot} (hnew : new ∉ g.live) : g.Grows (g.addRoot root new) where
  live _ ha := Set.mem_insert_of_mem new ha
  level_eq _ ha := if_neg (ne_of_mem_of_not_mem ha hnew)
  lo_eq _ ha := if_neg (ne_of_mem_of_not_mem ha hnew)

@[simp] lemma Labels.addRoot_level_new {new : Slot} :
    (g.addRoot root new).level new = g.level root+1 := if_pos rfl

@[simp] lemma Labels.addRoot_lo_new {new : Slot} : (g.addRoot root new).lo new = 0 := if_pos rfl

@[simp] lemma Labels.addRoot_hi_new {new : Slot} : (g.addRoot root new).hi new = 2^64 := if_pos rfl

lemma Labels.addRoot_hi_of_ne {new a : Slot} (ha : a ≠ new) :
    (g.addRoot root new).hi a = g.hi a := if_neg ha

namespace Shape
variable (hs : Shape order d g root (some (left,right)) h)
include hs

lemma left_ne_root (hp : h.parent left = some p) : left ≠ root := by
  rintro rfl
  rw [hs.root_parent] at hp
  simp at hp

lemma left_eq_root (hp : h.parent left = none) : left = root := by
  have hh := hs.hangs left right rfl
  by_contra hne
  obtain ⟨q,hq,hlevel,hleft⟩ := hs.up left hh.left_live hne fun l hcon =>
    hh.ne (Prod.mk.inj (Option.some.inj hcon)).2
  have := hs.down q hq hlevel left hleft
  rw [hp] at this
  simp at this

/-- The parent of the old half has it among its children. -/
lemma exists_parent (hp : h.parent left = some p) :
    ∃ nd ks c cs i,p ∈ g.live ∧ 0 < g.level p ∧ h.node p = some nd ∧
      InnerOk order g root (some (left,right)) p nd ks c cs ∧ h.kids p = c :: cs ∧
      (c :: cs)[i]? = some left ∧ getLeftIndex h p left = some i := by
  have hh := hs.hangs left right rfl
  obtain ⟨q,hq,hlevel,hleft⟩ := hs.up left hh.left_live (hs.left_ne_root hp) fun l hcon =>
    hh.ne (Prod.mk.inj (Option.some.inj hcon)).2
  obtain rfl : p = q := Option.some.inj (hp.symm.trans (hs.down q hq hlevel left hleft))
  obtain ⟨nd,ks,c,cs,hnd,hinner,hkids⟩ := hs.inner hq hlevel
  rw [hkids] at hleft
  have hmem : Ptr.node left ∈ (c :: cs).map Ptr.node := List.mem_map_of_mem hleft
  have hscan := hinner.row.scan_pointers (fun x => x ≠ .node left) (n := nd.numKeys+1) (by
    rw [hinner.row.numKeys_eq]
    simp [hinner.length_eq])
  have hat := getElem?_takeWhile_ne hmem
  rw [List.getElem?_map,Option.map_eq_some_iff] at hat
  obtain ⟨b,hb,hbl⟩ := hat
  obtain rfl : b = left := by simpa using hbl
  refine ⟨nd,ks,c,cs,_,hq,hlevel,hnd,hinner,hkids,hb,?_⟩
  simp only [getLeftIndex,hnd,Option.bind_eq_bind,Option.bind_some]
  exact hscan

/-- Nothing but the old half has another place in its parent than the keys in its charge. -/
lemma slotHi_eq {a : Slot} (hp : h.parent left = some p) (ha : h.parent a ≠ some p) :
    g.slotHi (some (left,right)) a = g.hi a := by
  apply g.slotHi_of_ne
  rintro rfl
  exact ha hp

section Attach
variable {nd' : Node} {ks' : List UInt64} {cs' : List Slot} (hp : h.parent left = some p)
  (hplive : p ∈ g.live) (hlevel : 0 < g.level p) (hkids : h.kids p = c :: cs)
  (hatt : Attached g p right c cs ks' cs') (hinner : InnerOk order g root none p nd' ks' c cs')
include hp hlevel hinner

lemma attach_node {a : Slot} (ha : a ∈ g.live) :
    ∃ nd,(h.setNode p nd').node a = some nd ∧ NodeOk order d g root none a nd := by
  by_cases hap : a = p
  · rw [hap]
    exact ⟨nd',h.node_setNode_self p nd',.inner _ c _ hlevel hinner⟩
  · refine hs.rest (h.moves_setNode g.live p nd') ha ⟨ha,hap⟩ (.refl g) rfl
      (fun hsmall => ⟨hsmall.1,by simp⟩) (fun halevel c hc => ?_)
      fun _ _ _ _ => ⟨Iff.rfl,fun _ => rfl⟩
    rw [Labels.slotHi_none,hs.slotHi_eq hp]
    rw [hs.down a ha halevel c hc]
    exact fun hcon => hap (Option.some.inj hcon)

include hkids hatt

lemma attach_down {a b : Slot} (ha : a ∈ g.live) (halevel : 0 < g.level a)
    (hb : b ∈ (h.setNode p nd').kids a) : h.parent b = some a := by
  by_cases hap : a = p
  · subst hap
    rw [hinner.kids_eq (h.node_setNode_self a nd'),hatt.mem_iff] at hb
    rcases hb with rfl | hb
    · rw [(hs.hangs left b rfl).parent_eq,hp]
    · exact hs.down a ha halevel b (hkids ▸ hb)
  · rw [h.kids_setNode_of_ne hap] at hb
    exact hs.down a ha halevel b hb

include hplive

omit hp in
lemma attach_up {a : Slot} (ha : a ∈ g.live) (hroot : a ≠ root) :
    ∃ q ∈ g.live,0 < g.level q ∧ a ∈ (h.setNode p nd').kids q := by
  have hunder : a ∈ c :: cs' → ∃ q ∈ g.live,0 < g.level q ∧ a ∈ (h.setNode p nd').kids q :=
    fun hmem => ⟨p,hplive,hlevel,by rwa [hinner.kids_eq (h.node_setNode_self p nd')]⟩
  by_cases har : a = right
  · exact hunder ((hatt.mem_iff a).mpr (.inl har))
  · obtain ⟨q,hq,hqlevel,haq⟩ := hs.up a ha hroot fun l hcon =>
      har (Prod.mk.inj (Option.some.inj hcon)).2.symm
    by_cases hqp : q = p
    · subst hqp
      exact hunder ((hatt.mem_iff a).mpr (.inr (hkids ▸ haq)))
    · exact ⟨q,hq,hqlevel,by rwa [h.kids_setNode_of_ne hqp]⟩

/-- Once the new half is under the parent too, nothing hangs any more. -/
lemma attach (hnd : h.node p = some nd) (hparent : nd'.parent = nd.parent) :
    Shape order d g root none (h.setNode p nd') where
  ok := Heap.ok_setNode hs.ok hplive nd'
  root_live := hs.root_live
  root_lo := hs.root_lo
  root_hi := by
    rw [Labels.slotHi_none,← g.slotHi_of_ne right (hs.left_ne_root hp).symm,hs.root_hi]
  root_parent := by rw [Heap.parent_setNode hnd hparent,hs.root_parent]
  level_le := hs.level_le
  node _ ha := hs.attach_node hp hlevel hinner ha
  down a ha halevel b hb := by
    rw [Heap.parent_setNode hnd hparent]
    exact hs.attach_down hp hlevel hkids hatt hinner ha halevel hb
  up _ ha hroot _ := hs.attach_up hplive hlevel hkids hatt hinner ha hroot
  hangs l r heq := by simp at heq

end Attach

/-- A parent with room takes the new half under it. -/
lemma insertIntoNode (hp : h.parent left = some p) (hnd : h.node p = some nd)
    (hroom : nd.numKeys < order-1) (hkey : g.lo right = key.toNat) :
    ∃ i h',getLeftIndex h p left = some i ∧
      h.update p (Node.insertIntoNode i key right) = some h' ∧ h'.records = h.records ∧
      Shape order d g root none h' := by
  have hh := hs.hangs left right rfl
  obtain ⟨nd₀,ks,c,cs,i,hplive,hlevel,hnd₀,hinner,hkids,hat,hindex⟩ := hs.exists_parent hp
  obtain rfl : nd₀ = nd := Option.some.inj (hnd₀.symm.trans hnd)
  have hatt := hinner.attached hh hat hkey
  have hlt := (List.getElem?_eq_some_iff.mp hat).1
  rw [List.length_cons,hinner.length_eq] at hlt
  obtain ⟨nd',hnd',hrow,hisLeaf,hparent⟩ := Node.insertIntoNode_row hinner.row
    (by simp [hinner.length_eq]) (hinner.row.numKeys_eq ▸ hroom) (Nat.lt_succ_iff.mp hlt) key right
  rw [← List.map_insertIdx,List.insertIdx_succ_cons] at hrow
  have hinner' : InnerOk order g root none p nd' (ks.insertIdx i key) c (cs.insertIdx i right) := by
    refine ⟨hisLeaf.trans hinner.isLeaf,hrow,hatt.keys_eq,hatt.tiles,fun hsmall => ?_,
      fun b hb => hinner.attached_kid hh hat hatt hb⟩
    have := hinner.fill fun hcon => hsmall ⟨hcon.1,by simp⟩
    rw [List.length_insertIdx_of_le_length (Nat.lt_succ_iff.mp hlt)]
    omega
  exact ⟨i,_,hindex,Heap.update_eq hnd hnd',rfl,
    hs.attach hp hplive hlevel hkids hatt hinner' hnd hparent⟩

end Shape

/-- The root was split, and its halves are the children of a new node. -/
structure NewRoot (order : ℕ) (d : Directory) (g : Labels) (left right : Slot) (h : Heap)
    (key : UInt64) (new : Slot) (nd : Node) (h' : Heap) : Prop where
  shape : Shape order d g left (some (left,right)) h
  adds : Adds h g.live new nd [left,right] h'
  row : Row order [key] [.node left,.node right] nd
  isLeaf : nd.isLeaf = false
  parent_eq : nd.parent = none
  key_eq : g.lo right = key.toNat

namespace NewRoot
variable {new a b : Slot} {h' : Heap} (hr : NewRoot order d g left right h key new nd h')
include hr

lemma hangs : Hangs g left h left right := hr.shape.hangs left right rfl

lemma grows : g.Grows (g.addRoot left new) := Labels.addRoot_grows hr.adds.fresh

lemma ne_new (ha : a ∈ g.live) : a ≠ new := ne_of_mem_of_not_mem ha hr.adds.fresh

lemma half_live (hb : b ∈ [left,right]) : b ∈ g.live ∧ g.level b = g.level left := by
  rcases List.mem_pair.mp hb with rfl | rfl
  · exact ⟨hr.hangs.left_live,rfl⟩
  · exact ⟨hr.hangs.right_live,hr.hangs.level_eq⟩

lemma hi_right : g.hi right = 2^64 := by
  have := hr.shape.root_hi
  rwa [Labels.slotHi_left] at this

lemma tiles : Tiles (g.addRoot left new).lo ((g.addRoot left new).slotHi none)
    ((g.addRoot left new).lo new) ((g.addRoot left new).hi new) [left,right] := by
  have hh := hr.hangs
  refine ⟨?_,?_,?_,?_,?_⟩
  · rw [hr.grows.lo_eq left hh.left_live,hr.shape.root_lo,Labels.addRoot_lo_new]
  · rw [Labels.addRoot_lo_new,Labels.slotHi_none,
      Labels.addRoot_hi_of_ne (hr.ne_new hh.left_live),← hr.shape.root_lo]
    exact hh.left_lt
  · rw [hr.grows.lo_eq right hh.right_live,Labels.slotHi_none,
      Labels.addRoot_hi_of_ne (hr.ne_new hh.left_live),hh.lo_eq]
  · rw [Labels.slotHi_none,Labels.slotHi_none,Labels.addRoot_hi_of_ne (hr.ne_new hh.left_live),
      Labels.addRoot_hi_of_ne (hr.ne_new hh.right_live),← hh.lo_eq]
    exact hh.right_lt
  · rw [Tiles,Labels.slotHi_none,Labels.addRoot_hi_of_ne (hr.ne_new hh.right_live),hr.hi_right,
      Labels.addRoot_hi_new]

lemma inner : InnerOk order (g.addRoot left new) new none new nd [key] left [right] where
  isLeaf := hr.isLeaf
  row := hr.row
  keys_eq := by simp [hr.grows.lo_eq right hr.hangs.right_live,hr.key_eq]
  tiles := hr.tiles
  fill hcon := absurd ⟨rfl,by simp⟩ hcon
  kid b hb := by
    obtain ⟨hblive,hblevel⟩ := hr.half_live hb
    rw [Labels.addRoot_level_new,hr.grows.level_eq b hblive,hblevel]
    exact ⟨hr.grows.live b hblive,rfl⟩

lemma kids_new : h'.kids new = [left,right] := hr.inner.kids_eq hr.adds.node_eq

lemma kids_eq (ha : a ∈ g.live) : h'.kids a = h.kids a := by
  obtain ⟨nd,hnd,-⟩ := hr.shape.node a ha
  exact hr.adds.moves.kids_eq ha hnd

/-- The children of other nodes have parents already. -/
lemma kid_of_live (ha : a ∈ g.live) (hlevel : 0 < g.level a) (hc : c ∈ h.kids a) :
    c ∈ g.live ∧ c ∉ [left,right] := by
  have hdown := hr.shape.down a ha hlevel c hc
  refine ⟨(hr.shape.kid ha hlevel hc).1,fun hmem => ?_⟩
  have hnone : h.parent c = none := by
    rcases List.mem_pair.mp hmem with rfl | rfl
    · exact hr.shape.root_parent
    · rw [hr.hangs.parent_eq,hr.shape.root_parent]
  rw [hnone] at hdown
  cases hdown

lemma level_le (ha : a ∈ (g.addRoot left new).live) :
    (g.addRoot left new).level a ≤ (g.addRoot left new).level new := by
  rw [Labels.addRoot_level_new]
  rcases Set.mem_insert_iff.mp ha with rfl | ha
  · rw [Labels.addRoot_level_new]
  · rw [hr.grows.level_eq a ha]
    exact (hr.shape.level_le a ha).trans (Nat.le_succ _)

lemma node (ha : a ∈ (g.addRoot left new).live) :
    ∃ nd,h'.node a = some nd ∧ NodeOk order d (g.addRoot left new) new none a nd := by
  rcases Set.mem_insert_iff.mp ha with rfl | ha
  · exact ⟨nd,hr.adds.node_eq,.inner _ _ _ (by rw [Labels.addRoot_level_new]; omega) hr.inner⟩
  · refine hr.shape.rest hr.adds.moves ha ha hr.grows (Labels.addRoot_hi_of_ne (hr.ne_new ha)) ?_ ?_
      fun _ _ _ _ => ⟨Iff.rfl,fun _ => rfl⟩
    · rintro ⟨rfl,hcon⟩
      exact absurd rfl (hcon right)
    · intro hlevel c hc
      obtain ⟨hclive,hcnot⟩ := hr.kid_of_live ha hlevel hc
      rw [Labels.slotHi_none,Labels.addRoot_hi_of_ne (hr.ne_new hclive),
        g.slotHi_of_ne right fun hcl => hcnot (by simp [hcl])]

lemma down (ha : a ∈ (g.addRoot left new).live) (hlevel : 0 < (g.addRoot left new).level a)
    (hc : c ∈ h'.kids a) : h'.parent c = some a := by
  rcases Set.mem_insert_iff.mp ha with rfl | ha
  · rw [hr.kids_new] at hc
    have hclive := (hr.half_live hc).1
    obtain ⟨nd,hnd⟩ := Heap.exists_node hr.shape.ok hclive
    exact hr.adds.moves.parent_of_mem hclive hnd hc
  · rw [hr.grows.level_eq a ha] at hlevel
    rw [hr.kids_eq ha] at hc
    obtain ⟨hclive,hcnot⟩ := hr.kid_of_live ha hlevel hc
    rw [hr.adds.moves.parent_of_not_mem hclive hcnot,hr.shape.down a ha hlevel c hc]

lemma up (ha : a ∈ g.live) :
    ∃ q ∈ (g.addRoot left new).live,0 < (g.addRoot left new).level q ∧ a ∈ h'.kids q := by
  by_cases hmem : a ∈ [left,right]
  · exact ⟨new,Set.mem_insert new g.live,by rw [Labels.addRoot_level_new]; omega,
      by rwa [hr.kids_new]⟩
  · rw [List.mem_pair,not_or] at hmem
    obtain ⟨q,hq,hqlevel,haq⟩ := hr.shape.up a ha hmem.1 fun l hcon =>
      hmem.2 (Prod.mk.inj (Option.some.inj hcon)).2.symm
    exact ⟨q,hr.grows.live q hq,by rwa [hr.grows.level_eq q hq],by rwa [hr.kids_eq hq]⟩

lemma shape_addRoot : Shape order d (g.addRoot left new) new none h' where
  ok := hr.adds.ok
  root_live := Set.mem_insert new g.live
  root_lo := Labels.addRoot_lo_new
  root_hi := Labels.addRoot_hi_new
  root_parent := by rw [parent_of_node hr.adds.node_eq,hr.parent_eq]
  level_le _ ha := hr.level_le ha
  node _ ha := hr.node ha
  down _ ha hlevel _ hc := hr.down ha hlevel hc
  up _ ha hne _ := hr.up ((Set.mem_insert_iff.mp ha).resolve_left hne)
  hangs l r heq := by simp at heq

/-- The right half is the second child of the new root. -/
lemma branched : (g.addRoot left new).Branched new := by
  have hh := hr.hangs
  intro _
  refine ⟨right,hr.grows.live right hh.right_live,?_,?_⟩
  · rw [hr.grows.level_eq right hh.right_live,Labels.addRoot_level_new,hh.level_eq]
  · rw [hr.grows.lo_eq right hh.right_live]
    have := hh.lo_eq
    have := hh.left_lt
    omega

end NewRoot

/-- Two halves of the children in the row of a parent. -/
structure Halved (g : Labels) (p c b : Slot) (ks' : List UInt64) (cs' : List Slot) (m : ℕ)
    (kPrime : UInt64) : Prop where
  drop_eq : (c :: cs').drop (m+1) = b :: cs'.drop (m+1)
  parts_eq : c :: cs' = (c :: cs'.take m)++(b :: cs'.drop (m+1))
  keys₁ : (ks'.take m).map UInt64.toNat = (cs'.take m).map g.lo
  keys₂ : (ks'.drop (m+1)).map UInt64.toNat = (cs'.drop (m+1)).map g.lo
  tiles₁ : Tiles g.lo g.hi (g.lo p) kPrime.toNat (c :: cs'.take m)
  tiles₂ : Tiles g.lo g.hi kPrime.toNat (g.hi p) (b :: cs'.drop (m+1))

/-- The first child of the right half begins with the key that goes up. -/
lemma Attached.halved {ks' : List UInt64} {cs' : List Slot} (hatt : Attached g p right c cs ks' cs')
    {m : ℕ} {kPrime : UInt64} (hkPrime : ks'[m]? = some kPrime) (hm : m < cs'.length) :
    ∃ b,Halved g p c b ks' cs' m kPrime := by
  obtain ⟨b,hb⟩ : ∃ b,cs'[m]? = some b := ⟨_,List.getElem?_eq_getElem hm⟩
  have hblo : g.lo b = kPrime.toNat := by
    have := congrArg (·[m]?) hatt.keys_eq
    simp only [List.getElem?_map,hkPrime,hb,Option.map_some,Option.some.injEq] at this
    exact this.symm
  have hdrop : (c :: cs').drop (m+1) = b :: cs'.drop (m+1) := by
    obtain ⟨hlt,rfl⟩ := List.getElem?_eq_some_iff.mp hb
    rw [List.drop_succ_cons,List.drop_eq_getElem_cons hlt]
  have hparts : c :: cs' = (c :: cs'.take m)++(b :: cs'.drop (m+1)) := by
    rw [← hdrop,← List.take_succ_cons,List.take_append_drop]
  obtain ⟨l,htiles₁,htiles₂⟩ := tiles_append.mp (hparts ▸ hatt.tiles)
  obtain rfl : g.lo b = l := htiles₂.1
  rw [hblo] at htiles₁ htiles₂
  exact ⟨b,hdrop,hparts,by rw [List.map_take,hatt.keys_eq,← List.map_take],
    by rw [List.map_drop,hatt.keys_eq,← List.map_drop],htiles₁,htiles₂⟩

namespace Halved
variable {b : Slot} {ks' : List UInt64} {cs' : List Slot} {m : ℕ} {kPrime : UInt64}
  (hh : Halved g p c b ks' cs' m kPrime) {x : Slot}
include hh

lemma mem_left (hx : x ∈ c :: cs'.take m) : x ∈ c :: cs' := by
  rw [hh.parts_eq]
  exact List.mem_append_left _ hx

lemma mem_right (hx : x ∈ b :: cs'.drop (m+1)) : x ∈ c :: cs' := by
  rw [hh.parts_eq]
  exact List.mem_append_right _ hx

lemma disjoint (hnodup : (c :: cs').Nodup) (hx : x ∈ c :: cs'.take m) :
    x ∉ b :: cs'.drop (m+1) := by
  rw [hh.parts_eq,List.nodup_append] at hnodup
  exact fun hx' => hnodup.2.2 x hx x hx' rfl

end Halved

/-- A half of a parent, in the labels after its split. -/
lemma NodeOk.half {new a : Slot} {k lo hi : ℕ} (hplive : p ∈ g.live) (hlevel : 0 < g.level p)
    (hfresh : new ∉ g.live) (ha : (g.split p new k).level a = g.level p)
    (hlo : (g.split p new k).lo a = lo) (hhi : (g.split p new k).hi a = hi)
    (hisLeaf : nd.isLeaf = false) (hrow : Row order ks ((c :: cs).map .node) nd)
    (hkeys : ks.map UInt64.toNat = cs.map g.lo) (htiles : Tiles g.lo g.hi lo hi (c :: cs))
    (hfill : cut order-1 ≤ ks.length)
    (hkid : ∀ x ∈ c :: cs,x ∈ g.live ∧ g.level x+1 = g.level p) :
    NodeOk order d (g.split p new k) root (some (p,new)) a nd := by
  have hgrows : g.Grows (g.split p new k) := Labels.split_grows hfresh
  have hne : new ≠ p := (ne_of_mem_of_not_mem hplive hfresh).symm
  refine .inner ks c cs (by rwa [ha]) ⟨hisLeaf,hrow,?_,?_,fun _ => hfill,fun x hx => ?_⟩
  · rw [hkeys]
    exact List.map_congr_left fun x hx =>
      (hgrows.lo_eq x (hkid x (List.mem_cons_of_mem c hx)).1).symm
  · rw [hlo,hhi]
    exact htiles.congr (fun x hx => hgrows.lo_eq x (hkid x hx).1) fun x hx =>
      Labels.split_slotHi hne (ne_of_mem_of_not_mem (hkid x hx).1 hfresh)
  · rw [ha,hgrows.level_eq x (hkid x hx).1]
    exact ⟨hgrows.live x (hkid x hx).1,(hkid x hx).2⟩

namespace Shape
variable (hs : Shape order d g root (some (left,right)) h)
include hs

/-- The halves of the root come under a new one. -/
lemma insertIntoNewRoot (horder : 3 ≤ order) (hp : h.parent left = none)
    (hkey : g.lo right = key.toNat) :
    ∃ new h',insertIntoNewRoot order h left key right = some (new,h') ∧ h'.records = h.records ∧
      Shape order d (g.addRoot root new) new none h' ∧ (g.addRoot root new).Branched new := by
  have hh := hs.hangs left right rfl
  obtain rfl := hs.left_eq_root hp
  obtain ⟨new,nd,h',hnew,hadds,hrow,hisLeaf,hparent⟩ :=
    insertIntoNewRoot_adds horder hs.ok hh.left_live hh.right_live key
  have hr : NewRoot order d g left right h key new nd h' :=
    ⟨hs,hadds,hrow,hisLeaf,hparent,hkey⟩
  exact ⟨new,h',hnew,hadds.records_eq,hr.shape_addRoot,hr.branched⟩

/-- The children of a parent and the half that hangs beside one of them, over its own halves. -/
lemma splits {m : ℕ} {new : Slot} {kPrime : UInt64} {nd₁ nd₂ : Node} {h' : Heap}
    {ks' : List UInt64} {cs' : List Slot} (hp : h.parent left = some p) (hplive : p ∈ g.live)
    (hlevel : 0 < g.level p) (hkids : h.kids p = c :: cs) (hatt : Attached g p right c cs ks' cs')
    (hkid : ∀ b ∈ c :: cs',b ∈ g.live ∧ g.level b+1 = g.level p ∧ h.parent b = some p)
    (hm : cut order = m+1) (hmlt : m < order) (hkslen : ks'.length = order)
    (hcslen : cs'.length = order)
    (hhalves : Halves h g.live p new nd₁ nd₂ ((c :: cs').drop (m+1)) h')
    (hrow₁ : Row order (ks'.take m) (((c :: cs').take (m+1)).map .node) nd₁)
    (hrow₂ : Row order (ks'.drop (m+1)) (((c :: cs').drop (m+1)).map .node) nd₂)
    (hisLeaf₁ : nd₁.isLeaf = false) (hisLeaf₂ : nd₂.isLeaf = false)
    (hparent₁ : nd₁.parent = h.parent p) (hparent₂ : nd₂.parent = h.parent p)
    (hkPrime : ks'[m]? = some kPrime) :
    Splits order d d g root (some (left,right)) h p new kPrime.toNat nd₁ nd₂
      ((c :: cs').drop (m+1)) h' := by
  have hfresh := hhalves.fresh
  have hne : new ≠ p := (ne_of_mem_of_not_mem hplive hfresh).symm
  have hmin : m ≤ order-(m+1) := by
    rw [cut] at hm
    split_ifs at hm <;> omega
  obtain ⟨b,hhalf⟩ := hatt.halved hkPrime (by omega)
  rw [List.take_succ_cons] at hrow₁
  rw [hhalf.drop_eq] at hrow₂ hhalves ⊢
  have hkid_ne : ∀ x ∈ c :: cs',x ≠ p := by
    rintro x hx rfl
    have := (hkid x hx).2.1
    omega
  have hlevels : ∀ x ∈ c :: cs',x ∈ g.live ∧ g.level x+1 = g.level p := fun x hx =>
    ⟨(hkid x hx).1,(hkid x hx).2.1⟩
  have hkids₁ : h'.kids p = c :: cs'.take m :=
    kids_of_row hhalves.left hrow₁ (by simp [hkslen,hcslen])
  have hkids₂ : h'.kids new = b :: cs'.drop (m+1) :=
    kids_of_row hhalves.right hrow₂ (by simp [hkslen,hcslen])
  exact {
    halves := hhalves
    live := hplive
    lo_lt := hhalf.tiles₁.2.1.trans_le hhalf.tiles₁.2.2.le
    lt_hi := hhalf.tiles₂.2.1.trans_le hhalf.tiles₂.2.2.le
    slot_eq := fun a _ ha => hs.slotHi_eq hp ha
    parent₁ := hparent₁
    parent₂ := hparent₂
    node₁ := .half hplive hlevel hfresh ((Labels.split_grows hfresh).level_eq p hplive)
      ((Labels.split_grows hfresh).lo_eq p hplive) (Labels.split_hi_old g) hisLeaf₁ hrow₁
      hhalf.keys₁ hhalf.tiles₁ (by rw [List.length_take]; omega) fun x hx =>
        hlevels x (hhalf.mem_left hx)
    node₂ := .half hplive hlevel hfresh (Labels.split_level_new g) (Labels.split_lo_new g)
      (Labels.split_hi_new hne) hisLeaf₂ hrow₂ hhalf.keys₂ hhalf.tiles₂
      (by rw [List.length_drop]; omega) fun x hx => hlevels x (hhalf.mem_right hx)
    agree := fun _ _ _ _ _ _ _ => ⟨Iff.rfl,fun _ => rfl⟩
    moved_parent := fun x hx => (hkid x (hhalf.mem_right hx)).2.2
    kids₁ := fun _ x hx => by
      rw [hkids₁] at hx
      have hmem := hhalf.mem_left hx
      exact ⟨(hkid x hmem).1,hkid_ne x hmem,hhalf.disjoint hatt.tiles.nodup hx,(hkid x hmem).2.2⟩
    kids₂ := fun _ x hx => by
      rw [hkids₂] at hx
      have hmem := hhalf.mem_right hx
      exact ⟨(hkid x hmem).1,hkid_ne x hmem,hx⟩
    kept := fun x hx => by
      refine ⟨hlevel,?_⟩
      rw [hkids₁,hkids₂,← List.mem_append,← hhalf.parts_eq,hatt.mem_iff]
      rcases hx with ⟨-,hx⟩ | ⟨l,heq⟩
      · exact .inr (hkids ▸ hx)
      · exact .inl (Prod.mk.inj (Option.some.inj heq)).2.symm }

/-- A full parent is split, with the new half under one of its halves. -/
lemma splitNode (horder : 3 ≤ order) (hp : h.parent left = some p) (hnd : h.node p = some nd)
    (hfull : ¬nd.numKeys < order-1) (hkey : g.lo right = key.toNat) :
    ∃ i new kPrime h',getLeftIndex h p left = some i ∧
      splitNode order h p i key right = some (new,kPrime,h') ∧ new ∉ g.live ∧
      h'.records = h.records ∧
      Shape order d (g.split p new kPrime.toNat) root (some (p,new)) h' := by
  have hh := hs.hangs left right rfl
  obtain ⟨nd₀,ks,c,cs,i,hplive,hlevel,hnd₀,hinner,hkids,hat,hindex⟩ := hs.exists_parent hp
  obtain rfl : nd₀ = nd := Option.some.inj (hnd₀.symm.trans hnd)
  have hatt := hinner.attached hh hat hkey
  have hlt := (List.getElem?_eq_some_iff.mp hat).1
  rw [List.length_cons,hinner.length_eq] at hlt
  have hks : ks.length = order-1 := by
    have := hinner.row.length_keys_le
    rw [hinner.row.numKeys_eq] at hfull
    omega
  have hkid : ∀ b ∈ c :: cs.insertIdx i right,
      b ∈ g.live ∧ g.level b+1 = g.level p ∧ h.parent b = some p := by
    intro b hb
    obtain ⟨hblive,hblevel⟩ := hinner.attached_kid hh hat hatt hb
    refine ⟨hblive,hblevel,?_⟩
    rcases (hatt.mem_iff b).mp hb with rfl | hb
    · rw [hh.parent_eq,hp]
    · exact hs.down p hplive hlevel b (hkids ▸ hb)
  have hlive : ∀ b ∈ c :: cs.insertIdx i right,b ∈ g.live ∧ b ≠ p := by
    intro b hb
    refine ⟨(hkid b hb).1,?_⟩
    rintro rfl
    have := (hkid b hb).2.1
    omega
  obtain ⟨new,kPrime,nd₁,nd₂,h',hsplit,hhalves,⟨hrow₁,hisLeaf₁,hparent₁⟩,hrow₂,hisLeaf₂,
    hparent₂,hkPrime⟩ := splitNode_halves horder hs.ok hplive hnd hinner.row
      (by simp [hinner.length_eq]) hks (Nat.lt_succ_iff.mp hlt) key right rfl
      (List.insertIdx_succ_cons.symm) hlive
  obtain ⟨m,hm⟩ : ∃ m,cut order = m+1 := by
    have := cut_pos (n := order) (by omega)
    exact ⟨cut order-1,by omega⟩
  have hmlt : m < order := by
    have := cut_le (n := order)
    omega
  have hkslen : (ks.insertIdx i key).length = order := by
    rw [List.length_insertIdx_of_le_length (Nat.lt_succ_iff.mp hlt)]
    omega
  have hcslen : (cs.insertIdx i right).length = order := by
    rw [List.length_insertIdx_of_le_length (hinner.length_eq ▸ Nat.lt_succ_iff.mp hlt),
      hinner.length_eq]
    omega
  rw [hm] at hhalves hrow₁ hrow₂ hkPrime
  rw [Nat.add_sub_cancel] at hrow₁ hkPrime
  have hsplits := hs.splits hp hplive hlevel hkids hatt hkid hm hmlt hkslen hcslen hhalves hrow₁
    hrow₂ (hisLeaf₁.trans hinner.isLeaf) hisLeaf₂ (hparent₁.trans (parent_of_node hnd).symm)
    (hparent₂.trans (parent_of_node hnd).symm) hkPrime
  exact ⟨i,new,kPrime,h',hindex,hsplit,hhalves.fresh,hhalves.records_eq,hsplits.shape hs⟩

end Shape

end ElasticTranslations.Benchmarks.BTree
