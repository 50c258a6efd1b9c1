import ElasticTranslations.Benchmarks.BTreeDeleteRows
import ElasticTranslations.Benchmarks.BTreeSplits

/-! The B+ tree while a deletion goes up: one node may lack a key, and nodes that have left the
tree are not free yet. Two neighbors are put right together, with the key between them. -/
namespace ElasticTranslations.Benchmarks.BTree
open Structures
variable {order : ℕ} {d d' : Directory} {g g' : Labels} {root : Slot} {short : Option Slot}
  {pending : Set Slot} {h h' : Heap} {a b c : Slot} {nd nd' : Node} {ks : List UInt64}
  {cs : List Slot}

/-- How many keys a node has to have, if it is not the root. -/
def minKeys (order : ℕ) (nd : Node) : ℕ := if nd.isLeaf then cut (order-1) else cut order-1

structure Shrinking (order : ℕ) (d : Directory) (g : Labels) (root : Slot) (short : Option Slot)
    (pending : Set Slot) (h : Heap) : Prop where
  ok : nodeLayout.Ok h.nodes (g.live ∪ pending)
  apart : ∀ a ∈ pending,a ∉ g.live
  root_live : root ∈ g.live
  root_lo : g.lo root = 0
  root_hi : g.hi root = 2^64
  root_parent : h.parent root = none
  level_le : ∀ a ∈ g.live,g.level a ≤ g.level root
  node : ∀ a ∈ g.live,∃ nd,h.node a = some nd ∧ NodeOk order d g a none a nd ∧
    (a ≠ root → minKeys order nd ≤ nd.numKeys+if short = some a then 1 else 0)
  down : ∀ a ∈ g.live,0 < g.level a → ∀ c ∈ h.kids a,h.parent c = some a
  up : ∀ a ∈ g.live,a ≠ root → ∃ p ∈ g.live,0 < g.level p ∧ a ∈ h.kids p
  branched : short ≠ some root → g.Branched root

namespace NodeOk

lemma mayBeSmall_self (a : Slot) : MayBeSmall a none a := ⟨rfl,by simp⟩

/-- Whether a node is as it should be but for the number of its keys. -/
lemma loosen (hn : NodeOk order d g root none a nd) : NodeOk order d g a none a nd := by
  cases hn with
  | leaf ks hlevel hleaf =>
    exact .leaf ks hlevel ⟨hleaf.isLeaf,hleaf.row,hleaf.sorted,hleaf.mem_iff,
      fun hcon => absurd (mayBeSmall_self a) hcon,hleaf.link⟩
  | inner ks c cs hlevel hinner =>
    exact .inner ks c cs hlevel ⟨hinner.isLeaf,hinner.row,hinner.keys_eq,hinner.tiles,
      fun hcon => absurd (mayBeSmall_self a) hcon,hinner.kid⟩

lemma minKeys_le (hn : NodeOk order d g root none a nd) (hne : a ≠ root) :
    minKeys order nd ≤ nd.numKeys := by
  cases hn with
  | leaf ks hlevel hleaf =>
    rw [minKeys,if_pos hleaf.isLeaf,hleaf.row.numKeys_eq]
    exact hleaf.fill fun hcon => hne hcon.1
  | inner ks c cs hlevel hinner =>
    rw [minKeys,if_neg (by simp [hinner.isLeaf]),hinner.row.numKeys_eq]
    exact hinner.fill fun hcon => hne hcon.1

lemma tighten (hn : NodeOk order d g a none a nd)
    (hfill : a ≠ root → minKeys order nd ≤ nd.numKeys) : NodeOk order d g root none a nd := by
  cases hn with
  | leaf ks hlevel hleaf =>
    refine .leaf ks hlevel ⟨hleaf.isLeaf,hleaf.row,hleaf.sorted,hleaf.mem_iff,fun hsmall => ?_,
      hleaf.link⟩
    rw [minKeys,if_pos hleaf.isLeaf,hleaf.row.numKeys_eq] at hfill
    exact hfill fun hroot => hsmall ⟨hroot,by simp⟩
  | inner ks c cs hlevel hinner =>
    refine .inner ks c cs hlevel ⟨hinner.isLeaf,hinner.row,hinner.keys_eq,hinner.tiles,
      fun hsmall => ?_,hinner.kid⟩
    rw [minKeys,if_neg (by simp [hinner.isLeaf]),hinner.row.numKeys_eq] at hfill
    exact hfill fun hroot => hsmall ⟨hroot,by simp⟩

/-- A node whose keys, children and right neighbor have kept their labels. -/
lemma relabel (hn : NodeOk order d g a none a nd) (hs : SameRow nd nd') (hnd : h.node a = some nd)
    (hlevel : g'.level = g.level) (hlo : g'.lo a = g.lo a) (hhi : g'.hi a = g.hi a)
    (hkid : 0 < g.level a → ∀ c ∈ h.kids a,c ∈ g'.live ∧ g'.lo c = g.lo c ∧ g'.hi c = g.hi c)
    (hnext : g.level a = 0 → ∀ b ∈ g.live,g.level b = 0 → g.lo b = g.hi a →
      b ∈ g'.live ∧ g'.lo b = g.lo b)
    (hd : g.level a = 0 → ∀ k : UInt64,g.lo a ≤ k.toNat → k.toNat < g.hi a →
      (k ∈ d'.keys ↔ k ∈ d.keys) ∧ (k ∈ d.keys → d'.record k = d.record k)) :
    NodeOk order d' g' a none a nd' := by
  cases hn with
  | leaf ks hzero hleaf =>
    have hd := hd hzero
    refine .leaf ks (by rw [hlevel,hzero]) ⟨by rw [hs.isLeaf_eq,hleaf.isLeaf],?_,hleaf.sorted,?_,
      fun hcon => absurd (mayBeSmall_self a) hcon,?_⟩
    · have hmap : (ks.map fun k => Ptr.record (d'.record k)) =
          ks.map fun k => Ptr.record (d.record k) := by
        apply List.map_congr_left
        intro k hk
        obtain ⟨hkd,hlo,hhi⟩ := (hleaf.mem_iff k).mp hk
        rw [(hd k hlo hhi).2 hkd]
      rw [hmap]
      exact hs.row hleaf.row
    · intro k
      rw [hleaf.mem_iff k,hlo,hhi]
      exact and_congr_left fun hk => (hd k hk.1 hk.2).1.symm
    · rw [hs.pointers_eq,hhi]
      rcases hleaf.link with hnull | ⟨b,hb,hblevel,hblo,hlink⟩
      · exact .inl hnull
      · obtain ⟨hblive,hblo'⟩ := hnext hzero b hb hblevel hblo
        exact .inr ⟨b,hblive,by rw [hlevel,hblevel],hblo'.trans hblo,hlink⟩
  | inner ks c cs hpos hinner =>
    have hkid := hkid hpos
    rw [hinner.kids_eq hnd] at hkid
    refine .inner ks c cs (by rwa [hlevel]) ⟨by rw [hs.isLeaf_eq,hinner.isLeaf],
      hs.row hinner.row,?_,?_,fun hcon => absurd (mayBeSmall_self a) hcon,fun b hb => ?_⟩
    · rw [hinner.keys_eq]
      exact List.map_congr_left fun b hb => ((hkid b (by simp [hb])).2.1).symm
    · rw [hlo,hhi]
      exact hinner.tiles.congr (fun b hb => (hkid b hb).2.1) fun b hb => (hkid b hb).2.2
    · rw [hlevel]
      exact ⟨(hkid b hb).1,(hinner.kid b hb).2⟩

end NodeOk

lemma Shape.shrinking (hs : Shape order d g root none h) (hb : g.Branched root) :
    Shrinking order d g root none ∅ h where
  ok := by simpa using hs.ok
  apart _ ha := by simp at ha
  root_live := hs.root_live
  root_lo := hs.root_lo
  root_hi := hs.root_hi
  root_parent := hs.root_parent
  level_le := hs.level_le
  node a ha := by
    obtain ⟨nd,hnd,hn⟩ := hs.node a ha
    exact ⟨nd,hnd,hn.loosen,fun hne => by simpa using hn.minKeys_le hne⟩
  down := hs.down
  up a ha hne := hs.up a ha hne (by simp)
  branched _ := hb

namespace Shrinking

/-- Nothing lacks a key, and nothing has left: the deletion is over. -/
lemma shape (hs : Shrinking order d g root none ∅ h) : Shape order d g root none h where
  ok := by simpa using hs.ok
  root_live := hs.root_live
  root_lo := hs.root_lo
  root_hi := hs.root_hi
  root_parent := hs.root_parent
  level_le := hs.level_le
  node a ha := by
    obtain ⟨nd,hnd,hn,hfill⟩ := hs.node a ha
    exact ⟨nd,hnd,hn.tighten fun hne => by simpa using hfill hne⟩
  down := hs.down
  up a ha hne _ := hs.up a ha hne
  hangs l r heq := by simp at heq

lemma leaf (hs : Shrinking order d g root short pending h) (ha : a ∈ g.live)
    (hlevel : g.level a = 0) :
    ∃ nd ks,h.node a = some nd ∧ LeafOk order d g a none a nd ks ∧
      (a ≠ root → cut (order-1) ≤ ks.length+if short = some a then 1 else 0) := by
  obtain ⟨nd,hnd,hn,hfill⟩ := hs.node a ha
  cases hn with
  | leaf ks _ hleaf =>
    refine ⟨nd,ks,hnd,hleaf,fun hne => ?_⟩
    have := hfill hne
    rwa [minKeys,if_pos hleaf.isLeaf,hleaf.row.numKeys_eq] at this
  | inner ks c cs hpos hinner => omega

lemma inner (hs : Shrinking order d g root short pending h) (ha : a ∈ g.live)
    (hlevel : 0 < g.level a) :
    ∃ nd ks c cs,h.node a = some nd ∧ InnerOk order g a none a nd ks c cs ∧ h.kids a = c :: cs ∧
      (a ≠ root → cut order-1 ≤ ks.length+if short = some a then 1 else 0) := by
  obtain ⟨nd,hnd,hn,hfill⟩ := hs.node a ha
  cases hn with
  | leaf ks hzero hleaf => omega
  | inner ks c cs _ hinner =>
    refine ⟨nd,ks,c,cs,hnd,hinner,hinner.kids_eq hnd,fun hne => ?_⟩
    have := hfill hne
    rwa [minKeys,if_neg (by simp [hinner.isLeaf]),hinner.row.numKeys_eq] at this

lemma kid (hs : Shrinking order d g root short pending h) (ha : a ∈ g.live)
    (hlevel : 0 < g.level a) (hc : c ∈ h.kids a) : c ∈ g.live ∧ g.level c+1 = g.level a := by
  obtain ⟨nd,ks,b,cs,-,hinner,hkids,-⟩ := hs.inner ha hlevel
  rw [hkids] at hc
  exact hinner.kid c hc

def tree (hs : Shrinking order d g root short pending h) : TiledTree Slot ℕ where
  live := g.live
  root := root
  level := g.level
  lo := g.lo
  hi := g.hi
  kids := h.kids
  root_live := hs.root_live
  root_lt := by
    rw [hs.root_lo,hs.root_hi]
    decide
  kid_live _ ha hlevel _ hc := hs.kid ha hlevel hc
  tiles a ha hlevel := by
    obtain ⟨nd,ks,b,cs,-,hinner,hkids,-⟩ := hs.inner ha hlevel
    rw [hkids]
    exact hinner.tiles
  up := hs.up
  level_le := hs.level_le

end Shrinking

namespace Labels
variable {left right : Slot} {k : ℕ}

/-- The border between two neighbors moves; the right one goes, if nothing is left of it. -/
def moveBorder (g : Labels) (left right : Slot) (k : ℕ) : Labels where
  live := {a ∈ g.live | a = right → k < g.hi right}
  level := g.level
  lo a := if a = right then k else g.lo a
  hi a := if a = left then k else g.hi a

lemma moveBorder_live_of_ne (ha : a ∈ g.live) (hne : a ≠ right) :
    a ∈ (g.moveBorder left right k).live := ⟨ha,fun heq => absurd heq hne⟩

@[simp] lemma moveBorder_level (g : Labels) : (g.moveBorder left right k).level = g.level := rfl

@[simp] lemma moveBorder_lo_right (g : Labels) : (g.moveBorder left right k).lo right = k :=
  if_pos rfl

@[simp] lemma moveBorder_hi_left (g : Labels) : (g.moveBorder left right k).hi left = k :=
  if_pos rfl

lemma moveBorder_lo_of_ne (ha : a ≠ right) : (g.moveBorder left right k).lo a = g.lo a := if_neg ha

lemma moveBorder_hi_of_ne (ha : a ≠ left) : (g.moveBorder left right k).hi a = g.hi a := if_neg ha

end Labels

/-- Two children of a node, one next to the other. -/
structure Neighbors (g : Labels) (h : Heap) (p left right : Slot) (i : ℕ) : Prop where
  live : p ∈ g.live
  level_pos : 0 < g.level p
  left_at : (h.kids p)[i]? = some left
  right_at : (h.kids p)[i+1]? = some right

namespace Neighbors
variable {p left right : Slot} {i : ℕ} (hnb : Neighbors g h p left right i)
  (hs : Shrinking order d g root short pending h)
include hnb

lemma left_mem : left ∈ h.kids p := List.mem_of_getElem? hnb.left_at

lemma right_mem : right ∈ h.kids p := List.mem_of_getElem? hnb.right_at

/-- The children of the node around the two. -/
lemma exists_split : ∃ as bs,as.length = i ∧ h.kids p = as++left :: right :: bs := by
  have hlt := (List.getElem?_eq_some_iff.mp hnb.right_at).1
  have hleft := List.getElem_eq_iff (by omega) |>.mpr hnb.left_at
  have hright := List.getElem_eq_iff hlt |>.mpr hnb.right_at
  refine ⟨(h.kids p).take i,(h.kids p).drop (i+2),by rw [List.length_take]; omega,?_⟩
  conv_lhs => rw [← List.take_append_drop i (h.kids p)]
  rw [List.drop_eq_getElem_cons (by omega),List.drop_eq_getElem_cons hlt,hleft,hright]

include hs

lemma left_live : left ∈ g.live := (hs.kid hnb.live hnb.level_pos hnb.left_mem).1

lemma right_live : right ∈ g.live := (hs.kid hnb.live hnb.level_pos hnb.right_mem).1

lemma left_level : g.level left+1 = g.level p := (hs.kid hnb.live hnb.level_pos hnb.left_mem).2

lemma right_level : g.level right+1 = g.level p := (hs.kid hnb.live hnb.level_pos hnb.right_mem).2

lemma level_eq : g.level right = g.level left :=
  Nat.succ_injective ((hnb.right_level hs).trans (hnb.left_level hs).symm)

lemma left_parent : h.parent left = some p := hs.down p hnb.live hnb.level_pos left hnb.left_mem

lemma right_parent : h.parent right = some p := hs.down p hnb.live hnb.level_pos right hnb.right_mem

lemma left_ne_root : left ≠ root := by
  rintro rfl
  have := hnb.left_parent hs
  rw [hs.root_parent] at this
  simp at this

lemma right_ne_root : right ≠ root := by
  rintro rfl
  have := hnb.right_parent hs
  rw [hs.root_parent] at this
  simp at this

/-- The left one ends where the right one begins. -/
lemma border : g.hi left = g.lo right ∧ g.lo left < g.hi left ∧ g.lo right < g.hi right := by
  obtain ⟨as,bs,-,hkids⟩ := hnb.exists_split
  have htiles := hs.tree.tiles p hnb.live hnb.level_pos
  rw [show hs.tree.kids p = h.kids p from rfl,hkids] at htiles
  obtain ⟨m,-,hm,hlt,hr,hrlt,-⟩ := tiles_append.mp htiles
  exact ⟨hr.symm,lt_of_eq_of_lt hm hlt,lt_of_eq_of_lt hr hrlt⟩

lemma left_ne_right : left ≠ right := by
  rintro rfl
  have := hnb.border hs
  omega

end Neighbors

lemma Row.keys_get {ps : List Ptr} {i : ℕ} (h : Row order ks ps nd) (hi : i < ks.length) :
    nd.keys[i]? = ks[i]? := by
  rw [← List.getElem?_take_of_lt hi,h.keys_take]

lemma InnerOk.toNat_key {hang : Option (Slot × Slot)} {i : ℕ} {k : UInt64}
    (hi : InnerOk order g root hang a nd ks c cs) (hk : ks[i]? = some k) (hb : cs[i]? = some b) :
    k.toNat = g.lo b := by
  have := congrArg (·[i]?) hi.keys_eq
  simpa [hk,hb] using this

namespace Shrinking
variable {n : Slot} (hs : Shrinking order d g root (some n) pending h)
include hs

/-- The parent of a node that lacks a key has another child. -/
lemma key_of_short (horder : 3 ≤ order) {p : Slot} (hn : n ≠ root) (hp : p ∈ g.live) (hpn : p ≠ n)
    (hinner : InnerOk order g p none p nd ks c cs) (hkids : h.kids p = c :: cs)
    (hfill : p ≠ root → cut order-1 ≤ ks.length+if some n = some p then 1 else 0)
    (hpos : 0 < g.level p) : 0 < ks.length := by
  by_cases hroot : p = root
  · subst hroot
    obtain ⟨a,ha,hlevel,hlo⟩ := hs.branched (fun heq => hn (Option.some.inj heq)) hpos
    have hane : a ≠ p := by
      rintro rfl
      omega
    obtain ⟨q,hq,hqpos,haq⟩ := hs.up a ha hane
    obtain rfl : q = p := by
      by_contra hqp
      have h1 : g.level q < g.level p := hs.tree.level_lt hq hqp
      have h2 := (hs.kid hq hqpos haq).2
      omega
    rw [← hinner.length_eq]
    by_contra hcon
    have hnil : cs = [] := List.eq_nil_of_length_eq_zero (by omega)
    rw [hkids,hnil,List.mem_singleton] at haq
    subst haq
    exact hlo (hinner.tiles.1.trans hs.root_lo)
  · have := hfill hroot
    rw [if_neg fun heq => hpn (Option.some.inj heq).symm,cut] at this
    split_ifs at this <;> omega

omit hs in
/-- A node finds its place among the children of its parent. -/
lemma exists_childIndex (hinner : InnerOk order g p none p ndp ks c cs)
    (hndp : h.node p = some ndp) (hnd : h.node n = some nd) (hparent : nd.parent = some p)
    (hmem : n ∈ c :: cs) :
    ∃ j,(c :: cs)[j]? = some n ∧ j ≤ ks.length ∧ getNeighborIndex h n = some j.ppred := by
  have hscan := hinner.row.scan_pointers (fun x => x ≠ .node n) (n := ndp.numKeys+1) (by
    rw [hinner.row.numKeys_eq]
    simp [hinner.length_eq])
  have hat := getElem?_takeWhile_ne (List.mem_map_of_mem (f := Ptr.node) hmem)
  generalize (((c :: cs).map Ptr.node).takeWhile fun x => x ≠ .node n).length = j at hscan hat
  rw [List.getElem?_map] at hat
  have hat : (c :: cs)[j]? = some n := by
    obtain ⟨x,hx,hxn⟩ := Option.map_eq_some_iff.mp hat
    rwa [Ptr.node.inj hxn] at hx
  have hlt := (List.getElem?_eq_some_iff.mp hat).1
  rw [List.length_cons,hinner.length_eq] at hlt
  refine ⟨j,hat,by omega,?_⟩
  simp only [getNeighborIndex,hnd,hparent,hndp,Option.bind_eq_bind,Option.bind_some,hscan]
  rw [if_pos (by rw [hinner.row.numKeys_eq]; omega)]
  rfl

lemma exists_neighbor (horder : 3 ≤ order) (hn : n ≠ root) (hlive : n ∈ g.live) :
    ∃ p ndp ks c cs left right i kPrime nb index,h.parent n = some p ∧ h.node p = some ndp ∧
      InnerOk order g p none p ndp ks c cs ∧ h.kids p = c :: cs ∧
      (p ≠ root → cut order-1 ≤ ks.length) ∧
      Neighbors g h p left right i ∧ ks[i]? = some kPrime ∧ kPrime.toNat = g.lo right ∧
      getNeighbor h n p = some (nb,index,i,kPrime) ∧
      (n = right ∧ nb = left ∧ index = some i ∨ n = left ∧ nb = right ∧ index = none) := by
  obtain ⟨p,hp,hpos,hnp⟩ := hs.up n hlive hn
  obtain ⟨ndp,ks,c,cs,hndp,hinner,hkids,hfill⟩ := hs.inner hp hpos
  have hpn : p ≠ n := by
    rintro rfl
    have := (hs.kid hp hpos hnp).2
    omega
  have hks := hs.key_of_short horder hn hp hpn hinner hkids hfill hpos
  have hparent := hs.down p hp hpos n hnp
  obtain ⟨nd,hnd,-⟩ := hs.node n hlive
  obtain ⟨j,hat,hj,hindex⟩ := exists_childIndex hinner hndp hnd
    ((parent_of_node hnd).symm.trans hparent) (hkids ▸ hnp)
  have hfill' : p ≠ root → cut order-1 ≤ ks.length := by
    intro hroot
    have := hfill hroot
    rwa [if_neg fun heq => hpn (Option.some.inj heq).symm] at this
  have hptr : ∀ (i : ℕ) b,(c :: cs)[i]? = some b → ndp.pointers[i]? = some (.node b) := by
    intro i b hb
    have hib := (List.getElem?_eq_some_iff.mp hb).1
    rw [hinner.row.pointers_get (by simpa using hib),List.getElem?_map,hb,Option.map_some]
  cases j with
  | zero =>
    obtain ⟨k,hk⟩ : ∃ k,ks[0]? = some k := ⟨_,List.getElem?_eq_getElem hks⟩
    obtain ⟨b,hb⟩ : ∃ b,cs[0]? = some b :=
      ⟨_,List.getElem?_eq_getElem (by rwa [hinner.length_eq])⟩
    refine ⟨p,ndp,ks,c,cs,n,b,0,k,b,none,hparent,hndp,hinner,hkids,hfill',
      ⟨hp,hpos,by rwa [hkids],by rwa [hkids]⟩,hk,hinner.toNat_key hk hb,?_,.inr ⟨rfl,rfl,rfl⟩⟩
    have hkey : ndp.keys[0]? = some k := by rw [hinner.row.keys_get hks,hk]
    simp [getNeighbor,hindex,hndp,hkey,hptr 1 b hb]
  | succ i =>
    obtain ⟨k,hk⟩ : ∃ k,ks[i]? = some k := ⟨_,List.getElem?_eq_getElem (by omega)⟩
    obtain ⟨b,hb⟩ : ∃ b,(c :: cs)[i]? = some b :=
      ⟨_,List.getElem?_eq_getElem (by rw [List.length_cons,hinner.length_eq]; omega)⟩
    refine ⟨p,ndp,ks,c,cs,b,n,i,k,b,some i,hparent,hndp,hinner,hkids,hfill',
      ⟨hp,hpos,by rwa [hkids],by rwa [hkids]⟩,hk,hinner.toNat_key hk hat,?_,.inl ⟨rfl,rfl,rfl⟩⟩
    have hkey : ndp.keys[i]? = some k := by rw [hinner.row.keys_get (by omega),hk]
    simp [getNeighbor,hindex,hndp,hkey,hptr i b hb]

end Shrinking

section Rearranges
variable (order : ℕ) (d : Directory) (g : Labels) (root : Slot) (pending : Set Slot) (h : Heap)
  (p left right : Slot) (k : ℕ) (short : Option Slot) (owner : Slot) (moved : List Slot) (h' : Heap)

/-- What is left to check when a step has changed two neighbors and their parent: some children
of the neighbors have moved, and the border between the two is at `k` now. -/
structure Rearranges : Prop where
  ok : nodeLayout.Ok h'.nodes (g.live ∪ pending)
  moves : Moves h (g.live \ {left,right,p}) owner moved h'
  moved_kid : ∀ c ∈ moved,0 < g.level left ∧ (c ∈ h.kids left ∨ c ∈ h.kids right)
  lt_border : g.lo left < k
  node : ∀ a ∈ [left,right,p],a ∈ (g.moveBorder left right k).live → ∃ nd,h'.node a = some nd ∧
    NodeOk order d (g.moveBorder left right k) a none a nd ∧
    (a ≠ root → minKeys order nd ≤ nd.numKeys+if short = some a then 1 else 0)
  parent_left : h'.parent left = some p
  parent_right : k < g.hi right → h'.parent right = some p
  parent_eq : h'.parent p = h.parent p
  mem_kids : ∀ c,c ∈ h'.kids p ↔ c ∈ h.kids p ∧ c ∈ (g.moveBorder left right k).live
  down : 0 < g.level left → ∀ a ∈ [left,right],a ∈ (g.moveBorder left right k).live →
    ∀ c ∈ h'.kids a,h'.parent c = some a
  up : 0 < g.level left → ∀ c,(c ∈ h.kids left ∨ c ∈ h.kids right) →
    ∃ a ∈ [left,right],a ∈ (g.moveBorder left right k).live ∧ c ∈ h'.kids a
  gone : ¬k < g.hi right → short = some p

end Rearranges

namespace Rearranges
variable {p left right n owner : Slot} {i k : ℕ} {short' : Option Slot} {moved : List Slot}
  {pending' : Set Slot}

/-- The nodes other than the two and their parent are as they should be. -/
lemma rest (hs : Shrinking order d g root (some n) pending h) (hn : n = left ∨ n = right)
    (hnb : Neighbors g h p left right i)
    (hr : Rearranges order d g root pending h p left right k short' owner moved h')
    (ha : a ∈ g.live) (hal : a ≠ left) (har : a ≠ right) (hap : a ≠ p) :
    ∃ nd,h'.node a = some nd ∧ NodeOk order d (g.moveBorder left right k) a none a nd ∧
      (a ≠ root → minKeys order nd ≤ nd.numKeys+if short' = some a then 1 else 0) := by
  obtain ⟨nd,hnd,hok,hfill⟩ := hs.node a ha
  obtain ⟨nd',hnd',hrow⟩ := hr.moves.sameRow ⟨ha,by simp [hal,har,hap]⟩ hnd
  have han : ¬some n = some a := by
    rintro heq
    obtain rfl := Option.some.inj heq
    exact hn.elim hal har
  refine ⟨nd',hnd',hok.relabel hrow hnd rfl (Labels.moveBorder_lo_of_ne har)
    (Labels.moveBorder_hi_of_ne hal) (fun hpos c hc => ?_) (fun hzero b hb hblevel hblo => ?_)
    fun _ _ _ _ => ⟨Iff.rfl,fun _ => rfl⟩,fun hne => ?_⟩
  · have hcparent := hs.down a ha hpos c hc
    have hcl : c ≠ left := by
      rintro rfl
      exact hap (Option.some.inj (hcparent.symm.trans (hnb.left_parent hs)))
    have hcr : c ≠ right := by
      rintro rfl
      exact hap (Option.some.inj (hcparent.symm.trans (hnb.right_parent hs)))
    exact ⟨Labels.moveBorder_live_of_ne (hs.kid ha hpos hc).1 hcr,Labels.moveBorder_lo_of_ne hcr,
      Labels.moveBorder_hi_of_ne hcl⟩
  · have hbr : b ≠ right := by
      rintro rfl
      refine hal (hs.tree.eq_of_hi_eq ha (hnb.left_live hs) ?_ ?_)
      · have h1 := hnb.left_level hs
        have h2 := hnb.right_level hs
        exact show g.level a = g.level left by omega
      · exact hblo.symm.trans (hnb.border hs).1.symm
    exact ⟨Labels.moveBorder_live_of_ne hb hbr,Labels.moveBorder_lo_of_ne hbr⟩
  · have := hfill hne
    rw [if_neg han] at this
    rw [show minKeys order nd' = minKeys order nd by rw [minKeys,hrow.isLeaf_eq,minKeys],
      hrow.numKeys_eq]
    omega

section Fields
variable (hs : Shrinking order d g root short pending h) (hnb : Neighbors g h p left right i)
  (hr : Rearranges order d g root pending h p left right k short' owner moved h')
include hs hnb hr

/-- A node that is not a child of the two has the parent it had. -/
lemma parent_of_ne (ha : a ∈ g.live) (hal : a ≠ left) (har : a ≠ right)
    (hpl : h.parent a ≠ some left) (hpr : h.parent a ≠ some right) : h'.parent a = h.parent a := by
  by_cases hap : a = p
  · rw [hap,hr.parent_eq]
  · refine hr.moves.parent_of_not_mem ⟨ha,by simp [hal,har,hap]⟩ fun hm => ?_
    obtain ⟨hpos,hm | hm⟩ := hr.moved_kid a hm
    · exact hpl (hs.down left (hnb.left_live hs) hpos a hm)
    · have hlevel : g.level right = g.level left := hnb.level_eq hs
      exact hpr (hs.down right (hnb.right_live hs) (by omega) a hm)

omit hnb in
lemma kids_of_ne (ha : a ∈ g.live) (hal : a ≠ left) (har : a ≠ right) (hap : a ≠ p) :
    h'.kids a = h.kids a := by
  obtain ⟨nd,hnd,-⟩ := hs.node a ha
  exact hr.moves.kids_eq ⟨ha,by simp [hal,har,hap]⟩ hnd

lemma root_parent : h'.parent root = none := by
  rw [hr.parent_of_ne hs hnb hs.root_live (hnb.left_ne_root hs).symm (hnb.right_ne_root hs).symm
    (by simp [hs.root_parent]) (by simp [hs.root_parent]),hs.root_parent]

/-- A node other than the two has no new children. -/
lemma kid_of_ne (ha : a ∈ g.live) (hpos : 0 < g.level a) (hal : a ≠ left) (har : a ≠ right)
    (hc : c ∈ h'.kids a) : c ∈ h.kids a ∧ (c = right → k < g.hi right) := by
  by_cases hap : a = p
  · subst hap
    obtain ⟨hc,hclive⟩ := (hr.mem_kids c).mp hc
    exact ⟨hc,hclive.2⟩
  · rw [hr.kids_of_ne hs ha hal har hap] at hc
    refine ⟨hc,fun hcr => ?_⟩
    subst hcr
    exact absurd (Option.some.inj ((hs.down a ha hpos c hc).symm.trans (hnb.right_parent hs))) hap

lemma parent_of_kid_of_ne (ha : a ∈ g.live) (hpos : 0 < g.level a) (hal : a ≠ left)
    (har : a ≠ right) (hc : c ∈ h'.kids a) : h'.parent c = some a := by
  obtain ⟨hc,hborder⟩ := hr.kid_of_ne hs hnb ha hpos hal har hc
  have hcp := hs.down a ha hpos c hc
  by_cases hcl : c = left
  · subst hcl
    rw [hr.parent_left,← hnb.left_parent hs,hcp]
  · by_cases hcr : c = right
    · subst hcr
      rw [hr.parent_right (hborder rfl),← hnb.right_parent hs,hcp]
    · rw [hr.parent_of_ne hs hnb (hs.kid ha hpos hc).1 hcl hcr (by simpa [hcp] using hal)
        (by simpa [hcp] using har),hcp]

lemma parent_of_kid (ha : a ∈ (g.moveBorder left right k).live) (hpos : 0 < g.level a)
    (hc : c ∈ h'.kids a) : h'.parent c = some a := by
  have hlevel := hnb.level_eq hs
  by_cases hal : a = left
  · subst hal
    exact hr.down hpos a (by simp) ha c hc
  · by_cases har : a = right
    · subst har
      exact hr.down (by omega) a (by simp) ha c hc
    · exact hr.parent_of_kid_of_ne hs hnb ha.1 hpos hal har hc

/-- What was under one of the two is under one of them that is left. -/
lemma exists_parent (ha : a ∈ (g.moveBorder left right k).live) (hroot : a ≠ root) :
    ∃ q ∈ (g.moveBorder left right k).live,0 < g.level q ∧ a ∈ h'.kids q := by
  have hlevel := hnb.level_eq hs
  have hnew : 0 < g.level left → (a ∈ h.kids left ∨ a ∈ h.kids right) →
      ∃ b ∈ (g.moveBorder left right k).live,0 < g.level b ∧ a ∈ h'.kids b := by
    intro hpos hak
    obtain ⟨b,hb,hblive,hab⟩ := hr.up hpos a hak
    refine ⟨b,hblive,?_,hab⟩
    rcases List.mem_pair.mp hb with rfl | rfl <;> omega
  obtain ⟨q,hq,hqpos,haq⟩ := hs.up a ha.1 hroot
  by_cases hql : q = left
  · exact hnew (hql ▸ hqpos) (.inl (hql ▸ haq))
  · by_cases hqr : q = right
    · subst hqr
      exact hnew (by omega) (.inr haq)
    · refine ⟨q,Labels.moveBorder_live_of_ne hq hqr,hqpos,?_⟩
      by_cases hqp : q = p
      · subst hqp
        exact (hr.mem_kids a).mpr ⟨haq,ha⟩
      · rwa [hr.kids_of_ne hs hq hql hqr hqp]

lemma branched (hb : g.Branched root) (hshort : short' ≠ some root) :
    (g.moveBorder left right k).Branched root := by
  intro hpos
  obtain ⟨a,ha,hlevel,hlo⟩ := hb hpos
  by_cases har : a = right
  · subst har
    -- if nothing is left of the right one, its parent is short and is not the root
    have hk : k < g.hi a := by
      by_contra hcon
      refine hshort ((hr.gone hcon).trans (congrArg some ?_))
      by_contra hproot
      have hlt : g.level p < g.level root := hs.tree.level_lt hnb.live hproot
      have := hnb.right_level hs
      omega
    refine ⟨a,⟨ha,fun _ => hk⟩,hlevel,?_⟩
    have := hr.lt_border
    rw [Labels.moveBorder_lo_right]
    omega
  · exact ⟨a,Labels.moveBorder_live_of_ne ha har,hlevel,by rwa [Labels.moveBorder_lo_of_ne har]⟩

end Fields

/-- The tree after the two neighbors have been put right. -/
lemma shrinking (hs : Shrinking order d g root (some n) pending h) (hn : n = left ∨ n = right)
    (hnb : Neighbors g h p left right i)
    (hr : Rearranges order d g root pending h p left right k short' owner moved h')
    (hlive : (g.moveBorder left right k).live ∪ pending' = g.live ∪ pending)
    (hapart : ∀ a ∈ pending',a ∉ (g.moveBorder left right k).live) :
    Shrinking order d (g.moveBorder left right k) root short' pending' h' where
  ok := hlive ▸ hr.ok
  apart := hapart
  root_live := Labels.moveBorder_live_of_ne hs.root_live (hnb.right_ne_root hs).symm
  root_lo := by rw [Labels.moveBorder_lo_of_ne (hnb.right_ne_root hs).symm,hs.root_lo]
  root_hi := by rw [Labels.moveBorder_hi_of_ne (hnb.left_ne_root hs).symm,hs.root_hi]
  root_parent := hr.root_parent hs hnb
  level_le a ha := hs.level_le a ha.1
  node a ha := by
    by_cases hal : a = left
    · exact hr.node a (by simp [hal]) ha
    · by_cases har : a = right
      · exact hr.node a (by simp [har]) ha
      · by_cases hap : a = p
        · exact hr.node a (by simp [hap]) ha
        · exact hr.rest hs hn hnb ha.1 hal har hap
  down _ ha hpos _ hc := hr.parent_of_kid hs hnb ha hpos hc
  up _ ha hroot := hr.exists_parent hs hnb ha hroot
  branched hshort := by
    refine hr.branched hs hnb (hs.branched fun heq => ?_) hshort
    obtain rfl := Option.some.inj heq
    exact hn.elim (hnb.left_ne_root hs).symm (hnb.right_ne_root hs).symm

end Rearranges

end ElasticTranslations.Benchmarks.BTree
