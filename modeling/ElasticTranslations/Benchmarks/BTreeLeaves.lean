import ElasticTranslations.Benchmarks.BTreeSplits

/-! A new key in the leaf of the B+ tree in charge of it: the leaf has room, or it is split. -/
namespace ElasticTranslations.Benchmarks.BTree
open Structures
variable {order : ℕ} {d : Directory} {g : Labels} {root : Slot} {hang : Option (Slot × Slot)}
  {h : Heap} {a leaf : Slot} {nd : Node} {key : UInt64} {ks ks' : List UInt64}

/-- The directory with one more key. -/
def Directory.insert (d : Directory) (key : UInt64) (r : Slot) : Directory where
  keys := Insert.insert key d.keys
  record := Function.update d.record key r

namespace Directory
variable {r : Slot}

lemma mem_insert {k : UInt64} : k ∈ (d.insert key r).keys ↔ k = key ∨ k ∈ d.keys := Iff.rfl

@[simp] lemma insert_record_self : (d.insert key r).record key = r := by simp [insert]

lemma insert_record_of_ne {k : UInt64} (hk : k ≠ key) :
    (d.insert key r).record k = d.record k := by simp [insert,hk]

end Directory

/-- Leaves that are not in charge of the key do not notice it. -/
lemma Shape.agree (hs : Shape order d g root none h)
    (hleads : Leads d g key leaf) (r : Slot) (ha : a ∈ g.live) (hne : a ≠ leaf)
    (hlevel : g.level a = 0) (k : UInt64) (hlo : g.lo a ≤ k.toNat) (hhi : k.toNat < g.hi a) :
    (k ∈ (d.insert key r).keys ↔ k ∈ d.keys) ∧
      (k ∈ d.keys → (d.insert key r).record k = d.record k) := by
  have hk : k ≠ key := by
    rintro rfl
    exact hne (hs.tree.eq_of_mem ha hleads.live (hlevel.trans hleads.level_eq.symm) ⟨hlo,hhi⟩
      ⟨hleads.lo_le,hleads.lt_hi⟩)
  exact ⟨Directory.mem_insert.trans (or_iff_right hk),fun _ => Directory.insert_record_of_ne hk⟩

/-- The entries of a leaf and a new one. -/
structure Entered (d : Directory) (g : Labels) (leaf : Slot) (key : UInt64) (r : Slot)
    (ks ks' : List UInt64) : Prop where
  keys_eq : ks' = ks.insertIdx (ks.takeWhile fun k => k < key).length key
  length_eq : ks'.length = ks.length+1
  sorted : ks'.Pairwise (· < ·)
  mem_iff : ∀ k,k ∈ ks' ↔ k ∈ (d.insert key r).keys ∧ g.lo leaf ≤ k.toNat ∧ k.toNat < g.hi leaf
  pointers_eq : (ks.map fun k => Ptr.record (d.record k)).insertIdx
    (ks.takeWhile fun k => k < key).length (.record r) =
      ks'.map fun k => .record ((d.insert key r).record k)

lemma LeafOk.entered
    (hleaf : LeafOk order d g root hang leaf nd ks) (hleads : Leads d g key leaf)
    (hkey : key ∉ d.keys) (r : Slot) : ∃ ks',Entered d g leaf key r ks ks' := by
  have hle := length_takeWhile_le (fun k => decide (k < key)) ks
  have hnot : key ∉ ks := fun hk => hkey ((hleaf.mem_iff key).mp hk).1
  refine ⟨_,rfl,List.length_insertIdx_of_le_length hle _,?_,?_,?_⟩
  · exact pairwise_insertIdx UInt64.toNat hleaf.sorted
      (fun k hk heq => ne_of_mem_of_not_mem hk hnot (UInt64.toNat_inj.mp heq).symm) fun k => rfl
  · intro k
    rw [List.mem_insertIdx hle,hleaf.mem_iff k,Directory.mem_insert]
    constructor
    · rintro (rfl | ⟨hk,hrange⟩)
      · exact ⟨.inl rfl,hleads.lo_le,hleads.lt_hi⟩
      · exact ⟨.inr hk,hrange⟩
    · rintro ⟨rfl | hk,hrange⟩
      · exact .inl rfl
      · exact .inr ⟨hk,hrange⟩
  · have hmap : (ks.map fun k => Ptr.record (d.record k)) =
        ks.map fun k => Ptr.record ((d.insert key r).record k) := by
      apply List.map_congr_left
      intro k hk
      rw [Directory.insert_record_of_ne (ne_of_mem_of_not_mem hk hnot)]
    rw [hmap,List.map_insertIdx,Directory.insert_record_self]

/-- A leaf with room takes the new key in. -/
lemma Shape.insertIntoLeaf (hs : Shape order d g root none h) (hleads : Leads d g key leaf)
    (hkey : key ∉ d.keys) (hnd : h.node leaf = some nd) (hroom : nd.numKeys < order-1) (r : Slot) :
    ∃ h',h.update leaf (Node.insertIntoLeaf key r) = some h' ∧ h'.records = h.records ∧
      Shape order (d.insert key r) g root none h' := by
  obtain ⟨nd₀,ks,hnd₀,hleaf⟩ := hs.leaf hleads.live hleads.level_eq
  obtain rfl : nd₀ = nd := Option.some.inj (hnd₀.symm.trans hnd)
  obtain ⟨ks',hent⟩ := hleaf.entered hleads hkey r
  obtain ⟨nd',hnd',⟨hrow,hisLeaf,hparent⟩,hlink⟩ := Node.insertIntoLeaf_row hleaf.row
    (by simp) (hleaf.row.numKeys_eq ▸ hroom) key r
  rw [← hent.keys_eq,hent.pointers_eq] at hrow
  have hleafOk : LeafOk order (d.insert key r) g root none leaf nd' ks' := by
    refine ⟨hisLeaf.trans hleaf.isLeaf,hrow,hent.sorted,hent.mem_iff,fun hsmall => ?_,?_⟩
    · have := hleaf.fill hsmall
      rw [hent.length_eq]
      omega
    · rw [hlink]
      exact hleaf.link
  have hkids : ∀ a,0 < g.level a → (h.setNode leaf nd').kids a = h.kids a := by
    intro a hlevel
    refine h.kids_setNode_of_ne ?_ nd'
    rintro rfl
    exact hlevel.ne' hleads.level_eq
  have hparents := Heap.parent_setNode hnd hparent
  refine ⟨_,Heap.update_eq hnd hnd',rfl,?_⟩
  constructor
  · exact Heap.ok_setNode hs.ok hleads.live nd'
  · exact hs.root_live
  · exact hs.root_lo
  · exact hs.root_hi
  · rw [hparents,hs.root_parent]
  · exact hs.level_le
  · intro a ha
    by_cases hal : a = leaf
    · rw [hal]
      exact ⟨nd',h.node_setNode_self leaf nd',.leaf ks' hleads.level_eq hleafOk⟩
    · exact hs.rest (h.moves_setNode g.live leaf nd') ha ⟨ha,hal⟩ (.refl g) rfl id
        (fun _ _ _ => rfl) fun hlevel => hs.agree hleads r ha hal hlevel
  · intro a ha hlevel c hc
    rw [hkids a hlevel] at hc
    rw [hparents,hs.down a ha hlevel c hc]
  · intro a ha hroot hnot
    obtain ⟨p,hp,hlevel,hap⟩ := hs.up a ha hroot hnot
    exact ⟨p,hp,hlevel,by rwa [hkids p hlevel]⟩
  · intro left right heq
    simp at heq

section Halves
variable {new : Slot} {newKey : UInt64} {nd' : Node} {r : Slot}
  (hent : Entered d g leaf key r ks ks') (hlen : ks'.length = order)
  (hnewKey : ks'[cut (order-1)]? = some newKey) (hfresh : new ∉ g.live)
include hent hlen hnewKey

/-- The first key stays, so that the new leaf begins above the old one. -/
lemma Entered.lo_lt (horder : 3 ≤ order) : g.lo leaf < newKey.toNat := by
  have hcut : 0 < cut (order-1) := cut_pos (by omega)
  have hfirst : ks'[0]? = some ks'[0] := List.getElem?_eq_getElem (by omega)
  have hmem := (mem_take_iff UInt64.toNat (y := ks'[0]) hent.sorted hnewKey).mp
    (List.mem_of_getElem? ((List.getElem?_take_of_lt hcut).trans hfirst))
  exact ((hent.mem_iff _).mp hmem.1).2.1.trans_lt hmem.2

include hfresh

/-- The old leaf keeps the keys below the first one of the new leaf. -/
lemma LeafOk.lowerHalf (hleaf : LeafOk order d g root none leaf nd ks) (hlive : leaf ∈ g.live)
    (hlevel : g.level leaf = 0)
    (hr : Rewritten order (ks'.take (cut (order-1)))
      ((ks'.take (cut (order-1))).map fun k => .record ((d.insert key r).record k)) nd nd')
    (hlink : nd'.pointers[order-1]? = some (.node new)) :
    LeafOk order (d.insert key r) (g.split leaf new newKey.toNat) root (some (leaf,new)) leaf nd'
      (ks'.take (cut (order-1))) := by
  obtain ⟨-,-,hhi⟩ := (hent.mem_iff newKey).mp (List.mem_of_getElem? hnewKey)
  have hgrows : g.Grows (g.split leaf new newKey.toNat) := Labels.split_grows hfresh
  refine ⟨hr.isLeaf_eq.trans hleaf.isLeaf,hr.row,hent.sorted.sublist (List.take_sublist _ _),?_,?_,
    .inr ⟨new,Set.mem_insert new g.live,?_,?_,hlink⟩⟩
  · intro k
    rw [mem_take_iff UInt64.toNat hent.sorted hnewKey,hent.mem_iff,hgrows.lo_eq leaf hlive,
      Labels.split_hi_old]
    constructor
    · rintro ⟨⟨hk,hlo,-⟩,hlt⟩
      exact ⟨hk,hlo,hlt⟩
    · rintro ⟨hk,hlo,hlt⟩
      exact ⟨⟨hk,hlo,hlt.trans hhi⟩,hlt⟩
  · intro _
    have := cut_le (n := order-1)
    rw [List.length_take]
    omega
  · rw [Labels.split_level_new,hlevel]
  · rw [Labels.split_lo_new,Labels.split_hi_old]

/-- The new leaf has the others and the old one's link. -/
lemma LeafOk.upperHalf (hleaf : LeafOk order d g root none leaf nd ks) (hlive : leaf ∈ g.live)
    (hisLeaf : nd'.isLeaf = true)
    (hrow : Row order (ks'.drop (cut (order-1)))
      ((ks'.drop (cut (order-1))).map fun k => .record ((d.insert key r).record k)) nd')
    (hlink : nd'.pointers[order-1]? = nd.pointers[order-1]?) :
    LeafOk order (d.insert key r) (g.split leaf new newKey.toNat) root (some (leaf,new)) new nd'
      (ks'.drop (cut (order-1))) := by
  obtain ⟨-,hlo,-⟩ := (hent.mem_iff newKey).mp (List.mem_of_getElem? hnewKey)
  have hgrows : g.Grows (g.split leaf new newKey.toNat) := Labels.split_grows hfresh
  have hne : new ≠ leaf := (ne_of_mem_of_not_mem hlive hfresh).symm
  refine ⟨hisLeaf,hrow,hent.sorted.sublist (List.drop_sublist _ _),?_,?_,?_⟩
  · intro k
    rw [mem_drop_iff UInt64.toNat hent.sorted hnewKey,hent.mem_iff,Labels.split_lo_new,
      Labels.split_hi_new hne]
    constructor
    · rintro ⟨⟨hk,-,hhi⟩,hle⟩
      exact ⟨hk,hle,hhi⟩
    · rintro ⟨hk,hle,hhi⟩
      exact ⟨⟨hk,hlo.trans hle,hhi⟩,hle⟩
  · intro _
    have hlt := (List.getElem?_eq_some_iff.mp hnewKey).1
    have := two_mul_cut_le (order-1)
    rw [List.length_drop]
    omega
  · rw [hlink,Labels.split_hi_new hne]
    rcases hleaf.link with hnull | ⟨b,hb,hblevel,hblo,hlink⟩
    · exact .inl hnull
    · exact .inr ⟨b,hgrows.live b hb,by rw [hgrows.level_eq b hb,hblevel],
        by rw [hgrows.lo_eq b hb,hblo],hlink⟩

end Halves

/-- A full leaf is split, and the new leaf hangs beside it. -/
lemma Shape.splitLeaf (horder : 3 ≤ order) (hs : Shape order d g root none h)
    (hleads : Leads d g key leaf) (hkey : key ∉ d.keys) (hnd : h.node leaf = some nd)
    (hfull : ¬nd.numKeys < order-1) (r : Slot) :
    ∃ new newKey h',splitLeaf order h leaf key r = some (new,newKey,h') ∧ new ∉ g.live ∧
      h'.records = h.records ∧
      Shape order (d.insert key r) (g.split leaf new newKey.toNat) root (some (leaf,new)) h' := by
  obtain ⟨nd₀,ks,hnd₀,hleaf⟩ := hs.leaf hleads.live hleads.level_eq
  obtain rfl : nd₀ = nd := Option.some.inj (hnd₀.symm.trans hnd)
  obtain ⟨ks',hent⟩ := hleaf.entered hleads hkey r
  have hks : ks.length = order-1 := by
    have := hleaf.row.length_keys_le
    rw [hleaf.row.numKeys_eq] at hfull
    omega
  have hlen : ks'.length = order := by
    have := hent.length_eq
    omega
  obtain ⟨new,newKey,nd₁,nd₂,h',hsplit,hh,hr₁,hlink₁,hrow₂,hisLeaf₂,hparent₂,hlink₂,hnewKey⟩ :=
    splitLeaf_halves horder hs.ok hleads.live hnd hleaf.row (by simp) hks hent.keys_eq
      hent.pointers_eq.symm
  have hgrows : g.Grows (g.split leaf new newKey.toNat) := Labels.split_grows hh.fresh
  rw [← List.map_take] at hr₁
  rw [← List.map_drop] at hrow₂
  suffices hsplits : Splits order d (d.insert key r) g root none h leaf new newKey.toNat nd₁ nd₂
      [] h' by
    exact ⟨new,newKey,h',hsplit,hh.fresh,hh.records_eq,hsplits.shape hs⟩
  constructor
  · exact hh
  · exact hleads.live
  · exact hent.lo_lt hlen hnewKey horder
  · exact ((hent.mem_iff newKey).mp (List.mem_of_getElem? hnewKey)).2.2
  · exact fun _ _ _ => rfl
  · rw [hr₁.parent_eq,parent_of_node hnd]
  · rw [hparent₂,parent_of_node hnd]
  · exact .leaf _ (by rw [hgrows.level_eq leaf hleads.live,hleads.level_eq])
      (hleaf.lowerHalf hent hlen hnewKey hh.fresh hleads.live hleads.level_eq hr₁ hlink₁)
  · exact .leaf _ (by rw [Labels.split_level_new,hleads.level_eq])
      (hleaf.upperHalf hent hlen hnewKey hh.fresh hleads.live hisLeaf₂ hrow₂ hlink₂)
  · exact fun a ha hal hlevel => hs.agree hleads r ha hal hlevel
  · intro c hc
    simp at hc
  · exact fun hlevel => absurd hleads.level_eq hlevel.ne'
  · exact fun hlevel => absurd hleads.level_eq hlevel.ne'
  · rintro c (⟨hlevel,-⟩ | ⟨left,heq⟩)
    · exact absurd hleads.level_eq hlevel.ne'
    · simp at heq

end ElasticTranslations.Benchmarks.BTree
