import ElasticTranslations.Benchmarks.BTreeOperations

/-! What the B+ tree is after any sequence of operations, and of insertions only, from the empty
tree on. -/
namespace ElasticTranslations.Benchmarks.BTree
open Structures

namespace Heap

def rowKeys (h : Heap) (a : Slot) : List UInt64 :=
  match h.node a with
  | some nd => nd.keys.take nd.numKeys
  | none => []

/-- The records of a leaf. -/
def rowRecords (h : Heap) (a : Slot) : List Slot :=
  match h.node a with
  | some nd => (nd.pointers.take nd.numKeys).filterMap Ptr.record?
  | none => []

/-- The last pointer of a leaf is to the next one. -/
def LeafLink (order : ℕ) (h : Heap) (a : Slot) (next : Option Slot) : Prop :=
  ∃ nd,h.node a = some nd ∧ nd.pointers[order-1]? = some (next.elim .null .node)

end Heap

/-- At most `order-1` keys, in their arrays, strictly increasing and between two bounds. -/
structure KeysOk (order lo hi : ℕ) (nd : Node) : Prop where
  keys_length : nd.keys.length = order-1
  pointers_length : nd.pointers.length = order
  numKeys_le : nd.numKeys ≤ order-1
  increasing : (nd.keys.take nd.numKeys).Pairwise (· < ·)
  inside : ∀ k ∈ nd.keys.take nd.numKeys,lo ≤ k.toNat ∧ k.toNat < hi

/-- The subtree of a node: its height, the bounds of its keys and the parent of the node. A node
with no parent, the root, may have few keys. -/
def IsSubtree (order : ℕ) (h : Heap) : ℕ → ℕ → ℕ → Option Slot → Slot → Prop
  | 0,lo,hi,parent,a => ∃ nd,h.node a = some nd ∧ nd.isLeaf = true ∧ nd.parent = parent ∧
      KeysOk order lo hi nd ∧ (parent ≠ none → cut (order-1) ≤ nd.numKeys) ∧
      ∃ rs : List Slot,nd.pointers.take nd.numKeys = rs.map .record
  | n+1,lo,hi,parent,a => ∃ nd,h.node a = some nd ∧ nd.isLeaf = false ∧ nd.parent = parent ∧
      KeysOk order lo hi nd ∧ (parent ≠ none → cut order-1 ≤ nd.numKeys) ∧
      ∃ cs : List Slot,cs.length = nd.numKeys+1 ∧
        nd.pointers.take (nd.numKeys+1) = cs.map .node ∧
        ∀ (i : ℕ) (c : Slot) (l r : ℕ),cs[i]? = some c →
          (lo :: (nd.keys.take nd.numKeys).map UInt64.toNat)[i]? = some l →
          ((nd.keys.take nd.numKeys).map UInt64.toNat++[hi])[i]? = some r →
          IsSubtree order h n l r (some a) c

/-- The B+ tree under a root whose leaves hold the keys of a set: its nodes and records are the
cells of the slabs that are in use, each of them once. -/
structure IsBTree (order height : ℕ) (h : Heap) (root : Slot) (keys : Set UInt64) : Prop where
  subtree : IsSubtree order h height 0 (2^64) none root
  chained : Chained (h.LeafLink order) (subtreeLeaves h.kids height root)
  ascending : ((subtreeLeaves h.kids height root).flatMap h.rowKeys).Pairwise (· < ·)
  mem_keys : ∀ k,k ∈ (subtreeLeaves h.kids height root).flatMap h.rowKeys ↔ k ∈ keys
  nodes_once : nodeLayout.UsedOnce h.nodes (subtreeNodes h.kids height root)
  records_once : recordLayout.UsedOnce h.records
    ((subtreeLeaves h.kids height root).flatMap h.rowRecords)

/-- With no key there is no node and no record. -/
def Tree.IsBTree (order : ℕ) (t : Tree) (keys : Set UInt64) : Prop :=
  match t.root with
  | none => keys = ∅ ∧ nodeLayout.UsedOnce t.heap.nodes [] ∧ recordLayout.UsedOnce t.heap.records []
  | some root => ∃ height,BTree.IsBTree order height t.heap root keys

/-- The value last inserted for a key. -/
def lastValue (kvs : List (UInt64 × UInt64)) (key : UInt64) : Option UInt64 :=
  (kvs.reverse.find? fun kv => kv.1 = key).map Prod.snd

/-- A lookup finds a record with this value, or nothing. -/
def Finds (fuel : ℕ) (t : Tree) (key : UInt64) (value : Option UInt64) : Prop :=
  match value with
  | none => find fuel t.heap t.root key = some none
  | some v => ∃ r,find fuel t.heap t.root key = some (some r) ∧
      t.heap.records.cells r = some (.value v)

variable {order fuel n : ℕ} {d : Directory} {g : Labels} {root a : Slot} {h : Heap}
  {m : UInt64 → Option UInt64} {t : Tree} {nd : Node} {ks : List UInt64} {ps : List Ptr}

lemma Row.keysOk {lo hi : ℕ} (hrow : Row order ks ps nd) (hinc : ks.Pairwise (· < ·))
    (hin : ∀ k ∈ ks,lo ≤ k.toNat ∧ k.toNat < hi) : KeysOk order lo hi nd where
  keys_length := hrow.keys_length
  pointers_length := hrow.pointers_length
  numKeys_le := hrow.numKeys_eq ▸ hrow.length_keys_le
  increasing := by
    rw [hrow.numKeys_eq,hrow.keys_take]
    exact hinc
  inside := by
    rw [hrow.numKeys_eq,hrow.keys_take]
    exact hin

lemma LeafOk.rowKeys_eq {hang : Option (Slot × Slot)} (hleaf : LeafOk order d g root hang a nd ks)
    (hnd : h.node a = some nd) : h.rowKeys a = ks := by
  simp only [Heap.rowKeys,hnd]
  rw [hleaf.row.numKeys_eq,hleaf.row.keys_take]

lemma LeafOk.rowRecords_eq {hang : Option (Slot × Slot)}
    (hleaf : LeafOk order d g root hang a nd ks) (hnd : h.node a = some nd) :
    h.rowRecords a = ks.map d.record := by
  have htake := hleaf.row.pointers_take
  rw [List.length_map] at htake
  simp only [Heap.rowRecords,hnd]
  rw [hleaf.row.numKeys_eq,htake,← filterMap_record? (ks.map d.record),List.map_map]
  rfl

namespace Shape
variable (hs : Shape order d g root none h)
include hs

lemma not_mayBeSmall (ha : h.parent a ≠ none) : ¬MayBeSmall root none a := by
  rintro ⟨rfl,-⟩
  exact ha hs.root_parent

lemma isSubtree (ha : a ∈ g.live) :
    IsSubtree order h (g.level a) (g.lo a) (g.hi a) (h.parent a) a := by
  induction hn : g.level a generalizing a with
  | zero =>
    obtain ⟨nd,ks,hnd,hleaf⟩ := hs.leaf ha hn
    have htake := hleaf.row.pointers_take
    rw [List.length_map,← hleaf.row.numKeys_eq] at htake
    refine ⟨nd,hnd,hleaf.isLeaf,(parent_of_node hnd).symm,?_,fun hparent => ?_,ks.map d.record,?_⟩
    · exact hleaf.row.keysOk hleaf.sorted fun k hk => ((hleaf.mem_iff k).mp hk).2
    · rw [hleaf.row.numKeys_eq]
      exact hleaf.fill (hs.not_mayBeSmall hparent)
    · rw [htake,List.map_map]
      rfl
  | succ n ih =>
    obtain ⟨nd,ks,c,cs,hnd,hinner,hkids⟩ := hs.inner ha (by omega)
    have htake := hinner.row.pointers_take
    have hlen : (c :: cs).length = nd.numKeys+1 := by
      rw [List.length_cons,hinner.length_eq,hinner.row.numKeys_eq]
    have hks : nd.keys.take nd.numKeys = ks := by
      rw [hinner.row.numKeys_eq,hinner.row.keys_take]
    rw [List.length_map,hlen] at htake
    refine ⟨nd,hnd,hinner.isLeaf,(parent_of_node hnd).symm,?_,fun hparent => ?_,c :: cs,hlen,htake,
      ?_⟩
    · refine hinner.row.keysOk hinner.sorted fun k hk => ?_
      have hmem : k.toNat ∈ cs.map g.lo := hinner.keys_eq ▸ List.mem_map_of_mem hk
      obtain ⟨b,hb,hbk⟩ := List.mem_map.mp hmem
      have hb := hinner.tiles.mem (List.mem_cons_of_mem c hb)
      rw [← hbk]
      exact ⟨hb.1,hb.2.1.trans_le hb.2.2⟩
    · rw [hinner.row.numKeys_eq]
      exact hinner.fill (hs.not_mayBeSmall hparent)
    · intro i b l r hb hl hr
      have hmem := List.mem_of_getElem? hb
      obtain ⟨hblive,hblevel⟩ := hinner.kid b hmem
      have hlo : g.lo a :: cs.map g.lo = (c :: cs).map g.lo := by
        rw [List.map_cons,hinner.tiles.1]
      rw [hks,hinner.keys_eq] at hl hr
      rw [hlo,List.getElem?_map,hb] at hl
      rw [← hinner.tiles.map_hi,List.getElem?_map,hb] at hr
      obtain rfl : g.lo b = l := by simpa using hl
      obtain rfl : g.hi b = r := by simpa using hr
      rw [← hs.down a ha (by omega) b (hkids ▸ hmem)]
      exact ih hblive (by omega)

lemma chained : Chained (h.LeafLink order) (subtreeLeaves h.kids (g.level root) root) := by
  apply hs.tree.chained_subtreeLeaves
  intro a ha hlevel
  obtain ⟨nd,ks,hnd,hleaf⟩ := hs.leaf ha hlevel
  rcases hleaf.link with ⟨hnull,hend⟩ | ⟨b,hb,hblevel,hblo,hlink⟩
  · exact .inl ⟨⟨nd,hnd,hnull⟩,hend.trans hs.root_hi.symm⟩
  · exact .inr ⟨b,hb,hblevel,hblo,nd,hnd,hlink⟩

lemma ascending :
    ((subtreeLeaves h.kids (g.level root) root).flatMap h.rowKeys).Pairwise (· < ·) := by
  have hleaves := fun a => (hs.tree.mem_subtreeLeaves_root (b := a)).mp
  rw [List.pairwise_flatMap]
  constructor
  · intro a ha
    obtain ⟨nd,ks,hnd,hleaf⟩ := hs.leaf (hleaves a ha).1 (hleaves a ha).2
    rw [hleaf.rowKeys_eq hnd]
    exact hleaf.sorted
  · refine (hs.tree.tiles_subtreeLeaves hs.root_live).pairwise.imp_of_mem ?_
    intro a b ha hb hab x hx y hy
    obtain ⟨nda,ksa,hnda,hleafa⟩ := hs.leaf (hleaves a ha).1 (hleaves a ha).2
    obtain ⟨ndb,ksb,hndb,hleafb⟩ := hs.leaf (hleaves b hb).1 (hleaves b hb).2
    rw [hleafa.rowKeys_eq hnda,hleafa.mem_iff] at hx
    rw [hleafb.rowKeys_eq hndb,hleafb.mem_iff] at hy
    exact UInt64.lt_iff_toNat_lt.mpr (hx.2.2.trans_le (hab.trans hy.2.1))

lemma mem_keys (k : UInt64) :
    k ∈ (subtreeLeaves h.kids (g.level root) root).flatMap h.rowKeys ↔ k ∈ d.keys := by
  rw [List.mem_flatMap]
  constructor
  · rintro ⟨a,ha,hk⟩
    obtain ⟨halive,hlevel⟩ := hs.tree.mem_subtreeLeaves_root.mp ha
    obtain ⟨nd,ks,hnd,hleaf⟩ := hs.leaf halive hlevel
    rw [hleaf.rowKeys_eq hnd] at hk
    exact ((hleaf.mem_iff k).mp hk).1
  · intro hk
    obtain ⟨leaf,-,hleads⟩ := hs.findLeaf_root (Nat.lt_succ_self _) k
    obtain ⟨nd,ks,hnd,hleaf⟩ := hs.leaf hleads.live hleads.level_eq
    refine ⟨leaf,hs.tree.mem_subtreeLeaves_root.mpr ⟨hleads.live,hleads.level_eq⟩,?_⟩
    rw [hleaf.rowKeys_eq hnd,hleaf.mem_iff]
    exact ⟨hk,hleads.lo_le,hleads.lt_hi⟩

lemma records_eq : (subtreeLeaves h.kids (g.level root) root).flatMap h.rowRecords =
    ((subtreeLeaves h.kids (g.level root) root).flatMap h.rowKeys).map d.record := by
  rw [List.map_flatMap]
  apply List.flatMap_congr
  intro a ha
  obtain ⟨halive,hlevel⟩ := hs.tree.mem_subtreeLeaves_root.mp ha
  obtain ⟨nd,ks,hnd,hleaf⟩ := hs.leaf halive hlevel
  rw [hleaf.rowKeys_eq hnd,hleaf.rowRecords_eq hnd]

/-- The shape and the values say all about the tree. -/
lemma isBTree (hv : Values d m h) : IsBTree order (g.level root) h root d.keys where
  subtree := by
    have := hs.isSubtree hs.root_live
    have hhi : g.hi root = 2^64 := hs.root_hi
    rwa [hs.root_lo,hhi,hs.root_parent] at this
  chained := hs.chained
  ascending := hs.ascending
  mem_keys := hs.mem_keys
  nodes_once := hs.ok.usedOnce (hs.tree.nodup_subtreeNodes hs.root_live) fun a =>
    hs.tree.mem_subtreeNodes_root
  records_once := by
    rw [hs.records_eq]
    apply hv.ok.usedOnce
    · refine List.Nodup.map_on ?_ (hs.ascending.imp fun hab => UInt64.ne_of_lt hab)
      intro k hk k' hk' heq
      exact hv.injective ((hs.mem_keys k).mp hk) ((hs.mem_keys k').mp hk') heq
    · intro r
      rw [List.mem_map,Set.mem_image]
      simp only [hs.mem_keys]

end Shape

lemma Good.isBTree (hg : Good order n m d t) : t.IsBTree order d.keys := by
  cases hroot : t.root with
  | none =>
    obtain ⟨hok,hkeys⟩ := hg.empty hroot
    have hrecords := hg.values.ok
    rw [hkeys,Set.image_empty] at hrecords
    simp only [Tree.IsBTree,hroot]
    exact ⟨hkeys,hok.usedOnce List.nodup_nil (by simp),hrecords.usedOnce List.nodup_nil (by simp)⟩
  | some root =>
    obtain ⟨g,hs,-⟩ := hg.shape root hroot
    simp only [Tree.IsBTree,hroot]
    exact ⟨_,hs.isBTree hg.values⟩

lemma Good.finds (hg : Good order n m d t) (hfuel : n ≤ fuel) (k : UInt64) :
    Finds fuel t k (m k) := by
  classical
  have hfind := hg.find_eq hfuel k
  have hmem := hg.values.mem_iff k
  cases hk : m k with
  | none =>
    rw [if_neg (by simp [hmem,hk])] at hfind
    exact hfind
  | some v =>
    rw [if_pos (by simp [hmem,hk])] at hfind
    exact ⟨_,hfind,hg.values.value_eq k v hk⟩

/-- Any sequence of insertions and deletions makes a B+ tree of the keys that are left, in which
lookups find the values last inserted; nodes and records that are no longer in use are free. -/
theorem runAll_isBTree {order fuel : ℕ} (horder : 3 ≤ order) (ops : List Operation)
    (hfuel : insertions ops ≤ fuel) :
    ∃ t,runAll order fuel Tree.empty ops = some t ∧
      t.IsBTree order {k | (valueAfter ops k).isSome} ∧ ∀ k,Finds fuel t k (valueAfter ops k) := by
  obtain ⟨t,d,hrun,hg⟩ := good_empty.runAll horder (show 0+insertions ops ≤ fuel by omega)
  rw [assignAll_none] at hg
  have hkeys : d.keys = {k | (valueAfter ops k).isSome} := by
    ext k
    exact hg.values.mem_iff k
  exact ⟨t,hrun,hkeys ▸ hg.isBTree,hg.finds (by omega)⟩

/-- The leaf of `1` and `2` borrows from its neighbor at the first deletion, and is merged with it
at the second one. -/
theorem runAll_isBTree_order_four :
    ∃ t,runAll 4 5 Tree.empty [.insert 1 10,.insert 2 20,.insert 3 30,.insert 4 40,.insert 5 50,
        .delete 1,.delete 2] = some t ∧
      t.IsBTree 4 {k | (valueAfter [.insert 1 10,.insert 2 20,.insert 3 30,.insert 4 40,
        .insert 5 50,.delete 1,.delete 2] k).isSome} ∧
      ∀ k,Finds 5 t k (valueAfter [.insert 1 10,.insert 2 20,.insert 3 30,.insert 4 40,
        .insert 5 50,.delete 1,.delete 2] k) :=
  runAll_isBTree (by decide) _ (by decide)

/-- The entries, as operations. -/
def insertsOf (kvs : List (UInt64 × UInt64)) : List Operation :=
  kvs.map fun kv => .insert kv.1 kv.2

lemma runAll_insertsOf (t : Tree) (kvs : List (UInt64 × UInt64)) :
    runAll order fuel t (insertsOf kvs) = insertAll order fuel t kvs := by
  rw [runAll,insertsOf,List.foldlM_map]
  rfl

lemma insertions_insertsOf (kvs : List (UInt64 × UInt64)) :
    insertions (insertsOf kvs) = kvs.length := by
  induction kvs with
  | nil => rfl
  | cons kv kvs ih =>
    have hcons : insertions (insertsOf (kv :: kvs)) = 1+insertions (insertsOf kvs) := rfl
    rw [hcons,ih,List.length_cons,Nat.add_comm]

lemma assignAll_insertsOf (kvs : List (UInt64 × UInt64)) :
    assignAll (fun _ => none) (insertsOf kvs) = lastValue kvs := by
  funext k
  have hfind : (kvs.reverse.find? ((fun op : Operation => decide (op.key = k)) ∘
      fun kv => .insert kv.1 kv.2)) = kvs.reverse.find? fun kv => kv.1 = k := rfl
  rw [assignAll_eq,lastValue,insertsOf,← List.map_reverse,List.find?_map,hfind]
  cases kvs.reverse.find? fun kv => kv.1 = k with
  | none => rfl
  | some kv => rfl

/-- Insertions are operations of one kind. -/
lemma insertAll_good (horder : 3 ≤ order) (kvs : List (UInt64 × UInt64))
    (hfuel : kvs.length ≤ fuel) :
    ∃ t d,insertAll order fuel Tree.empty kvs = some t ∧
      Good order kvs.length (lastValue kvs) d t := by
  have hcount := insertions_insertsOf kvs
  obtain ⟨t,d,hrun,hg⟩ := good_empty.runAll horder
    (show 0+insertions (insertsOf kvs) ≤ fuel by omega)
  rw [runAll_insertsOf] at hrun
  rw [assignAll_insertsOf,hcount,Nat.zero_add] at hg
  exact ⟨t,d,hrun,hg⟩

lemma isSome_lastValue (kvs : List (UInt64 × UInt64)) (k : UInt64) :
    (lastValue kvs k).isSome ↔ k ∈ kvs.map Prod.fst := by
  simp [lastValue]

/-- Any sequence of insertions into the empty tree makes a B+ tree of its keys, in which lookups
find the values last inserted. -/
theorem insertAll_isBTree {order fuel : ℕ} (horder : 3 ≤ order) (kvs : List (UInt64 × UInt64))
    (hfuel : kvs.length ≤ fuel) :
    ∃ t,insertAll order fuel Tree.empty kvs = some t ∧
      t.IsBTree order {k | k ∈ kvs.map Prod.fst} ∧ ∀ k,Finds fuel t k (lastValue kvs k) := by
  obtain ⟨t,d,hinsert,hg⟩ := insertAll_good horder kvs hfuel
  have hkeys : d.keys = {k | k ∈ kvs.map Prod.fst} := by
    ext k
    exact (hg.values.mem_iff k).trans (isSome_lastValue kvs k)
  exact ⟨t,hinsert,hkeys ▸ hg.isBTree,hg.finds hfuel⟩

theorem insertAll_isBTree_order_three :
    ∃ t,insertAll 3 4 Tree.empty [(5,50),(1,10),(9,90),(5,51)] = some t ∧
      t.IsBTree 3 {k | k ∈ [5,1,9,5]} ∧
      ∀ k,Finds 4 t k (lastValue [(5,50),(1,10),(9,90),(5,51)] k) :=
  insertAll_isBTree (by decide) [(5,50),(1,10),(9,90),(5,51)] (by decide)

end ElasticTranslations.Benchmarks.BTree
