import ElasticTranslations.Benchmarks.BTreeDeletions
import ElasticTranslations.Benchmarks.BTreeInsert

/-! Insertions and deletions, one after the other, keep the shape of the B+ tree, with an internal
root that has more than one child, and the values of its records. -/
namespace ElasticTranslations.Benchmarks.BTree
open Structures

inductive Operation where
  | insert (key value : UInt64)
  | delete (key : UInt64)
  deriving DecidableEq, Repr

namespace Operation

def key : Operation → UInt64
  | insert key _ => key
  | delete key => key

/-- The value of the key afterwards. -/
def value : Operation → Option UInt64
  | insert _ value => some value
  | delete _ => none

/-- Only an insertion can make the tree higher. -/
def growth : Operation → ℕ
  | insert _ _ => 1
  | delete _ => 0

def run (order fuel : ℕ) (t : Tree) : Operation → Option Tree
  | insert key value => BTree.insert order fuel t key value
  | delete key => BTree.delete order fuel t key

end Operation

/-- Operations one after the other. -/
def runAll (order fuel : ℕ) (t : Tree) (ops : List Operation) : Option Tree :=
  ops.foldlM (Operation.run order fuel) t

/-- What the last operation on a key left. -/
def valueAfter (ops : List Operation) (key : UInt64) : Option UInt64 :=
  (ops.reverse.find? fun op => op.key = key).bind Operation.value

/-- How many insertions there are. -/
def insertions (ops : List Operation) : ℕ := (ops.map Operation.growth).sum

/-- The values after some operations. -/
def assignAll (m : UInt64 → Option UInt64) (ops : List Operation) : UInt64 → Option UInt64 :=
  ops.foldl (fun m op => Function.update m op.key op.value) m

variable {order fuel n : ℕ} {d : Directory} {g : Labels} {root leaf : Slot} {h : Heap}
  {key : UInt64} {m : UInt64 → Option UInt64} {t : Tree}

/-- The directory with a key less. -/
def Directory.erase (d : Directory) (key : UInt64) : Directory where
  keys := d.keys \ {key}
  record := d.record

/-- A leaf without the entry of a key. -/
lemma LeafOk.removeKey {nd : Node} {ks : List UInt64}
    (hleaf : LeafOk order d g leaf none leaf nd ks) (hleads : Leads d g key leaf)
    (hkey : key ∈ d.keys) (hinj : Set.InjOn d.record d.keys) :
    ∃ nd' ks',nd.removeEntry order key (.record (d.record key)) = some nd' ∧
      LeafOk order (d.erase key) g leaf none leaf nd' ks' ∧ nd'.parent = nd.parent ∧
      ks.length = ks'.length+1 := by
  have hmem : key ∈ ks := (hleaf.mem_iff key).mpr ⟨hkey,hleads.lo_le,hleads.lt_hi⟩
  obtain ⟨i,hi⟩ := List.getElem?_of_mem hmem
  have hilt := (List.getElem?_eq_some_iff.mp hi).1
  have hnodup : ks.Nodup := hleaf.sorted.imp fun hlt => UInt64.ne_of_lt hlt
  obtain ⟨nd',hnd',⟨hrow,hisLeaf,hparent⟩,hlink⟩ := Node.removeEntry_row
    (p := .record (d.record key)) hleaf.row (by simp [hleaf.isLeaf]) hnodup
    (hnodup.map_on fun x hx y hy hxy =>
      hinj ((hleaf.mem_iff x).mp hx).1 ((hleaf.mem_iff y).mp hy).1 (Ptr.record.inj hxy)) hi
    (j := i) (by rw [List.getElem?_map,hi,Option.map_some])
  rw [List.eraseIdx_map] at hrow
  refine ⟨nd',ks.eraseIdx i,hnd',⟨hisLeaf.trans hleaf.isLeaf,hrow,
    hleaf.sorted.sublist (List.eraseIdx_sublist ks i),fun k => ?_,
    fun hcon => absurd (NodeOk.mayBeSmall_self leaf) hcon,?_⟩,hparent,?_⟩
  · have hget : ks[i] = key := List.getElem_eq_iff hilt |>.mpr hi
    rw [← hnodup.erase_getElem i hilt,hget,hnodup.mem_erase_iff,hleaf.mem_iff]
    simp only [Directory.erase,Set.mem_sdiff,Set.mem_singleton_iff]
    tauto
  · rw [hlink hleaf.isLeaf]
    exact hleaf.link
  · rw [List.length_eraseIdx_of_lt hilt]
    omega

/-- The other nodes do not notice it. -/
lemma Shrinking.agree (hs : Shrinking order d g root none ∅ h) (hleads : Leads d g key leaf)
    {a : Slot} (ha : a ∈ g.live) (hal : a ≠ leaf) (hzero : g.level a = 0) {k : UInt64}
    (hlo : g.lo a ≤ k.toNat) (hhi : k.toNat < g.hi a) : k ∈ (d.erase key).keys ↔ k ∈ d.keys := by
  have hne : k ≠ key := by
    rintro rfl
    exact hal (hs.tree.eq_of_mem ha hleads.live (hzero.trans hleads.level_eq.symm) ⟨hlo,hhi⟩
      ⟨hleads.lo_le,hleads.lt_hi⟩)
  simp [Directory.erase,hne]

/-- An entry leaves its leaf, which may lack a key then. -/
lemma Shrinking.removeKey (hs : Shrinking order d g root none ∅ h) (hleads : Leads d g key leaf)
    (hkey : key ∈ d.keys) (hinj : Set.InjOn d.record d.keys) :
    ∃ h',h.update leaf (Node.removeEntry order key (.record (d.record key))) = some h' ∧
      h'.records = h.records ∧ Shrinking order (d.erase key) g root (some leaf) ∅ h' := by
  obtain ⟨nd,ks,hnd,hleaf,hfill⟩ := hs.leaf hleads.live hleads.level_eq
  obtain ⟨nd',ks',hnd',hleaf',hparent,hlen⟩ := hleaf.removeKey hleads hkey hinj
  have hkids : ∀ a,0 < g.level a → (h.setNode leaf nd').kids a = h.kids a := by
    intro a hlevel
    refine h.kids_setNode_of_ne ?_ nd'
    rintro rfl
    exact hlevel.ne' hleads.level_eq
  have hparents := Heap.parent_setNode hnd hparent
  refine ⟨_,Heap.update_eq hnd hnd',rfl,?_⟩
  constructor
  · exact Heap.ok_setNode hs.ok (.inl hleads.live) nd'
  · exact hs.apart
  · exact hs.root_live
  · exact hs.root_lo
  · exact hs.root_hi
  · rw [hparents,hs.root_parent]
  · exact hs.level_le
  · intro a ha
    by_cases hal : a = leaf
    · subst hal
      refine ⟨nd',h.node_setNode_self a nd',.leaf ks' hleads.level_eq hleaf',fun hne => ?_⟩
      have := hfill hne
      rw [minKeys,if_pos hleaf'.isLeaf,hleaf'.row.numKeys_eq,if_pos rfl,← hlen]
      simpa using this
    · obtain ⟨nd₁,hnd₁,hok,hmin⟩ := hs.node a ha
      refine ⟨nd₁,(h.node_setNode_of_ne hal nd').trans hnd₁,hok.relabel (.refl nd₁) hnd₁ rfl rfl rfl
        (fun hpos c hc => ⟨(hs.kid ha hpos hc).1,rfl,rfl⟩) (fun _ b hb _ _ => ⟨hb,rfl⟩)
        (fun hzero k hlo hhi => ⟨hs.agree hleads ha hal hzero hlo hhi,fun _ => rfl⟩),fun hne => ?_⟩
      have := hmin hne
      simp only [reduceCtorEq,if_false] at this
      exact this.trans (Nat.le_add_right _ _)
  · intro a ha hlevel c hc
    rw [hkids a hlevel] at hc
    rw [hparents,hs.down a ha hlevel c hc]
  · intro a ha hne
    obtain ⟨p,hp,hlevel,hap⟩ := hs.up a ha hne
    exact ⟨p,hp,hlevel,by rwa [hkids p hlevel]⟩
  · exact fun _ => hs.branched (by simp)

/-- A record is freed with its key. -/
lemma Values.freeRecord (hv : Values d m h) (hkey : key ∈ d.keys) :
    ∃ h',h.freeRecord (d.record key) = some h' ∧ h'.nodes = h.nodes ∧
      Values (d.erase key) (Function.update m key none) h' := by
  obtain ⟨records,hpush,hok,hold⟩ := hv.ok.push (Set.mem_image_of_mem d.record hkey)
  have himage : (d.erase key).record '' (d.erase key).keys =
      d.record '' d.keys \ {d.record key} := by
    ext r
    simp only [Directory.erase,Set.mem_image,Set.mem_sdiff,Set.mem_singleton_iff]
    constructor
    · rintro ⟨k,⟨hk,hne⟩,rfl⟩
      exact ⟨⟨k,hk,rfl⟩,fun heq => hne (hv.injective hk hkey heq)⟩
    · rintro ⟨⟨k,hk,rfl⟩,hne⟩
      exact ⟨k,⟨hk,fun heq => hne (heq ▸ rfl)⟩,rfl⟩
  refine ⟨{ h with records },by simp [Heap.freeRecord,hpush],rfl,himage ▸ hok,
    hv.injective.mono Set.sdiff_subset,fun k => ?_,fun k v hkv => ?_⟩
  · by_cases hk : k = key
    · simp [hk,Directory.erase]
    · rw [Function.update_of_ne hk,← hv.mem_iff]
      simp [Directory.erase,hk]
  · have hk : k ≠ key := by
      rintro rfl
      simp at hkv
    rw [Function.update_of_ne hk] at hkv
    have hkd : k ∈ d.keys := (hv.mem_iff k).mpr (by simp [hkv])
    exact (hold _ fun heq => hk (hv.injective hkd hkey heq)).trans (hv.value_eq k v hkv)

namespace Good
variable (hg : Good order n m d t)
include hg

lemma update_of_not_mem (hkey : key ∉ d.keys) : Function.update m key none = m := by
  rw [hg.values.mem_iff,Option.not_isSome_iff_eq_none] at hkey
  rw [← hkey,Function.update_eq_self]

lemma delete (horder : 3 ≤ order) (hfuel : n ≤ fuel) (key : UInt64) :
    ∃ t' d',BTree.delete order fuel t key = some t' ∧
      Good order n (Function.update m key none) d' t' := by
  classical
  have hfind := hg.find_eq hfuel key
  cases hroot : t.root with
  | none =>
    have hkey : key ∉ d.keys := by simp [(hg.empty hroot).2]
    exact ⟨t,d,by simp [BTree.delete,hroot],by rwa [hg.update_of_not_mem hkey]⟩
  | some root =>
    rw [hroot] at hfind
    by_cases hkey : key ∈ d.keys
    · rw [if_pos hkey] at hfind
      obtain ⟨g,hs,hb,hlevel⟩ := hg.shape root hroot
      obtain ⟨leaf,hleaf,hleads⟩ := hs.findLeaf_root (hlevel.trans_le hfuel) key
      obtain ⟨h₁,hupdate,hrecords₁,hs₁⟩ :=
        (hs.shrinking hb).removeKey hleads hkey hg.values.injective
      obtain ⟨r,h₂,hdelete,hdeleted⟩ := hs₁.deleteEntry horder hleads.live hupdate
        (show g.level root < fuel+g.level leaf by omega)
      have hrecords₂ : h₂.records = t.heap.records := by
        cases r with
        | none => exact hdeleted.2.2.trans hrecords₁
        | some r => exact hdeleted.1.trans hrecords₁
      obtain ⟨h₃,hfree,hnodes,hvalues⟩ := (hg.values.congr hrecords₂).freeRecord hkey
      refine ⟨⟨h₃,r⟩,d.erase key,?_,hvalues,fun hnone => ?_,fun root' hsome => ?_⟩
      · simp [BTree.delete,hroot,hfind,hleaf,hdelete,hfree]
      · obtain rfl : r = none := hnone
        exact ⟨hnodes ▸ hdeleted.2.1,hdeleted.1⟩
      · obtain rfl : r = some root' := hsome
        obtain ⟨-,g',hs',hle⟩ := hdeleted
        exact ⟨g',hs'.shape.of_nodes_eq hnodes,hs'.branched (by simp),hle.trans_lt hlevel⟩
    · rw [if_neg hkey] at hfind
      exact ⟨t,d,by simp [BTree.delete,hroot,hfind],by rwa [hg.update_of_not_mem hkey]⟩

end Good

lemma Good.run (horder : 3 ≤ order) (hg : Good order n m d t) (hfuel : n ≤ fuel)
    (op : Operation) :
    ∃ t' d',op.run order fuel t = some t' ∧
      Good order (n+op.growth) (Function.update m op.key op.value) d' t' := by
  cases op with
  | insert key value => exact hg.insert horder hfuel key value
  | delete key => exact hg.delete horder hfuel key

lemma Good.runAll (horder : 3 ≤ order) {ops : List Operation} (hg : Good order n m d t)
    (hfuel : n+insertions ops ≤ fuel) :
    ∃ t' d',BTree.runAll order fuel t ops = some t' ∧
      Good order (n+insertions ops) (assignAll m ops) d' t' := by
  induction ops generalizing n m d t with
  | nil => exact ⟨t,d,rfl,hg⟩
  | cons op ops ih =>
    have hcount : insertions (op :: ops) = op.growth+insertions ops := rfl
    rw [hcount] at hfuel ⊢
    obtain ⟨t₁,d₁,hrun,hg₁⟩ := hg.run horder (show n ≤ fuel by omega) op
    obtain ⟨t',d',hrunAll,hg'⟩ := ih hg₁ (by omega)
    refine ⟨t',d',?_,?_⟩
    · rw [BTree.runAll] at hrunAll ⊢
      rw [List.foldlM_cons,hrun]
      exact hrunAll
    · rwa [← Nat.add_assoc]

lemma assignAll_eq (ops : List Operation) (k : UInt64) :
    assignAll m ops k =
      ((ops.reverse.find? fun op => op.key = k).map Operation.value).getD (m k) := by
  induction ops generalizing m with
  | nil => rfl
  | cons op ops ih =>
    have hcons : assignAll m (op :: ops) =
        assignAll (Function.update m op.key op.value) ops := rfl
    rw [hcons,ih,List.reverse_cons,List.find?_append]
    cases ops.reverse.find? fun op => op.key = k with
    | some op' => simp
    | none =>
      by_cases hk : op.key = k
      · simp [hk]
      · simp [hk,Function.update_of_ne (Ne.symm hk)]

lemma assignAll_none (ops : List Operation) :
    assignAll (fun _ => none) ops = valueAfter ops := by
  funext k
  rw [assignAll_eq,valueAfter]
  cases ops.reverse.find? fun op => op.key = k with
  | none => rfl
  | some op => rfl

end ElasticTranslations.Benchmarks.BTree
