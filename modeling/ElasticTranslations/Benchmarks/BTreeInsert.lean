import ElasticTranslations.Benchmarks.BTreeLeaves
import ElasticTranslations.Benchmarks.BTreeBranches
import Mathlib.Data.Set.Function

/-! One insertion keeps the shape of the B+ tree and the values of its records, and makes the tree
higher by at most one level. -/
namespace ElasticTranslations.Benchmarks.BTree
open Structures
variable {order fuel n : ℕ} {d : Directory} {g : Labels} {root left right : Slot} {h : Heap}
  {key value : UInt64} {m : UInt64 → Option UInt64}

/-- The splits go up until a node has room or the root is split. -/
lemma Shape.insertIntoParent (horder : 3 ≤ order) (hs : Shape order d g root (some (left,right)) h)
    (hb : g.Branched root) (hfuel : g.level root < g.level left+fuel)
    (hkey : g.lo right = key.toNat) :
    ∃ root' h' g',insertIntoParent order root fuel h left key right = some (root',h') ∧
      h'.records = h.records ∧ Shape order d g' root' none h' ∧ g'.Branched root' ∧
      g'.level root' ≤ g.level root+1 := by
  induction fuel generalizing g left key right h with
  | zero =>
    have := hs.level_le left (hs.hangs left right rfl).left_live
    omega
  | succ fuel ih =>
    obtain ⟨nd,hnd,-⟩ := hs.node left (hs.hangs left right rfl).left_live
    cases hp : h.parent left with
    | none =>
      obtain ⟨new,h',hnew,hrecords,hshape,hbranched⟩ := hs.insertIntoNewRoot horder hp hkey
      rw [parent_of_node hnd] at hp
      refine ⟨new,h',_,?_,hrecords,hshape,hbranched,Labels.addRoot_level_new.le⟩
      simp [BTree.insertIntoParent,hnd,hp,hnew]
    | some p =>
      obtain ⟨ndp,ks,c,cs,_,hplive,-,hndp,hinner,-,hat,-⟩ := hs.exists_parent hp
      have hlevel := (hinner.kid left (List.mem_of_getElem? hat)).2
      have hple := hs.level_le p hplive
      by_cases hroom : ndp.numKeys < order-1
      · obtain ⟨i,h',hindex,hupdate,hrecords,hshape⟩ := hs.insertIntoNode hp hndp hroom hkey
        rw [parent_of_node hnd] at hp
        refine ⟨root,h',g,?_,hrecords,hshape,hb,Nat.le_succ _⟩
        simp [BTree.insertIntoParent,hnd,hp,hindex,hndp,hroom,hupdate]
      · obtain ⟨i,new,kPrime,h₁,hindex,hsplit,hnew,hrecords₁,hshape₁⟩ :=
          hs.splitNode horder hp hndp hroom hkey
        have hgrows : g.Grows (g.split p new kPrime.toNat) := Labels.split_grows hnew
        have hroot := hgrows.level_eq root hs.root_live
        have hpe := hgrows.level_eq p hplive
        obtain ⟨root',h',g',hinsert,hrecords,hshape,hbranched,hle⟩ := ih hshape₁
          (hgrows.branched hs.root_live hb) (by rw [hroot,hpe]; omega) (Labels.split_lo_new g)
        rw [parent_of_node hnd] at hp
        refine ⟨root',h',g',?_,hrecords.trans hrecords₁,hshape,hbranched,by rwa [hroot] at hle⟩
        simp [BTree.insertIntoParent,hnd,hp,hindex,hndp,hroom,insertIntoNodeAfterSplitting,hsplit,
          hinsert]

/-- The labels of a tree that is a single leaf. -/
def Labels.single (root : Slot) : Labels where
  live := {root}
  level _ := 0
  lo _ := 0
  hi _ := 2^64

/-- The first insertion makes a leaf the root. -/
lemma startNewTree_shape (horder : 3 ≤ order) (hok : nodeLayout.Ok h.nodes ∅) (hd : d.keys = ∅)
    (key : UInt64) (r : Slot) :
    ∃ root h' g,startNewTree order h key r = some (root,h') ∧ h'.records = h.records ∧
      Shape order (d.insert key r) g root none h' ∧ g.level root = 0 := by
  obtain ⟨root,nd,h',hstart,hadds,hrow,hisLeaf,hparent,hlink⟩ := startNewTree_adds horder hok key r
  have hleaf : LeafOk order (d.insert key r) (.single root) root none root nd [key] := by
    refine ⟨hisLeaf,by simpa using hrow,by simp,fun k => ?_,fun hcon => absurd ⟨rfl,by simp⟩ hcon,
      .inl ⟨hlink,rfl⟩⟩
    rw [Directory.mem_insert,hd,List.mem_singleton]
    have := k.toNat_lt
    simp [Labels.single,this]
  refine ⟨root,h',.single root,hstart,hadds.records_eq,?_,rfl⟩
  constructor
  · simpa [Labels.single] using hadds.ok
  · exact rfl
  · rfl
  · rfl
  · rw [parent_of_node hadds.node_eq,hparent]
  · exact fun _ _ => le_rfl
  · rintro a rfl
    exact ⟨nd,hadds.node_eq,.leaf [key] rfl hleaf⟩
  · exact fun _ _ hlevel => absurd hlevel (lt_irrefl 0)
  · rintro a rfl hne
    exact absurd rfl hne
  · intro l r heq
    simp at heq

/-- Each key of the tree has a record of its own, with the value last inserted for it. -/
structure Values (d : Directory) (m : UInt64 → Option UInt64) (h : Heap) : Prop where
  ok : recordLayout.Ok h.records (d.record '' d.keys)
  injective : Set.InjOn d.record d.keys
  mem_iff : ∀ k,k ∈ d.keys ↔ (m k).isSome
  value_eq : ∀ k v,m k = some v → h.records.cells (d.record k) = some (.value v)

namespace Values

lemma congr {h' : Heap} (hv : Values d m h) (hrecords : h'.records = h.records) : Values d m h' :=
  ⟨hrecords ▸ hv.ok,hv.injective,hv.mem_iff,hrecords ▸ hv.value_eq⟩

/-- The record of a key takes a new value. -/
lemma setValue (hv : Values d m h) (hkey : key ∈ d.keys) (value : UInt64) :
    ∃ h',h.setValue (d.record key) value = some h' ∧ h'.nodes = h.nodes ∧
      Values d (Function.update m key (some value)) h' := by
  have hlive : d.record key ∈ d.record '' d.keys := Set.mem_image_of_mem d.record hkey
  obtain ⟨a,ha⟩ := Option.isSome_iff_exists.mp (hv.ok.live_isSome _ hlive)
  refine ⟨{ h with records := h.records.store (d.record key) (.value value) },?_,rfl,
    hv.ok.store hlive _,hv.injective,?_,?_⟩
  · simp [Heap.setValue,ha]
  · intro k
    by_cases hk : k = key
    · simp [hk,hkey]
    · rw [Function.update_of_ne hk,hv.mem_iff]
  · intro k v hkv
    by_cases hk : k = key
    · subst hk
      obtain rfl : value = v := by simpa using hkv
      exact h.records.store_cells_self _ _
    · rw [Function.update_of_ne hk] at hkv
      have hkd : k ∈ d.keys := (hv.mem_iff k).mpr (by simp [hkv])
      have hne : d.record k ≠ d.record key := fun heq => hk (hv.injective hkd hkey heq)
      exact (h.records.store_cells_of_ne hne _).trans (hv.value_eq k v hkv)

/-- A new key gets a record that no other key has. -/
lemma makeRecord (hv : Values d m h) (hkey : key ∉ d.keys) (value : UInt64) :
    ∃ r h',makeRecord h value = some (r,h') ∧ h'.nodes = h.nodes ∧
      Values (d.insert key r) (Function.update m key (some value)) h' := by
  obtain ⟨r,records,a,halloc,hfresh,hok,ha,hold⟩ := hv.ok.alloc
  have hne : ∀ k ∈ d.keys,k ≠ key := fun k hk => ne_of_mem_of_not_mem hk hkey
  have hrecord : ∀ k ∈ d.keys,(d.insert key r).record k = d.record k :=
    fun k hk => Directory.insert_record_of_ne (hne k hk)
  have himage : (d.insert key r).record '' (d.insert key r).keys =
      Insert.insert r (d.record '' d.keys) := by
    rw [show (d.insert key r).keys = Insert.insert key d.keys from rfl,Set.image_insert_eq,
      Directory.insert_record_self,Set.image_congr hrecord]
  refine ⟨r,{ h with records := records.store r (.value value) },?_,rfl,?_,?_,?_,?_⟩
  · simp [BTree.makeRecord,Heap.allocRecord,halloc,Heap.setValue,ha]
  · rw [himage]
    exact hok.store (Set.mem_insert r _) _
  · intro k hins k' hins' heq
    rcases Directory.mem_insert.mp hins with rfl | hk
    · rcases Directory.mem_insert.mp hins' with rfl | hk'
      · rfl
      · rw [Directory.insert_record_self,hrecord k' hk'] at heq
        exact absurd ⟨k',hk',heq.symm⟩ hfresh
    · rcases Directory.mem_insert.mp hins' with rfl | hk'
      · rw [Directory.insert_record_self,hrecord k hk] at heq
        exact absurd ⟨k,hk,heq⟩ hfresh
      · rw [hrecord k hk,hrecord k' hk'] at heq
        exact hv.injective hk hk' heq
  · intro k
    rw [Directory.mem_insert]
    by_cases hk : k = key
    · simp [hk]
    · rw [Function.update_of_ne hk,or_iff_right hk,hv.mem_iff]
  · intro k v hkv
    by_cases hk : k = key
    · subst hk
      obtain rfl : value = v := by simpa using hkv
      rw [Directory.insert_record_self]
      exact records.store_cells_self _ _
    · rw [Function.update_of_ne hk] at hkv
      have hkd : k ∈ d.keys := (hv.mem_iff k).mpr (by simp [hkv])
      have hlive : d.record k ∈ d.record '' d.keys := Set.mem_image_of_mem d.record hkd
      rw [hrecord k hkd]
      exact (records.store_cells_of_ne (ne_of_mem_of_not_mem hlive hfresh) _).trans
        ((hold _ hlive).trans (hv.value_eq k v hkv))

end Values

/-- A tree no higher than `n`, in which each key has the value of a map. -/
structure Good (order n : ℕ) (m : UInt64 → Option UInt64) (d : Directory) (t : Tree) : Prop where
  values : Values d m t.heap
  empty : t.root = none → nodeLayout.Ok t.heap.nodes ∅ ∧ d.keys = ∅
  shape : ∀ root,t.root = some root →
    ∃ g,Shape order d g root none t.heap ∧ g.Branched root ∧ g.level root < n

lemma Shape.of_nodes_eq {hang : Option (Slot × Slot)} {h' : Heap} (hs : Shape order d g root hang h)
    (hnodes : h'.nodes = h.nodes) : Shape order d g root hang h' := by
  have hnode : h'.node = h.node := by
    funext a
    rw [Heap.node,hnodes,Heap.node]
  have hkids : h'.kids = h.kids := by
    funext a
    rw [Heap.kids,hnode,Heap.kids]
  have hparent : h'.parent = h.parent := by
    funext a
    rw [Heap.parent,hnode,Heap.parent]
  refine ⟨hnodes ▸ hs.ok,hs.root_live,hs.root_lo,hs.root_hi,?_,hs.level_le,?_,?_,?_,?_⟩
  · rw [hparent]
    exact hs.root_parent
  · rw [hnode]
    exact hs.node
  · rw [hparent,hkids]
    exact hs.down
  · rw [hkids]
    exact hs.up
  · intro l r heq
    have hh := hs.hangs l r heq
    exact ⟨hh.left_live,hh.right_live,hh.level_eq,hh.lo_eq,hh.left_lt,hh.right_lt,
      by rw [hparent]; exact hh.parent_eq,hh.ne_root⟩

namespace Good
variable {t : Tree}

lemma find_eq (hg : Good order n m d t) (hfuel : n ≤ fuel) (key : UInt64)
    [Decidable (key ∈ d.keys)] :
    find fuel t.heap t.root key = some (if key ∈ d.keys then some (d.record key) else none) := by
  cases hroot : t.root with
  | none => simp [find,(hg.empty hroot).2]
  | some root =>
    obtain ⟨g,hs,-,hlevel⟩ := hg.shape root hroot
    exact hs.find_eq (hlevel.trans_le hfuel) key

lemma mono {n' : ℕ} (hg : Good order n m d t) (hn : n ≤ n') : Good order n' m d t :=
  { hg with
    shape := fun root hroot => by
      obtain ⟨g,hs,hb,hlevel⟩ := hg.shape root hroot
      exact ⟨g,hs,hb,hlevel.trans_le hn⟩ }

/-- A key that the tree has gets its new value. -/
lemma setValue (hg : Good order n m d t) (hkey : key ∈ d.keys) (value : UInt64) :
    ∃ heap,t.heap.setValue (d.record key) value = some heap ∧
      Good order n (Function.update m key (some value)) d { t with heap } := by
  obtain ⟨heap,hset,hnodes,hvalues⟩ := hg.values.setValue hkey value
  refine ⟨heap,hset,hvalues,fun hroot => ?_,fun root hroot => ?_⟩
  · obtain ⟨hok,hkeys⟩ := hg.empty hroot
    exact ⟨hnodes ▸ hok,hkeys⟩
  · obtain ⟨g,hs,hb,hlevel⟩ := hg.shape root hroot
    exact ⟨g,hs.of_nodes_eq hnodes,hb,hlevel⟩

/-- A key that the tree has not gets a record and a place in a leaf. -/
lemma insertNew (horder : 3 ≤ order) (hg : Good order n m d t) (hfuel : n ≤ fuel)
    (hkey : key ∉ d.keys) (value : UInt64) :
    ∃ root heap d',insertNew order fuel t key value = some (root,heap) ∧
      Good order (n+1) (Function.update m key (some value)) d' ⟨heap,some root⟩ := by
  obtain ⟨r,h,hmake,hnodes,hvalues⟩ := hg.values.makeRecord hkey value
  have hgood : ∀ root h' g,h'.records = h.records → Shape order (d.insert key r) g root none h' →
      g.Branched root → g.level root ≤ n →
      Good order (n+1) (Function.update m key (some value)) (d.insert key r) ⟨h',some root⟩ := by
    intro root h' g hrecords hs hb hlevel
    refine ⟨hvalues.congr hrecords,fun hcon => by simp at hcon,fun root' heq => ?_⟩
    obtain rfl : root = root' := Option.some.inj heq
    exact ⟨g,hs,hb,Nat.lt_succ_of_le hlevel⟩
  cases hroot : t.root with
  | none =>
    obtain ⟨hok,hkeys⟩ := hg.empty hroot
    obtain ⟨root,h',g,hstart,hrecords,hs,hlevel⟩ :=
      startNewTree_shape (h := h) horder (hnodes ▸ hok) hkeys key r
    refine ⟨root,h',_,?_,hgood root h' g hrecords hs (fun hpos => ?_) (by omega)⟩
    · simp [BTree.insertNew,hmake,hroot,hstart]
    · omega
  | some root =>
    obtain ⟨g,hs₀,hb,hlevel⟩ := hg.shape root hroot
    have hs := hs₀.of_nodes_eq hnodes
    obtain ⟨leaf,hfind,hleads⟩ := hs.findLeaf_root (hlevel.trans_le hfuel) key
    obtain ⟨nd,ks,hnd,-⟩ := hs.leaf hleads.live hleads.level_eq
    by_cases hroom : nd.numKeys < order-1
    · obtain ⟨h',hupdate,hrecords,hs'⟩ := hs.insertIntoLeaf hleads hkey hnd hroom r
      refine ⟨root,h',_,?_,hgood root h' g hrecords hs' hb hlevel.le⟩
      simp [BTree.insertNew,hmake,hroot,hfind,hnd,hroom,hupdate]
    · obtain ⟨new,newKey,h₁,hsplit,hnew,hrecords₁,hs₁⟩ :=
        hs.splitLeaf horder hleads hkey hnd hroom r
      have hgrows : g.Grows (g.split leaf new newKey.toNat) := Labels.split_grows hnew
      have hrootLevel := hgrows.level_eq root hs.root_live
      obtain ⟨root',h',g',hinsert,hrecords,hs',hb',hle⟩ := hs₁.insertIntoParent horder
        (hgrows.branched hs.root_live hb)
        (show (g.split leaf new newKey.toNat).level root < _+fuel by rw [hrootLevel]; omega)
        (Labels.split_lo_new g)
      refine ⟨root',h',_,?_,hgood root' h' g' (hrecords.trans hrecords₁) hs' hb' (by omega)⟩
      simp [BTree.insertNew,hmake,hroot,hfind,hnd,hroom,insertIntoLeafAfterSplitting,hsplit,hinsert]

lemma insert (horder : 3 ≤ order) (hg : Good order n m d t) (hfuel : n ≤ fuel)
    (key value : UInt64) :
    ∃ t' d',insert order fuel t key value = some t' ∧
      Good order (n+1) (Function.update m key (some value)) d' t' := by
  classical
  have hfind := hg.find_eq hfuel key
  by_cases hkey : key ∈ d.keys
  · obtain ⟨heap,hset,hgood⟩ := hg.setValue hkey value
    rw [if_pos hkey] at hfind
    exact ⟨_,d,by simp [BTree.insert,hfind,hset],hgood.mono (Nat.le_succ n)⟩
  · obtain ⟨root,heap,d',hinsert,hgood⟩ := hg.insertNew horder hfuel hkey value
    rw [if_neg hkey] at hfind
    exact ⟨_,d',by simp [BTree.insert,hfind,hinsert],hgood⟩

end Good

lemma good_empty : Good order 0 (fun _ => none) ⟨∅,fun _ => ⟨0,0⟩⟩ Tree.empty where
  values := by
    refine ⟨?_,by simp,by simp,by simp⟩
    simp only [Set.image_empty]
    exact CellLayout.empty_ok
  empty _ := ⟨CellLayout.empty_ok,rfl⟩
  shape root heq := by simp [Tree.empty] at heq

end ElasticTranslations.Benchmarks.BTree
