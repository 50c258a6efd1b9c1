import ElasticTranslations.Benchmarks.BTreeShape

/-! Lookups in a B+ tree with nothing hanging. -/
namespace ElasticTranslations.Benchmarks.BTree
open Structures
variable {order : ℕ} {d : Directory} {g : Labels} {root a b c : Slot} {h : Heap} {nd : Node}
  {key : UInt64} {ks : List UInt64} {cs : List Slot}

/-- The leaf in charge of a key. -/
structure Leads (d : Directory) (g : Labels) (key : UInt64) (leaf : Slot) : Prop where
  live : leaf ∈ g.live
  level_eq : g.level leaf = 0
  lo_le : g.lo leaf ≤ key.toNat
  lt_hi : key.toNat < g.hi leaf

lemma InnerOk.scan_keys (hi : InnerOk order g root none a nd ks c cs) (hlo : g.lo a ≤ key.toNat)
    (hhi : key.toNat < g.hi a) :
    ∃ i b,scan (fun k => key ≥ k) nd.keys nd.numKeys 0 = some i ∧
      nd.pointers[i]? = some (.node b) ∧ b ∈ c :: cs ∧ g.lo b ≤ key.toNat ∧ key.toNat < g.hi b := by
  obtain ⟨b,hb,hblo,hbhi⟩ := hi.tiles.search hlo hhi
  rw [← hi.keys_eq,List.takeWhile_map,List.length_map] at hb
  have hle : ((fun k => decide (k ≤ key.toNat)) ∘ UInt64.toNat) = fun k => decide (key ≥ k) := by
    funext k
    exact decide_eq_decide.mpr UInt64.le_iff_toNat_le.symm
  rw [hle] at hb
  have hlt := (List.getElem?_eq_some_iff.mp hb).1
  refine ⟨_,b,hi.row.scan_keys _,?_,List.mem_of_getElem? hb,hblo,hbhi⟩
  rw [hi.row.pointers_get (by simpa using hlt),List.getElem?_map,hb,Option.map_some]

namespace Shape
variable (hs : Shape order d g root none h)
include hs

lemma findLeaf_leads {fuel : ℕ} (ha : a ∈ g.live) (hfuel : g.level a < fuel)
    (hlo : g.lo a ≤ key.toNat) (hhi : key.toNat < g.hi a) :
    ∃ leaf,findLeaf h key fuel a = some leaf ∧ Leads d g key leaf := by
  induction fuel generalizing a with
  | zero => omega
  | succ fuel ih =>
    by_cases hlevel : g.level a = 0
    · obtain ⟨nd,ks,hnd,hleaf⟩ := hs.leaf ha hlevel
      exact ⟨a,by simp [findLeaf,hnd,hleaf.isLeaf],ha,hlevel,hlo,hhi⟩
    · obtain ⟨nd,ks,c,cs,hnd,hinner,-⟩ := hs.inner ha (by omega)
      obtain ⟨i,b,hscan,hptr,hb,hblo,hbhi⟩ := hinner.scan_keys hlo hhi
      obtain ⟨hblive,hblevel⟩ := hinner.kid b hb
      obtain ⟨leaf,hfind,hleads⟩ := ih hblive (by omega) hblo hbhi
      refine ⟨leaf,?_,hleads⟩
      simp only [ge_iff_le] at hscan
      simp [findLeaf,hnd,hinner.isLeaf,hscan,hptr,hfind]

lemma findLeaf_root {fuel : ℕ} (hfuel : g.level root < fuel) (key : UInt64) :
    ∃ leaf,findLeaf h key fuel root = some leaf ∧ Leads d g key leaf := by
  have hroot : g.hi root = 2^64 := hs.root_hi
  exact hs.findLeaf_leads hs.root_live hfuel (by simp [hs.root_lo])
    (by rw [hroot]; exact key.toNat_lt)

/-- A lookup finds the record of a key, and none for a key that the tree has not. -/
lemma find_eq {fuel : ℕ} (hfuel : g.level root < fuel) (key : UInt64) [Decidable (key ∈ d.keys)] :
    find fuel h (some root) key = some (if key ∈ d.keys then some (d.record key) else none) := by
  obtain ⟨leaf,hfind,hleads⟩ := hs.findLeaf_root hfuel key
  obtain ⟨nd,ks,hnd,hleaf⟩ := hs.leaf hleads.live hleads.level_eq
  have hscan := hleaf.row.scan_keys fun k => k ≠ key
  rw [hleaf.row.numKeys_eq] at hscan
  have hmem : key ∈ ks ↔ key ∈ d.keys := by
    rw [hleaf.mem_iff]
    exact and_iff_left ⟨hleads.lo_le,hleads.lt_hi⟩
  by_cases hk : key ∈ ks
  · have hat := getElem?_takeWhile_ne hk
    have hlt := (List.getElem?_eq_some_iff.mp hat).1
    have hptr : nd.pointers[(ks.takeWhile fun k => k ≠ key).length]? =
        some (.record (d.record key)) := by
      rw [hleaf.row.pointers_get (by simpa using hlt),List.getElem?_map,hat,Option.map_some]
    rw [if_pos (hmem.mp hk)]
    simp only [find,hfind,hnd,Option.bind_eq_bind,Option.bind_some,hleaf.row.numKeys_eq,hscan]
    rw [if_neg hlt.ne,hptr]
    rfl
  · rw [if_neg (mt hmem.mpr hk)]
    rw [takeWhile_ne_of_not_mem hk] at hscan
    simp only [find,hfind,hnd,Option.bind_eq_bind,Option.bind_some,hleaf.row.numKeys_eq,hscan,
      if_true]
    rfl

end Shape

end ElasticTranslations.Benchmarks.BTree
