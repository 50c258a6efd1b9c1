import ElasticTranslations.Benchmarks.BTreeRuns
import Mathlib.Algebra.Ring.Nat
import Mathlib.Order.Interval.Finset.Nat
import Mathlib.Data.Finset.Card

/-! `find_range` of `btree1.c` goes from a leaf along the links of the leaves. It stops at once,
if that leaf has no key from the start of the range on. -/
namespace ElasticTranslations.Benchmarks.BTree
open Structures

/-- The keys of a leaf from `i` on that the range has, with their pointers, into arrays of some
size. -/
def collectKeys (keyEnd : UInt64) (arraySize : ℕ) (n : Node) :
    ℕ → ℕ → List (UInt64 × Ptr) → Option (List (UInt64 × Ptr))
  | 0,_,found => some found
  | left+1,i,found => do
    let k ← n.keys[i]?
    if k ≤ keyEnd then
      let p ← n.pointers[i]?
      if found.length < arraySize then
        collectKeys keyEnd arraySize n left (i+1) (found++[(k,p)])
      else none
    else return found

/-- The leaves from one on, of which there are less than `fuel`. -/
def collectLeaves (order : ℕ) (h : Heap) (keyEnd : UInt64) (arraySize : ℕ) :
    ℕ → Ptr → ℕ → List (UInt64 × Ptr) → Option (List (UInt64 × Ptr))
  | 0,_,_,_ => none
  | _+1,.null,_,found => some found
  | fuel+1,.node n,i,found => do
    let nd ← h.node n
    let found ← collectKeys keyEnd arraySize nd (nd.numKeys-i) i found
    let next ← nd.pointers[order-1]?
    collectLeaves order h keyEnd arraySize fuel next 0 found
  | _+1,.record _,_,_ => none

/-- The returned keys and pointers, one for each that is found. -/
def findRange (order fuel : ℕ) (h : Heap) (root : Option Slot) (keyStart keyEnd : UInt64)
    (arraySize : ℕ) : Option (List (UInt64 × Ptr)) := do
  match root with
  | none => return []
  | some root =>
    let n ← findLeaf h keyStart fuel root
    let nd ← h.node n
    let i ← scan (fun k => k < keyStart) nd.keys nd.numKeys 0
    if i = nd.numKeys then return []
    collectLeaves order h keyEnd arraySize fuel (.node n) i []

/-- The value that is printed for a pointer. -/
def readValue (h : Heap) (p : Ptr) : Option UInt64 :=
  match p with
  | .record r => match h.records.cells r with
    | some (.value v) => some v
    | _ => none
  | _ => none

/-- The two arrays of keys and pointers, for which the stack has so many bytes left: no array is
empty. -/
def declareArrays (stack : ℕ) (arraySize : UInt64) : Option ℕ :=
  if arraySize ≠ 0 ∧ 2*(8*arraySize.toNat) ≤ stack then some arraySize.toNat else none

/-- The keys and values that are printed. The arrays have as many elements as the range has keys,
modulo `2^64`. -/
def findAndPrintRange (order fuel stack : ℕ) (t : Tree) (keyStart keyEnd : UInt64) :
    Option (List (UInt64 × UInt64)) := do
  let arraySize ← declareArrays stack (keyEnd-keyStart+1)
  let found ← findRange order fuel t.heap t.root keyStart keyEnd arraySize
  found.mapM fun kp => do
    let v ← readValue t.heap kp.2
    return (kp.1,v)

/-- The leaf in which the range would start has smaller keys only. -/
def RangeStops (fuel : ℕ) (t : Tree) (keyStart : UInt64) : Prop :=
  ∀ root n nd,t.root = some root → findLeaf t.heap keyStart fuel root = some n →
    t.heap.node n = some nd → ∀ k ∈ nd.keys.take nd.numKeys,k < keyStart

variable {order fuel n arraySize : ℕ} {d : Directory} {g : Labels} {root a : Slot} {h : Heap}
  {m : UInt64 → Option UInt64} {t : Tree} {nd : Node} {ks : List UInt64}
  {keyStart keyEnd : UInt64}

/-- A key as it is returned. -/
def Directory.entry (d : Directory) (k : UInt64) : UInt64 × Ptr := (k,.record (d.record k))

lemma takeWhile_le_eq_filter (hsorted : ks.Pairwise (· < ·)) (keyEnd : UInt64) :
    (ks.takeWhile fun k => k ≤ keyEnd) = ks.filter fun k => k ≤ keyEnd := by
  refine (takeWhile_eq_filter hsorted fun a b hab hb => ?_).1
  simp only [decide_eq_true_eq] at hb ⊢
  exact UInt64.le_of_lt (UInt64.lt_of_lt_of_le hab hb)

/-- The scan for the start of a range passes all keys, if they are smaller. -/
lemma takeWhile_lt_length_iff (hsorted : ks.Pairwise (· < ·)) (keyStart : UInt64) :
    (ks.takeWhile fun k => decide (k < keyStart)).length = ks.length ↔ ∀ k ∈ ks,k < keyStart := by
  rw [(takeWhile_eq_filter hsorted fun a b hab hb => ?_).1,List.length_filter_eq_length_iff]
  · simp
  · simp only [decide_eq_true_eq] at hb ⊢
    exact UInt64.lt_trans hab hb

/-- The keys of a range, among those of the leaf where it starts, of the ones before it and of the
ones behind it. -/
lemma filter_range_eq {as bs : List UInt64} (hsorted : ks.Pairwise (· < ·))
    (hbefore : ∀ k ∈ as,k < keyStart) (hbehind : ∀ k ∈ bs,keyStart < k) :
    (as++(ks++bs)).filter (fun k => decide (keyStart ≤ k ∧ k ≤ keyEnd)) =
      (ks.drop (ks.takeWhile fun k => decide (k < keyStart)).length++bs).filter
        fun k => k ≤ keyEnd := by
  have hdrop := (takeWhile_eq_filter (p := fun k => decide (k < keyStart)) hsorted
    fun a b hab hb => by
      simp only [decide_eq_true_eq] at hb ⊢
      exact UInt64.lt_trans hab hb).2
  rw [hdrop,List.filter_append,List.filter_append,List.filter_append,List.filter_filter,
    List.filter_eq_nil_iff.mpr,List.nil_append]
  · congr 1
    · refine List.filter_congr fun k _ => ?_
      have hge : decide (keyStart ≤ k) = !decide (k < keyStart) := by
        rw [← decide_not]
        exact decide_eq_decide.mpr UInt64.not_lt.symm
      rw [Bool.decide_and,hge,Bool.and_comm]
    · refine List.filter_congr fun k hk => ?_
      have := UInt64.le_of_lt (hbehind k hk)
      simp [this]
  · intro k hk
    have := hbefore k hk
    simp [UInt64.not_le.mpr this]

lemma collectKeys_eq (hrow : Row order ks (ks.map fun k => .record (d.record k)) nd) {left i : ℕ}
    (hi : i+left = ks.length) {found : List (UInt64 × Ptr)}
    (hroom : found.length+((ks.drop i).takeWhile fun k => k ≤ keyEnd).length ≤ arraySize) :
    collectKeys keyEnd arraySize nd left i found =
      some (found++((ks.drop i).takeWhile fun k => k ≤ keyEnd).map d.entry) := by
  induction left generalizing i found with
  | zero => simp [collectKeys,List.drop_of_length_le (show ks.length ≤ i by omega)]
  | succ left ih =>
    have hlt : i < ks.length := by omega
    obtain ⟨k,hk⟩ : ∃ k,ks[i]? = some k := ⟨_,List.getElem?_eq_getElem hlt⟩
    have hkey : nd.keys[i]? = some k := (hrow.keys_get hlt).trans hk
    have hptr : nd.pointers[i]? = some (.record (d.record k)) := by
      rw [hrow.pointers_get (by simpa using hlt),List.getElem?_map,hk,Option.map_some]
    have hdrop : ks.drop i = k :: ks.drop (i+1) := by
      rw [List.drop_eq_getElem_cons hlt,List.getElem_eq_iff hlt |>.mpr hk]
    rw [hdrop] at hroom ⊢
    by_cases hle : k ≤ keyEnd
    · rw [List.takeWhile_cons_of_pos (by simpa using hle)] at hroom ⊢
      rw [List.length_cons] at hroom
      simp only [collectKeys,hkey,Option.bind_eq_bind,Option.bind_some,if_pos hle,hptr]
      rw [if_pos (by omega),ih (by omega) (by rw [List.length_append,List.length_singleton]; omega)]
      simp [Directory.entry]
    · rw [List.takeWhile_cons_of_neg (by simpa using hle)]
      simp [collectKeys,hkey,hle]

namespace Shape
variable (hs : Shape order d g root none h)
include hs

/-- The keys of the leaves from a place on, as far as the range goes. -/
lemma collectLeaves_eq {bs : List Slot} {i : ℕ} {found : List (UInt64 × Ptr)}
    (hleaves : ∀ x ∈ a :: bs,x ∈ g.live ∧ g.level x = 0)
    (hchain : Chained (h.LeafLink order) (a :: bs)) (hi : i ≤ (h.rowKeys a).length)
    (hsorted : ((h.rowKeys a).drop i++bs.flatMap h.rowKeys).Pairwise (· < ·))
    (hfuel : (a :: bs).length < fuel)
    (hroom : found.length+(((h.rowKeys a).drop i++bs.flatMap h.rowKeys).filter
      fun k => k ≤ keyEnd).length ≤ arraySize) :
    collectLeaves order h keyEnd arraySize fuel (.node a) i found =
      some (found++(((h.rowKeys a).drop i++bs.flatMap h.rowKeys).filter
        fun k => k ≤ keyEnd).map d.entry) := by
  induction bs generalizing a i fuel found with
  | nil =>
    obtain ⟨fuel,rfl⟩ : ∃ n,fuel = n+2 := ⟨fuel-2,by simp at hfuel; omega⟩
    obtain ⟨halive,hlevel⟩ := hleaves a (by simp)
    obtain ⟨nd,ks,hnd,hleaf⟩ := hs.leaf halive hlevel
    obtain ⟨nd',hnd',hlink⟩ := hchain.1
    obtain rfl : nd = nd' := Option.some.inj (hnd.symm.trans hnd')
    rw [hleaf.rowKeys_eq hnd] at hi hsorted hroom ⊢
    simp only [List.flatMap_nil,List.append_nil] at hsorted hroom ⊢
    rw [← takeWhile_le_eq_filter hsorted] at hroom ⊢
    have hcollect := collectKeys_eq hleaf.row
      (show i+(nd.numKeys-i) = ks.length by rw [hleaf.row.numKeys_eq]; omega) hroom
    simp only [List.head?_nil,Option.elim_none] at hlink
    simp [collectLeaves,hnd,hcollect,hlink]
  | cons b bs ih =>
    obtain ⟨fuel,rfl⟩ : ∃ n,fuel = n+1 := ⟨fuel-1,by simp at hfuel; omega⟩
    obtain ⟨halive,hlevel⟩ := hleaves a (by simp)
    obtain ⟨nd,ks,hnd,hleaf⟩ := hs.leaf halive hlevel
    obtain ⟨nd',hnd',hlink⟩ := hchain.1
    obtain rfl : nd = nd' := Option.some.inj (hnd.symm.trans hnd')
    rw [hleaf.rowKeys_eq hnd] at hi hsorted hroom ⊢
    obtain ⟨hsorted₁,hsorted₂,-⟩ := List.pairwise_append.mp hsorted
    rw [List.filter_append,← takeWhile_le_eq_filter hsorted₁,List.length_append] at hroom
    rw [List.filter_append,← takeWhile_le_eq_filter hsorted₁]
    have hcollect := collectKeys_eq hleaf.row
      (show i+(nd.numKeys-i) = ks.length by rw [hleaf.row.numKeys_eq]; omega)
      (show found.length+((ks.drop i).takeWhile fun k => k ≤ keyEnd).length ≤ arraySize by omega)
    have hroom' : (found++((ks.drop i).takeWhile fun k => k ≤ keyEnd).map d.entry).length+
        (((h.rowKeys b).drop 0++bs.flatMap h.rowKeys).filter fun k => k ≤ keyEnd).length ≤
          arraySize := by
      rw [List.drop_zero,← List.flatMap_cons,List.length_append,List.length_map]
      omega
    have hrest := ih (fun x hx => hleaves x (List.mem_cons_of_mem a hx)) hchain.2 (Nat.zero_le _)
      (by rw [List.drop_zero,← List.flatMap_cons]; exact hsorted₂)
      (show (b :: bs).length < fuel by rw [List.length_cons] at hfuel; omega) hroom'
    rw [List.drop_zero,← List.flatMap_cons] at hrest
    simp only [List.head?_cons,Option.elim_some] at hlink
    simp [collectLeaves,hnd,hcollect,hlink,hrest]

/-- The leaf of a key among the leaves: the ones before it have smaller keys only, those behind it
have greater ones. -/
lemma exists_leaves {leaf : Slot} {key : UInt64} (hleads : Leads d g key leaf) :
    ∃ as bs,subtreeLeaves h.kids (g.level root) root = as++leaf :: bs ∧
      (∀ k ∈ as.flatMap h.rowKeys,k < key) ∧ ∀ k ∈ bs.flatMap h.rowKeys,key < k := by
  have hmem := hs.tree.mem_subtreeLeaves_root.mpr ⟨hleads.live,hleads.level_eq⟩
  obtain ⟨as,bs,hsplit⟩ := List.append_of_mem hmem
  have hpair : (subtreeLeaves h.kids (g.level root) root).Pairwise fun a b => g.hi a ≤ g.lo b :=
    (hs.tree.tiles_subtreeLeaves hs.root_live).pairwise
  have hleaves := fun a => (hs.tree.mem_subtreeLeaves_root (b := a)).mp
  have hsplit : subtreeLeaves h.kids (g.level root) root = as++leaf :: bs := hsplit
  rw [hsplit,List.pairwise_append,List.pairwise_cons] at hpair
  obtain ⟨-,⟨hbehind,-⟩,hbefore⟩ := hpair
  have hin : ∀ a ∈ as++leaf :: bs,∀ k ∈ h.rowKeys a,g.lo a ≤ k.toNat ∧ k.toNat < g.hi a := by
    intro a ha k hk
    obtain ⟨halive,hlevel⟩ := hleaves a (hsplit ▸ ha)
    obtain ⟨nd,ks,hnd,hleaf⟩ := hs.leaf halive hlevel
    rw [hleaf.rowKeys_eq hnd,hleaf.mem_iff] at hk
    exact hk.2
  refine ⟨as,bs,hsplit,fun k hk => ?_,fun k hk => ?_⟩
  · obtain ⟨a,ha,hk⟩ := List.mem_flatMap.mp hk
    have h1 := (hin a (by simp [ha]) k hk).2
    have h2 : g.hi a ≤ g.lo leaf := hbefore a ha leaf (by simp)
    exact UInt64.lt_iff_toNat_lt.mpr (by have := hleads.lo_le; omega)
  · obtain ⟨b,hb,hk⟩ := List.mem_flatMap.mp hk
    have h1 := (hin b (by simp [hb]) k hk).1
    have h2 : g.hi leaf ≤ g.lo b := hbehind b hb
    exact UInt64.lt_iff_toNat_lt.mpr (by have := hleads.lt_hi; omega)

/-- What is found is the keys of the range, unless the search stops in its first leaf. -/
lemma findRange_eq {leaf : Slot} (hleads : Leads d g keyStart leaf)
    (hfind : findLeaf h keyStart fuel root = some leaf)
    (hfuel : (subtreeLeaves h.kids (g.level root) root).length < fuel)
    (hroom : (((subtreeLeaves h.kids (g.level root) root).flatMap h.rowKeys).filter
      fun k => keyStart ≤ k ∧ k ≤ keyEnd).length ≤ arraySize) :
    findRange order fuel h (some root) keyStart keyEnd arraySize =
      if (h.rowKeys leaf).all fun k => k < keyStart then some []
      else some ((((subtreeLeaves h.kids (g.level root) root).flatMap h.rowKeys).filter
        fun k => keyStart ≤ k ∧ k ≤ keyEnd).map d.entry) := by
  obtain ⟨nd,ks,hnd,hleaf⟩ := hs.leaf hleads.live hleads.level_eq
  obtain ⟨as,bs,hsplit,hbefore,hbehind⟩ := hs.exists_leaves hleads
  have hrow := hleaf.rowKeys_eq hnd
  have hscan := hleaf.row.scan_keys fun k => decide (k < keyStart)
  have hpassed := takeWhile_lt_length_iff hleaf.sorted keyStart
  rw [hrow]
  split_ifs with hall <;> simp only [List.all_eq_true,decide_eq_true_eq] at hall
  · rw [hpassed.mpr hall,← hleaf.row.numKeys_eq] at hscan
    simp only [findRange,hfind,hnd,Option.bind_eq_bind,Option.bind_some,hscan,if_true]
    rfl
  · have hne : (ks.takeWhile fun k => decide (k < keyStart)).length ≠ nd.numKeys := by
      rw [hleaf.row.numKeys_eq]
      exact mt hpassed.mp hall
    have hsorted := hs.ascending
    have hchain := hs.chained
    rw [hsplit] at hsorted hchain hfuel hroom ⊢
    rw [List.flatMap_append,List.flatMap_cons,hrow] at hsorted hroom ⊢
    rw [filter_range_eq hleaf.sorted hbefore hbehind] at hroom ⊢
    have hleaves : ∀ x ∈ leaf :: bs,x ∈ g.live ∧ g.level x = 0 := fun x hx =>
      hs.tree.mem_subtreeLeaves_root.mp
        (show x ∈ subtreeLeaves h.kids (g.level root) root by
          rw [hsplit]
          exact List.mem_append_right as hx)
    have hsorted' := (List.pairwise_append.mp hsorted).2.1.sublist
      ((List.drop_sublist (ks.takeWhile fun k => decide (k < keyStart)).length ks).append
        (List.Sublist.refl (bs.flatMap h.rowKeys)))
    rw [← hrow] at hsorted' hroom
    have hcollect := hs.collectLeaves_eq hleaves hchain.of_append
      (by rw [hrow]; exact length_takeWhile_le _ ks) hsorted'
      (show (leaf :: bs).length < fuel by rw [List.length_append] at hfuel; omega)
      (show ([] : List (UInt64 × Ptr)).length+_ ≤ arraySize by simpa using hroom)
    simp only [findRange,hfind,hnd,Option.bind_eq_bind,Option.bind_some,hscan,if_neg hne]
    rwa [hrow,List.nil_append] at hcollect

/-- Each leaf has a key, unless it is the root. -/
lemma length_leaves_le (horder : 3 ≤ order) :
    (subtreeLeaves h.kids (g.level root) root).length ≤
      ((subtreeLeaves h.kids (g.level root) root).flatMap h.rowKeys).length+1 := by
  rcases Nat.eq_zero_or_pos (g.level root) with hzero | hpos
  · simp [hzero,subtreeLeaves]
  · refine Nat.le_succ_of_le ?_
    rw [List.length_flatMap,← List.length_map (f := fun a => (h.rowKeys a).length)]
    refine List.length_le_sum_of_one_le _ fun i hi => ?_
    obtain ⟨a,ha,rfl⟩ := List.mem_map.mp hi
    obtain ⟨halive,hlevel⟩ := hs.tree.mem_subtreeLeaves_root.mp ha
    obtain ⟨nd,ks,hnd,hleaf⟩ := hs.leaf halive hlevel
    rw [hleaf.rowKeys_eq hnd]
    refine (cut_pos (n := order-1) (by omega)).trans_le (hleaf.fill ?_)
    rintro ⟨rfl,-⟩
    have : g.level a = 0 := hlevel
    omega

end Shape

/-- The size of the arrays does not wrap around, but for the range of all keys. -/
lemma arraySize_eq (hle : keyStart ≤ keyEnd)
    (hrange : ¬(keyStart = 0 ∧ keyEnd.toNat = 2^64-1)) :
    (keyEnd-keyStart+1).toNat = keyEnd.toNat-keyStart.toNat+1 := by
  have hle' := UInt64.le_iff_toNat_le.mp hle
  have hlt := keyEnd.toNat_lt
  have hstart : keyStart.toNat = 0 → keyStart = 0 := fun h0 => UInt64.toNat_inj.mp h0
  rw [UInt64.toNat_add,UInt64.toNat_sub_of_le _ _ hle,show (1 : UInt64).toNat = 1 from rfl,
    Nat.mod_eq_of_lt]
  by_contra hcon
  exact hrange ⟨hstart (by omega),by omega⟩

lemma declareArrays_eq {stack : ℕ} (hle : keyStart ≤ keyEnd)
    (hrange : ¬(keyStart = 0 ∧ keyEnd.toNat = 2^64-1))
    (hstack : 16*(keyEnd.toNat-keyStart.toNat+1) ≤ stack) :
    declareArrays stack (keyEnd-keyStart+1) = some (keyEnd.toNat-keyStart.toNat+1) := by
  have hsize := arraySize_eq hle hrange
  have hne : keyEnd-keyStart+1 ≠ 0 := by
    intro h0
    rw [h0] at hsize
    exact absurd hsize (by simp)
  rw [declareArrays,hsize,if_pos ⟨hne,by omega⟩]

/-- An array for all keys of a range has room for the ones that are there. -/
lemma length_le_arraySize (hks : ks.Pairwise (· < ·))
    (hin : ∀ k ∈ ks,keyStart ≤ k ∧ k ≤ keyEnd) (hle : keyStart ≤ keyEnd) :
    ks.length ≤ keyEnd.toNat-keyStart.toNat+1 := by
  have hnodup : (ks.map UInt64.toNat).Nodup := by
    refine List.Nodup.map (fun a b => UInt64.toNat_inj.mp) ?_
    exact hks.imp fun hab => UInt64.ne_of_lt hab
  have hsub : (ks.map UInt64.toNat).toFinset ⊆ Finset.Icc keyStart.toNat keyEnd.toNat := by
    intro x hx
    obtain ⟨k,hk,rfl⟩ := List.mem_map.mp (List.mem_toFinset.mp hx)
    rw [Finset.mem_Icc]
    exact ⟨UInt64.le_iff_toNat_le.mp (hin k hk).1,UInt64.le_iff_toNat_le.mp (hin k hk).2⟩
  have hle' := UInt64.le_iff_toNat_le.mp hle
  have := Finset.card_le_card hsub
  rw [List.toFinset_card_of_nodup hnodup,List.length_map,Nat.card_Icc] at this
  omega

lemma Values.mapM_entries (hv : Values d m h) (hks : ∀ k ∈ ks,k ∈ d.keys) :
    ∃ found,((ks.map d.entry).mapM fun kp => do
        let v ← readValue h kp.2
        return (kp.1,v)) = some found ∧ found.map Prod.fst = ks ∧
      ∀ kv ∈ found,m kv.1 = some kv.2 := by
  induction ks with
  | nil => exact ⟨[],rfl,rfl,by simp⟩
  | cons k ks ih =>
    rw [List.forall_mem_cons] at hks
    obtain ⟨found,hfound,hkeys,hvalues⟩ := ih hks.2
    obtain ⟨v,hkv⟩ := Option.isSome_iff_exists.mp ((hv.mem_iff k).mp hks.1)
    have hread : readValue h (.record (d.record k)) = some v := by
      simp [readValue,hv.value_eq k v hkv]
    refine ⟨(k,v) :: found,?_,by simp [hkeys],?_⟩
    · rw [List.map_cons,List.mapM_cons,hfound]
      simp [Directory.entry,hread]
    · simpa [hkv] using hvalues

/-- What is printed are the keys with the values they have. -/
lemma mem_found_iff {found : List (UInt64 × UInt64)} (hkeys : found.map Prod.fst = ks)
    (hvalues : ∀ kv ∈ found,m kv.1 = some kv.2) {k v : UInt64} :
    (k,v) ∈ found ↔ k ∈ ks ∧ m k = some v := by
  subst hkeys
  constructor
  · exact fun hkv => ⟨List.mem_map_of_mem hkv,hvalues (k,v) hkv⟩
  · rintro ⟨hk,hv⟩
    obtain ⟨kv,hkv,rfl⟩ := List.mem_map.mp hk
    obtain rfl : v = kv.2 := Option.some.inj (hv.symm.trans (hvalues kv hkv))
    exact hkv

/-- The keys of the insertions. -/
def insertedKeys (ops : List Operation) : List UInt64 :=
  ops.flatMap fun op => match op with
    | .insert key _ => [key]
    | .delete _ => []

lemma length_insertedKeys (ops : List Operation) :
    (insertedKeys ops).length = insertions ops := by
  induction ops with
  | nil => rfl
  | cons op ops ih =>
    cases op with
    | insert key value =>
      have : insertions (.insert key value :: ops) = 1+insertions ops := rfl
      rw [this,← ih,insertedKeys,List.flatMap_cons,List.length_append]
      rfl
    | delete key =>
      have : insertions (.delete key :: ops) = 0+insertions ops := rfl
      rw [this,← ih,Nat.zero_add]
      rfl

lemma mem_insertedKeys {ops : List Operation} {k : UInt64} (hk : (valueAfter ops k).isSome) :
    k ∈ insertedKeys ops := by
  obtain ⟨v,hv⟩ := Option.isSome_iff_exists.mp hk
  obtain ⟨op,hop,hvalue⟩ := Option.bind_eq_some_iff.mp hv
  have hmem := List.mem_reverse.mp (List.mem_of_find?_eq_some hop)
  have hkey : op.key = k := by simpa using List.find?_some hop
  refine List.mem_flatMap.mpr ⟨op,hmem,?_⟩
  cases op with
  | insert key value => exact List.mem_singleton.mpr hkey.symm
  | delete key => simp [Operation.value] at hvalue

/-- There are no more keys than insertions. -/
lemma Shape.length_keys_le {ops : List Operation} (hs : Shape order d g root none h)
    (hv : Values d (valueAfter ops) h) :
    ((subtreeLeaves h.kids (g.level root) root).flatMap h.rowKeys).length ≤ insertions ops := by
  rw [← length_insertedKeys]
  refine (List.subperm_of_subset (hs.ascending.imp fun hab => UInt64.ne_of_lt hab) ?_).length_le
  intro k hk
  exact mem_insertedKeys ((hv.mem_iff k).mp ((hs.mem_keys k).mp hk))

lemma rangeStops_iff {leaf : Slot} (hroot : t.root = some root)
    (hfind : findLeaf t.heap keyStart fuel root = some leaf) (hnd : t.heap.node leaf = some nd) :
    RangeStops fuel t keyStart ↔ ∀ k ∈ t.heap.rowKeys leaf,k < keyStart := by
  have hrow : t.heap.rowKeys leaf = nd.keys.take nd.numKeys := by simp only [Heap.rowKeys,hnd]
  rw [hrow]
  constructor
  · exact fun hstops => hstops root leaf nd hroot hfind hnd
  · intro hall root' n nd' hroot' hfind' hnd'
    obtain rfl : root = root' := Option.some.inj (hroot.symm.trans hroot')
    obtain rfl : leaf = n := Option.some.inj (hfind.symm.trans hfind')
    obtain rfl : nd = nd' := Option.some.inj (hnd.symm.trans hnd')
    exact hall

/-- A range query after any operations prints the keys of the range in order, each with the value
last inserted, or nothing at all if the leaf in which the range would start has no key of it. The
arrays must fit on the stack, and not all keys be asked for. -/
theorem findAndPrintRange_eq {order fuel stack : ℕ} (horder : 3 ≤ order) (ops : List Operation)
    (hfuel : insertions ops+1 < fuel) {keyStart keyEnd : UInt64} (hle : keyStart ≤ keyEnd)
    (hrange : ¬(keyStart = 0 ∧ keyEnd.toNat = 2^64-1))
    (hstack : 16*(keyEnd.toNat-keyStart.toNat+1) ≤ stack) :
    ∃ t found,runAll order fuel Tree.empty ops = some t ∧
      findAndPrintRange order fuel stack t keyStart keyEnd = some found ∧
      (RangeStops fuel t keyStart → found = []) ∧
      (¬RangeStops fuel t keyStart → (found.map Prod.fst).Pairwise (· < ·) ∧
        ∀ k v,(k,v) ∈ found ↔ keyStart ≤ k ∧ k ≤ keyEnd ∧ valueAfter ops k = some v) := by
  have hdeclare := declareArrays_eq hle hrange hstack
  obtain ⟨t,d,hrun,hg⟩ := good_empty.runAll horder (show 0+insertions ops ≤ fuel by omega)
  rw [assignAll_none] at hg
  cases hroot : t.root with
  | none =>
    refine ⟨t,[],hrun,?_,fun _ => rfl,fun hcon => absurd (fun root n nd heq => ?_) hcon⟩
    · simp [findAndPrintRange,findRange,hroot,hdeclare]
    · simp [hroot] at heq
  | some root =>
    obtain ⟨g,hs,-,hlevel⟩ := hg.shape root hroot
    obtain ⟨leaf,hfind,hleads⟩ := hs.findLeaf_root (hlevel.trans_le (show _ ≤ fuel by omega))
      keyStart
    obtain ⟨nd,ks,hnd,-⟩ := hs.leaf hleads.live hleads.level_eq
    have hstops := rangeStops_iff hroot hfind hnd
    have hascending := hs.ascending
    have hmem := hs.mem_keys
    have hleaves := hs.length_leaves_le horder
    -- no more keys than insertions, and no more leaves than keys but for an empty root
    have hcount := hs.length_keys_le hg.values
    have hin : ∀ k ∈ ((subtreeLeaves t.heap.kids (g.level root) root).flatMap
        t.heap.rowKeys).filter fun k => keyStart ≤ k ∧ k ≤ keyEnd,keyStart ≤ k ∧ k ≤ keyEnd :=
      fun k hk => by simpa using (List.mem_filter.mp hk).2
    have hroom := length_le_arraySize (hascending.filter _) hin hle
    have hfound := hs.findRange_eq hleads hfind (hleaves.trans_lt (by omega)) hroom
    by_cases hall : ∀ k ∈ t.heap.rowKeys leaf,k < keyStart
    · rw [if_pos (by simpa using hall)] at hfound
      refine ⟨t,[],hrun,?_,fun _ => rfl,fun hcon => absurd (hstops.mpr hall) hcon⟩
      simp only [findAndPrintRange,hdeclare,hroot,hfound,Option.bind_eq_bind,Option.bind_some]
      rfl
    · rw [if_neg (by simpa using hall)] at hfound
      obtain ⟨found,hprint,hkeys,hvalues⟩ := hg.values.mapM_entries fun k hk =>
        (hmem k).mp (List.mem_filter.mp hk).1
      refine ⟨t,found,hrun,?_,fun hcon => absurd (hstops.mp hcon) hall,fun _ => ⟨?_,fun k v => ?_⟩⟩
      · simp only [findAndPrintRange,hdeclare,hroot,hfound,Option.bind_eq_bind,Option.bind_some]
        exact hprint
      · rw [hkeys]
        exact hascending.filter _
      · rw [mem_found_iff hkeys hvalues,List.mem_filter,hmem,hg.values.mem_iff]
        simp only [decide_eq_true_eq]
        constructor
        · rintro ⟨⟨-,hlo,hhi⟩,hv⟩
          exact ⟨hlo,hhi,hv⟩
        · rintro ⟨hlo,hhi,hv⟩
          exact ⟨⟨by simp [hv],hlo,hhi⟩,hv⟩

theorem findAndPrintRange_eq_order_three :
    ∃ t found,runAll 3 6 Tree.empty [.insert 5 50,.insert 1 10,.insert 9 90,.delete 5] = some t ∧
      findAndPrintRange 3 6 4096 t 1 8 = some found ∧ (RangeStops 6 t 1 → found = []) ∧
      (¬RangeStops 6 t 1 → (found.map Prod.fst).Pairwise (· < ·) ∧
        ∀ k v,(k,v) ∈ found ↔ 1 ≤ k ∧ k ≤ 8 ∧
          valueAfter [.insert 5 50,.insert 1 10,.insert 9 90,.delete 5] k = some v) :=
  findAndPrintRange_eq (by decide) _ (by decide) (by decide) (by decide) (by decide)

end ElasticTranslations.Benchmarks.BTree
