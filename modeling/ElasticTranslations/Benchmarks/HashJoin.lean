import ElasticTranslations.Structures.Trace
import Mathlib.Algebra.Ring.Nat

/-! `hashjoin.c`: the buckets of the hash table are dealt in turn over four regions of memory,
each allocated with a quarter of the bytes. -/
namespace ElasticTranslations.Benchmarks.HashJoin
open Structures

inductive Fault where
  | outOfBounds
  deriving DecidableEq

/-- An allocation: its size in bytes and its 64-bit words, zero at first. -/
structure Block where
  size : UInt64
  words : ℕ → UInt64

def allocate (size : UInt64) : Block := ⟨size,fun _ => 0⟩

namespace Block

/-- A word at a byte offset, a multiple of eight. -/
def load (b : Block) (offset : ℕ) : Except Fault UInt64 :=
  if offset+8 ≤ b.size.toNat then return b.words (offset/8) else throw .outOfBounds

def store (b : Block) (offset : ℕ) (v : UInt64) : Except Fault Block :=
  if offset+8 ≤ b.size.toNat then
    return { b with words := fun w => if w = offset/8 then v else b.words w }
  else throw .outOfBounds

end Block

def numRegions : ℕ := 4

/-- `sizeof(struct htelm)`: a key and three words of payload. -/
def sizeofHtelm : UInt64 := 32

/-- A pointer to a `struct htelm`, the element of this index in a region. -/
structure HtelmPtr where
  region : ℕ
  index : ℕ
  deriving DecidableEq

namespace HtelmPtr

/-- The key is the first member. -/
def keyOffset (e : HtelmPtr) : ℕ := e.index*sizeofHtelm.toNat

end HtelmPtr

structure Table where
  hashtable : List (Option HtelmPtr)
  htelms : List Block

namespace Table

def region (t : Table) (e : HtelmPtr) : Except Fault Block :=
  match t.htelms[e.region]? with
  | some hte => return hte
  | none => throw .outOfBounds

/-- `e->key`. -/
def key (t : Table) (e : HtelmPtr) : Except Fault UInt64 := do
  let hte ← t.region e
  hte.load e.keyOffset

/-- `e->key = v`. -/
def setKey (t : Table) (e : HtelmPtr) (v : UInt64) : Except Fault Table := do
  let hte ← t.region e
  let hte ← hte.store e.keyOffset v
  return { t with htelms := t.htelms.set e.region hte }

/-- `hashtable[i]`. -/
def bucket (t : Table) (i : ℕ) : Except Fault (Option HtelmPtr) :=
  match t.hashtable[i]? with
  | some e => return e
  | none => throw .outOfBounds

/-- `hashtable[i] = e`. -/
def setBucket (t : Table) (i : ℕ) (e : HtelmPtr) : Except Fault Table :=
  if i < t.hashtable.length then return { t with hashtable := t.hashtable.set i (some e) }
  else throw .outOfBounds

end Table

/-- The allocations of `main`; a pointer takes eight bytes. -/
def allocateTable (hashsize : UInt64) : Table where
  hashtable := List.replicate ((hashsize*8).toNat/8) none
  htelms := List.replicate numRegions (allocate (hashsize*sizeofHtelm/4))

/-- One round of the initialisation loop. -/
def initBucket (t : Table) (i : ℕ) : Except Fault Table := do
  let e := ⟨i % numRegions,i/numRegions⟩
  let t ← t.setBucket i e
  t.setKey e (UInt64.ofNat (i+1))

def initTable (hashsize : UInt64) : Except Fault Table :=
  (List.range hashsize.toNat).foldlM initBucket (allocateTable hashsize)

def rotl64 (x : UInt64) (r : UInt64) : UInt64 := (x <<< r) ||| (x >>> (64-r))

def fmix64 (k : UInt64) : UInt64 :=
  let k := k ^^^ (k >>> 33)
  let k := k*0xff51afd7ed558ccd
  let k := k ^^^ (k >>> 33)
  let k := k*0xc4ceb9fe1a85ec53
  k ^^^ (k >>> 33)

/-- `MurmurHash3_x64_128` of a key of eight bytes, which is all tail. -/
def murmurHash3 (key seed : UInt64) : UInt64 × UInt64 :=
  let h1 := seed
  let h2 := seed
  let k1 := rotl64 (key*0x87c37b91114253d5) 31 * 0x4cf5ad432745937f
  let h1 := h1 ^^^ k1
  let h1 := h1 ^^^ 8
  let h2 := h2 ^^^ 8
  let h1 := h1+h2
  let h2 := h2+h1
  let h1 := fmix64 h1
  let h2 := fmix64 h2
  let h1 := h1+h2
  let h2 := h2+h1
  (h1,h2)

/-- One of the four tests of a lookup. -/
def probe (hashsize : UInt64) (t : Table) (h : UInt64) : Except Fault Bool := do
  match ← t.bucket (h % hashsize).toNat with
  | none => return false
  | some e =>
    let key ← t.key e
    return key ≠ 0

def countProbe (hashsize : UInt64) (t : Table) (found h : UInt64) : Except Fault UInt64 := do
  let hit ← probe hashsize t h
  return if hit then found+1 else found

def defaultNkeys : ℕ := 1000000000

/-- One round of the lookup loop; row `idx` of the data table has key `idx`. -/
def lookup (hashsize : UInt64) (t : Table) (found : UInt64) (i : ℕ) : Except Fault UInt64 := do
  let idx := i % defaultNkeys
  let (h1,h2) := murmurHash3 (UInt64.ofNat idx) 42
  let found ← countProbe hashsize t found h1
  let found ← countProbe hashsize t found h2
  let found ← countProbe hashsize t found (h1 <<< 2)
  countProbe hashsize t found (h2 <<< 2)

def lookups (hashsize nlookups : UInt64) (t : Table) : Except Fault UInt64 :=
  (List.range nlookups.toNat).foldlM (lookup hashsize t) 0

/-- Every bucket has an element of its own, wholly inside its region and with its key, and
every probe finds a key. -/
structure LaidOut (hashsize : UInt64) (t : Table) : Prop where
  inside : ∀ i < hashsize.toNat, ∃ e hte, t.bucket i = .ok (some e) ∧
    e.region = i % numRegions ∧ t.region e = .ok hte ∧
    (e.index+1)*sizeofHtelm.toNat ≤ hte.size.toNat
  distinct : ∀ i < hashsize.toNat, ∀ j < hashsize.toNat, t.bucket i = t.bucket j → i = j
  keys : ∀ i < hashsize.toNat, ∃ e, t.bucket i = .ok (some e) ∧ t.key e = .ok (UInt64.ofNat (i+1))
  probes : ∀ h, probe hashsize t h = .ok true

/-- The element dealt to a bucket. -/
def dealt (i : ℕ) : HtelmPtr := ⟨i % numRegions,i/numRegions⟩

/-- Region `r` after so many rounds: every fourth word is the key of a bucket. -/
def regionAfter (hashsize : UInt64) (n r : ℕ) : Block where
  size := hashsize*sizeofHtelm/4
  words w := if w % 4 = 0 ∧ w+r < n then UInt64.ofNat (w+r+1) else 0

/-- The table after so many rounds. -/
def tableAfter (hashsize : UInt64) (n : ℕ) : Table where
  hashtable := (List.range hashsize.toNat).map fun i => if i < n then some (dealt i) else none
  htelms := (List.range numRegions).map (regionAfter hashsize n)

/-- An entry of a table written by number. -/
lemma set_map_range {α : Type*} {f g : ℕ → α} {m n : ℕ} (h : ∀ i < m, i ≠ n → g i = f i) :
    ((List.range m).map f).set n (g n) = (List.range m).map g := by
  apply List.ext_getElem?
  intro i
  rw [List.getElem?_set,List.getElem?_map,List.getElem?_map,List.length_map,List.length_range]
  by_cases him : i < m
  · rw [List.getElem?_range him]
    by_cases hin : n = i
    · subst hin
      simp [him]
    · simp [hin,h i him (Ne.symm hin)]
  · have hnone : (List.range m)[i]? = none := by simpa using him
    by_cases hin : n = i
    · simp [hin,him]
    · simp [hin,hnone]

lemma dealt_injective : Function.Injective dealt := by
  intro i j h
  obtain ⟨hregion,hindex⟩ := HtelmPtr.mk.inj h
  simp only [numRegions] at hregion hindex
  omega

lemma dealt_region_lt (i : ℕ) : (dealt i).region < numRegions := Nat.mod_lt _ (by decide)

lemma keyOffset_dealt (i : ℕ) : (dealt i).keyOffset = i/4*32 := rfl

section
variable {hashsize : UInt64} (hfits : hashsize.toNat*32 < 2^64)
include hfits

lemma regionSize_toNat : (hashsize*sizeofHtelm/4).toNat = hashsize.toNat*8 := by
  have hprod : (hashsize*sizeofHtelm).toNat = hashsize.toNat*32 := by
    rw [UInt64.toNat_mul]
    exact Nat.mod_eq_of_lt hfits
  rw [UInt64.toNat_div,hprod]
  change hashsize.toNat*32/4 = hashsize.toNat*8
  omega

lemma allocateTable_eq : allocateTable hashsize = tableAfter hashsize 0 := by
  have hentries : (hashsize*8).toNat/8 = hashsize.toNat := by
    rw [UInt64.toNat_mul]
    change hashsize.toNat*8 % 2^64/8 = hashsize.toNat
    omega
  have hregion : ∀ r,regionAfter hashsize 0 r = allocate (hashsize*sizeofHtelm/4) := by
    intro r
    simp [regionAfter,allocate]
  have hregions : (List.range numRegions).map (regionAfter hashsize 0) =
      List.replicate numRegions (allocate (hashsize*sizeofHtelm/4)) := by
    rw [funext hregion,List.map_const',List.length_range]
  have hbuckets : (List.range hashsize.toNat).map
      (fun i => if i < 0 then some (dealt i) else none) = List.replicate hashsize.toNat none := by
    simp only [Nat.not_lt_zero,if_false,List.map_const',List.length_range]
  rw [allocateTable,tableAfter,hentries,hregions,hbuckets]

/-- The key of a bucket lies inside its region even where the element does not. -/
lemma keyOffset_le {i : ℕ} (hi : i < hashsize.toNat) :
    (dealt i).keyOffset+8 ≤ (hashsize*sizeofHtelm/4).toNat := by
  rw [regionSize_toNat hfits,keyOffset_dealt]
  omega

omit hfits in
lemma region_tableAfter (n i : ℕ) :
    (tableAfter hashsize n).region (dealt i) = .ok (regionAfter hashsize n (i % numRegions)) := by
  have hr : (dealt i).region < numRegions := dealt_region_lt i
  rw [Table.region,tableAfter,List.getElem?_map,List.getElem?_range hr]
  rfl

/-- The round of bucket `n` writes one word of its region. -/
lemma store_regionAfter {n : ℕ} (hn : n < hashsize.toNat) :
    (regionAfter hashsize n (n % numRegions)).store (dealt n).keyOffset (UInt64.ofNat (n+1)) =
      .ok (regionAfter hashsize (n+1) (n % numRegions)) := by
  have hregion : n % numRegions = n % 4 := rfl
  have hword : (dealt n).keyOffset/8 = n/4*4 := by
    rw [keyOffset_dealt]
    omega
  refine (if_pos (keyOffset_le hfits hn)).trans (congrArg Except.ok ?_)
  rw [hword,hregion,regionAfter,regionAfter]
  congr 1
  funext w
  by_cases hw : w = n/4*4
  · have hkey : w+n % 4 = n := by omega
    rw [if_pos hw,hkey,if_pos ⟨by omega,by omega⟩]
  · have hsame : (w % 4 = 0 ∧ w+n % 4 < n+1) ↔ (w % 4 = 0 ∧ w+n % 4 < n) := by omega
    simp only [if_neg hw,hsame]

omit hfits in
/-- It leaves the other regions alone. -/
lemma regionAfter_succ_of_ne {n r : ℕ} (hr : r < numRegions) (hrn : r ≠ n % numRegions) :
    regionAfter hashsize (n+1) r = regionAfter hashsize n r := by
  have hregion : n % numRegions = n % 4 := rfl
  have hfour : numRegions = 4 := rfl
  rw [regionAfter,regionAfter]
  congr 1
  funext w
  have hsame : (w % 4 = 0 ∧ w+r < n+1) ↔ (w % 4 = 0 ∧ w+r < n) := by omega
  simp only [hsame]

omit hfits in
lemma setBucket_tableAfter {n : ℕ} (hn : n < hashsize.toNat) :
    (tableAfter hashsize n).setBucket n (dealt n) = .ok
      { tableAfter hashsize n with hashtable := (tableAfter hashsize (n+1)).hashtable } := by
  rw [Table.setBucket,if_pos (by simpa [tableAfter] using hn)]
  have hset := set_map_range (m := hashsize.toNat) (n := n)
    (f := fun i => if i < n then some (dealt i) else none)
    (g := fun i => if i < n+1 then some (dealt i) else none) (fun i _ hne => by
      have hsame : i < n+1 ↔ i < n := by omega
      simp only [hsame])
  rw [if_pos (Nat.lt_succ_self n)] at hset
  rw [tableAfter,tableAfter,hset]
  rfl

lemma initBucket_tableAfter {n : ℕ} (hn : n < hashsize.toNat) :
    initBucket (tableAfter hashsize n) n = .ok (tableAfter hashsize (n+1)) := by
  have hregions := set_map_range (m := numRegions) (n := n % numRegions)
    (f := regionAfter hashsize n) (g := regionAfter hashsize (n+1))
    fun r hr hne => regionAfter_succ_of_ne hr hne
  have hkey : Table.setKey
      { tableAfter hashsize n with hashtable := (tableAfter hashsize (n+1)).hashtable }
      (dealt n) (UInt64.ofNat (n+1)) = .ok (tableAfter hashsize (n+1)) := by
    change (do
      let hte ← (tableAfter hashsize n).region (dealt n)
      let hte ← hte.store (dealt n).keyOffset (UInt64.ofNat (n+1))
      return (⟨(tableAfter hashsize (n+1)).hashtable,
        (tableAfter hashsize n).htelms.set (n % numRegions) hte⟩ : Table)) = _
    rw [region_tableAfter]
    change (do
      let hte ← (regionAfter hashsize n (n % numRegions)).store (dealt n).keyOffset
        (UInt64.ofNat (n+1))
      return (⟨(tableAfter hashsize (n+1)).hashtable,
        (tableAfter hashsize n).htelms.set (n % numRegions) hte⟩ : Table)) = _
    rw [store_regionAfter hfits hn]
    exact congrArg (fun l => Except.ok (Table.mk (tableAfter hashsize (n+1)).hashtable l)) hregions
  change (do
    let t ← (tableAfter hashsize n).setBucket n (dealt n)
    t.setKey (dealt n) (UInt64.ofNat (n+1))) = _
  rw [setBucket_tableAfter hn]
  exact hkey

/-- The initialisation loop never writes outside an allocation. -/
theorem initTable_eq : initTable hashsize = .ok (tableAfter hashsize hashsize.toNat) := by
  have hrounds : ∀ n ≤ hashsize.toNat,
      (List.range n).foldlM initBucket (allocateTable hashsize) =
        .ok (tableAfter hashsize n) := by
    intro n
    induction n with
    | zero => exact fun _ => congrArg Except.ok (allocateTable_eq hfits)
    | succ n ih =>
      intro hn
      rw [List.range_succ,foldlM_snoc_ok (ih (by omega))]
      exact initBucket_tableAfter hfits hn
  exact hrounds hashsize.toNat (Nat.le_refl _)

omit hfits in
lemma bucket_tableAfter {i : ℕ} (hi : i < hashsize.toNat) :
    (tableAfter hashsize hashsize.toNat).bucket i = .ok (some (dealt i)) := by
  rw [Table.bucket,tableAfter,List.getElem?_map,List.getElem?_range hi]
  change Except.ok (if i < hashsize.toNat then some (dealt i) else none) = _
  rw [if_pos hi]

lemma key_tableAfter {i : ℕ} (hi : i < hashsize.toNat) :
    (tableAfter hashsize hashsize.toNat).key (dealt i) = .ok (UInt64.ofNat (i+1)) := by
  have hword : (dealt i).keyOffset/8 = i/4*4 := by
    rw [keyOffset_dealt]
    omega
  have hregion : i % numRegions = i % 4 := rfl
  have hload : (regionAfter hashsize hashsize.toNat (i % numRegions)).load (dealt i).keyOffset =
      .ok (UInt64.ofNat (i+1)) := by
    refine (if_pos (keyOffset_le hfits hi)).trans (congrArg Except.ok ?_)
    rw [hword,hregion,regionAfter]
    have hkey : i/4*4+i % 4 = i := by omega
    change (if i/4*4 % 4 = 0 ∧ i/4*4+i % 4 < hashsize.toNat then _ else _) = _
    rw [hkey,if_pos ⟨by omega,hi⟩]
  rw [Table.key,region_tableAfter]
  exact hload

/-- Every probe reads a key that the initialisation wrote. -/
lemma probe_tableAfter (hpos : 1 ≤ hashsize.toNat) (h : UInt64) :
    probe hashsize (tableAfter hashsize hashsize.toNat) h = .ok true := by
  have hi : (h % hashsize).toNat < hashsize.toNat := by
    rw [UInt64.toNat_mod]
    exact Nat.mod_lt _ hpos
  have hne : UInt64.ofNat ((h % hashsize).toNat+1) ≠ 0 := by
    intro hzero
    have hsmall : (h % hashsize).toNat+1 < 2^64 := by omega
    have hval := congrArg UInt64.toNat hzero
    rw [UInt64.toNat_ofNat_of_lt' hsmall] at hval
    exact absurd hval (Nat.succ_ne_zero _)
  rw [probe,bucket_tableAfter hi]
  change (do
    let key ← (tableAfter hashsize hashsize.toNat).key (dealt (h % hashsize).toNat)
    return decide (key ≠ 0)) = _
  rw [key_tableAfter hfits hi]
  exact congrArg Except.ok (decide_eq_true hne)

lemma countProbe_tableAfter (hpos : 1 ≤ hashsize.toNat) (found h : UInt64) :
    countProbe hashsize (tableAfter hashsize hashsize.toNat) found h = .ok (found+1) := by
  rw [countProbe,probe_tableAfter hfits hpos]
  rfl

lemma lookup_tableAfter (hpos : 1 ≤ hashsize.toNat) (found : UInt64) (i : ℕ) :
    lookup hashsize (tableAfter hashsize hashsize.toNat) found i = .ok (found+1+1+1+1) := by
  have hcount := countProbe_tableAfter hfits hpos
  rw [lookup]
  simp only [hcount]
  rfl

/-- All four probes of every lookup match. -/
theorem lookups_eq (hpos : 1 ≤ hashsize.toNat) (nlookups : UInt64) :
    initTable hashsize >>= lookups hashsize nlookups = .ok (4*nlookups) := by
  have hrounds : ∀ n,(List.range n).foldlM (lookup hashsize (tableAfter hashsize hashsize.toNat)) 0
      = .ok (4*UInt64.ofNat n) := by
    intro n
    induction n with
    | zero => rfl
    | succ n ih =>
      have hsum : 4*UInt64.ofNat n+1+1+1+1 = 4*UInt64.ofNat (n+1) := by
        rw [UInt64.ofNat_add]
        grind
      rw [List.range_succ,foldlM_snoc_ok ih,lookup_tableAfter hfits hpos,hsum]
  have hall := hrounds nlookups.toNat
  rw [UInt64.ofNat_toNat] at hall
  rw [initTable_eq hfits]
  exact hall

/-- The table is laid out as meant exactly where the regions divide the buckets evenly. -/
theorem laidOut_iff (hpos : 1 ≤ hashsize.toNat) :
    (∃ t, initTable hashsize = .ok t ∧ LaidOut hashsize t) ↔ hashsize.toNat % numRegions = 0 := by
  change _ ↔ hashsize.toNat % 4 = 0
  have hinside : ∀ i, (dealt i).index*32+32 ≤ (hashsize*sizeofHtelm/4).toNat ↔
      i/4+1 ≤ hashsize.toNat/4 := by
    intro i
    rw [regionSize_toNat hfits]
    change i/4*32+32 ≤ hashsize.toNat*8 ↔ _
    omega
  constructor
  · rintro ⟨t,ht,hlaid⟩
    obtain rfl := Except.ok.inj ((initTable_eq hfits).symm.trans ht)
    obtain ⟨e,hte,hbucket,-,hregion,hend⟩ := hlaid.inside (hashsize.toNat-1) (by omega)
    obtain rfl : dealt (hashsize.toNat-1) = e := by
      have heq := (bucket_tableAfter (i := hashsize.toNat-1) (by omega)).symm.trans hbucket
      exact Option.some.inj (Except.ok.inj heq)
    obtain rfl := Except.ok.inj ((region_tableAfter _ _).symm.trans hregion)
    have hlast := (hinside (hashsize.toNat-1)).mp (by
      change ((dealt (hashsize.toNat-1)).index+1)*32 ≤ (hashsize*sizeofHtelm/4).toNat at hend
      omega)
    omega
  · intro hmod
    refine ⟨tableAfter hashsize hashsize.toNat,initTable_eq hfits,⟨?_,?_,?_,?_⟩⟩
    · intro i hi
      refine ⟨dealt i,_,bucket_tableAfter hi,rfl,region_tableAfter _ i,?_⟩
      have hi' := (hinside i).mpr (by omega)
      change ((dealt i).index+1)*32 ≤ (hashsize*sizeofHtelm/4).toNat
      omega
    · intro i hi j hj h
      rw [bucket_tableAfter hi,bucket_tableAfter hj] at h
      exact dealt_injective (Option.some.inj (Except.ok.inj h))
    · exact fun i hi => ⟨dealt i,bucket_tableAfter hi,key_tableAfter hfits hi⟩
    · exact probe_tableAfter hfits hpos

end

/-- With one bucket, its element has 32 bytes in a region of 8. -/
theorem one_bucket_not_laidOut :
    ¬ ∃ t, initTable 1 = .ok t ∧ LaidOut 1 t := by
  rintro ⟨t,ht,hlaid⟩
  obtain rfl := Except.ok.inj ((initTable_eq (by decide)).symm.trans ht)
  obtain ⟨e,hte,hbucket,-,hregion,hend⟩ := hlaid.inside 0 (by decide)
  obtain rfl : dealt 0 = e :=
    Option.some.inj (Except.ok.inj ((bucket_tableAfter (by decide)).symm.trans hbucket))
  obtain rfl := Except.ok.inj ((region_tableAfter _ _).symm.trans hregion)
  exact absurd hend (by decide)

theorem laidOut_iff_eight :
    1 ≤ (8 : UInt64).toNat ∧ (8 : UInt64).toNat*32 < 2^64 ∧
      ((∃ t, initTable 8 = .ok t ∧ LaidOut 8 t) ↔ (8 : UInt64).toNat % numRegions = 0) :=
  ⟨by decide,by decide,laidOut_iff (by decide) (by decide)⟩

end ElasticTranslations.Benchmarks.HashJoin
