import ElasticTranslations.Pcc.CacheContents
import ElasticTranslations.Pcc.TrackAccess

/-! The four caches of the simulator, the 2 MiB region of an address, its 512 base pages and
the keys under which the promotion cache keeps regions. -/
namespace ElasticTranslations.Pcc

instance : l1Tlb4kGeometry.Sound where
  line := by decide +kernel
  huge := by decide +kernel
  sets := by decide +kernel
  ways := by decide +kernel
  lruOrLfu := by decide +kernel

instance : l1Tlb2mGeometry.Sound where
  line := by decide +kernel
  huge := by decide +kernel
  sets := by decide +kernel
  ways := by decide +kernel
  lruOrLfu := by decide +kernel

instance : l2TlbGeometry.Sound where
  line := by decide +kernel
  huge := by decide +kernel
  sets := by decide +kernel
  ways := by decide +kernel
  lruOrLfu := by decide +kernel

instance : promotionCacheGeometry.Sound where
  line := by decide +kernel
  huge := by decide +kernel
  sets := by decide +kernel
  ways := by decide +kernel
  lruOrLfu := by decide +kernel

/-- The number of the 2 MiB region of an address, `base` in the source. -/
def region (vaddr : UInt64) : UInt64 := vaddr/hugePageSize

lemma region_toNat (v : UInt64) : (region v).toNat = v.toNat/2^21 := by
  simp [region,hugePageSize]

lemma region_lt (v : UInt64) : (region v).toNat < 2^43 := by
  have := v.toNat_lt
  rw [region_toNat]
  omega

lemma pageAddress_toNat {base : UInt64} (hb : base.toNat < 2^43) {i : ℕ} (hi : i < 512) :
    (pageAddress base i).toNat = base.toNat*2^21 + i*2^12 := by
  simp only [pageAddress,hugePageSize,pageSize,UInt64.toNat_add,UInt64.toNat_mul,
    UInt64.toNat_ofNat',UInt64.reduceToNat]
  omega

lemma region_pageAddress {base : UInt64} (hb : base.toNat < 2^43) {i : ℕ} (hi : i < 512) :
    region (pageAddress base i) = base := by
  rw [← UInt64.toNat_inj,region_toNat,pageAddress_toNat hb hi]
  omega

lemma l1Tlb4k_page (v : UInt64) : l1Tlb4kGeometry.pageNumber v false = v.toNat/2^12 := by
  have h : l1Tlb4kGeometry.offsetBits false = 12 := by decide +kernel
  rw [Geometry.pageNumber,h]

lemma l2Tlb_page (v : UInt64) : l2TlbGeometry.pageNumber v false = v.toNat/2^12 := by
  have h : l2TlbGeometry.offsetBits false = 12 := by decide +kernel
  rw [Geometry.pageNumber,h]

lemma l1Tlb2m_page (v : UInt64) (f : Bool) : l1Tlb2mGeometry.pageNumber v f = v.toNat/2^21 := by
  have h : l1Tlb2mGeometry.offsetBits f = 21 := by cases f <;> decide +kernel
  rw [Geometry.pageNumber,h]

/-- Both page sizes of a lookup are 2 MiB in the L1 2M TLB. -/
lemma l1Tlb2m_hits (c : FunctionalCache l1Tlb2mGeometry) (v : UInt64) :
    c.hits v true = c.hits v := by
  have hk := (l1Tlb2mGeometry.key_eq_iff v v true false).mpr (by rw [l1Tlb2m_page,l1Tlb2m_page])
  rw [FunctionalCache.hits,hk]
  rfl

/-- A 2 MiB page number is a region number in every geometry. -/
lemma huge_page (g : Geometry) (v : UInt64) : g.pageNumber v true = (region v).toNat := by
  rw [region_toNat]; rfl

/-- An address lies on one of the base pages of its region. -/
lemma exists_page (v : UInt64) :
    ∃ i < 512, v.toNat/2^12 = (pageAddress (region v) i).toNat/2^12 := by
  have hv := v.toNat_lt
  have hr := region_toNat v
  refine ⟨v.toNat/2^12 % 512,by omega,?_⟩
  rw [pageAddress_toNat (region_lt v) (by omega)]
  omega

/-- The address under which the promotion cache is asked for a region. -/
lemma entryAddress_toNat {base : UInt64} (hb : base.toNat < 2^43) :
    (base*pageSize).toNat = base.toNat*2^12 := by
  simp only [pageSize,UInt64.toNat_mul,UInt64.reduceToNat]
  omega

lemma promotionCache_page {base : UInt64} (hb : base.toNat < 2^43) (f : Bool) :
    promotionCacheGeometry.pageNumber (base*pageSize) f =
      if f then base.toNat/2^9 else base.toNat := by
  have h : promotionCacheGeometry.offsetBits false = 12 := by decide +kernel
  have hm := entryAddress_toNat hb
  cases f
  · simp only [Geometry.pageNumber,h,hm]
    simp
  · simp only [Geometry.pageNumber,Geometry.offsetBits,hm,if_true]
    omega

/-- The promotion cache has one set, and the tag of a region is its number or, for a
promoted region, that number shifted by the difference of the page sizes. -/
lemma promotionCache_key {base : UInt64} (hb : base.toNat < 2^43) (f : Bool) :
    promotionCacheGeometry.key (base*pageSize) f = (0,if f then base/512 else base) := by
  have h : promotionCacheGeometry.logSetCount = 0 := by decide +kernel
  refine Prod.ext ?_ ?_
  · simp only [Geometry.key,Geometry.setidOf_toNat,h,pow_zero,Nat.mod_one]
  · rw [← UInt64.toNat_inj]
    simp only [Geometry.key,Geometry.tagOf_toNat,promotionCache_page hb,h,pow_zero,Nat.div_one]
    cases f <;> simp

/-- A region starts at offset 0 of a base page. -/
lemma promotionCache_offset {base : UInt64} (hb : base.toNat < 2^43) :
    promotionCacheGeometry.offsetOf (base*pageSize) false = 0 := by
  have h : promotionCacheGeometry.offsetBits false = 12 := by decide +kernel
  rw [← UInt64.toNat_inj,Geometry.offsetOf_toNat,h,entryAddress_toNat hb]
  simp

end ElasticTranslations.Pcc
