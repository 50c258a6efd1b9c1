import ElasticTranslations.Structures.RowLayout

/-! The prefix sums of `builder.h`: the one that works in blocks, on several threads, agrees with
the plain one. Arrays that are not initialized hold zeros. -/
namespace ElasticTranslations.Gapbs
open Structures

/-- `sums[n] = total; total += degrees[n]`. -/
def sumInto (degrees : List ℕ) (n : ℕ) (s : List ℕ × ℕ) : Option (List ℕ × ℕ) := do
  let sums ← write s.1 n s.2
  let d ← degrees[n]?
  some (sums,s.2+d)

def prefixSum (degrees : List ℕ) : Option (List ℕ) := do
  let (sums,total) ← forUp (sumInto degrees) degrees.length 0
    (List.replicate (degrees.length+1) 0,0)
  write sums degrees.length total

/-- `block_end`. -/
def blockEnd (blockSize : ℕ) (degrees : List ℕ) (block : ℕ) : ℕ :=
  min ((block+1)*blockSize) degrees.length

/-- The sum of one block. -/
def localSum (blockSize : ℕ) (degrees : List ℕ) (block : ℕ) : Option ℕ :=
  forUp (fun i lsum => do
    let d ← degrees[i]?
    some (lsum+d)) (blockEnd blockSize degrees block-block*blockSize) (block*blockSize) 0

/-- The prefix sums inside of one block. -/
def blockSums (blockSize : ℕ) (degrees bulkPrefix sums : List ℕ) (block : ℕ) :
    Option (List ℕ) := do
  let localTotal ← bulkPrefix[block]?
  let (sums,_) ← forUp (sumInto degrees) (blockEnd blockSize degrees block-block*blockSize)
    (block*blockSize) (sums,localTotal)
  some sums

def numBlocks (blockSize : ℕ) (degrees : List ℕ) : ℕ := (degrees.length+blockSize-1)/blockSize

/-- `ParallelPrefixSum`, whose two parallel loops go through the blocks in the orders `first` and
`second`. The loop between them is that of `PrefixSum`. -/
def parallelPrefixSum (blockSize : ℕ) (first second degrees : List ℕ) : Option (List ℕ) := do
  let localSums ← first.foldlM (fun sums block => do
    let lsum ← localSum blockSize degrees block
    write sums block lsum) (List.replicate (numBlocks blockSize degrees) 0)
  let bulkPrefix ← prefixSum localSums
  let sums ← second.foldlM (blockSums blockSize degrees bulkPrefix)
    (List.replicate (degrees.length+1) 0)
  let total ← bulkPrefix[numBlocks blockSize degrees]?
  write sums degrees.length total

section Plain

lemma sumInto_rule (degrees : List ℕ) (m i : ℕ) (xs : List ℕ) (hm : i+m ≤ degrees.length)
    (hxs : i+m ≤ xs.length) :
    ∃ ys,forUp (sumInto degrees) m i (xs,(degrees.take i).sum) =
        some (ys,(degrees.take (i+m)).sum) ∧ ys.length = xs.length ∧
      ∀ k,ys[k]? = if i ≤ k ∧ k < i+m then some (degrees.take k).sum else xs[k]? := by
  obtain ⟨⟨ys,total⟩,hys,hlen,htotal,hat⟩ := forUp_rule (sumInto degrees) (n := m) (i := i)
    (s := (xs,(degrees.take i).sum))
    (I := fun j s => s.1.length = xs.length ∧ s.2 = (degrees.take j).sum ∧
      ∀ k,s.1[k]? = if i ≤ k ∧ k < j then some (degrees.take k).sum else xs[k]?)
    ⟨rfl,rfl,fun k => (if_neg (by omega)).symm⟩ (by
      rintro j ⟨ys,total⟩ hij hj ⟨hlen,rfl,hat⟩
      have hd : degrees[j]? = some degrees[j] := List.getElem?_eq_getElem (by omega)
      have hw : write ys j (degrees.take j).sum = some (ys.set j (degrees.take j).sum) :=
        write_of_lt (by simp only at hlen; omega) _
      refine ⟨(ys.set j (degrees.take j).sum,(degrees.take j).sum+degrees[j]),
        by simp [sumInto,hw,hd],by simpa using hlen,(sum_take_succ hd).symm,fun k => ?_⟩
      simp only at hlen hat ⊢
      rw [List.getElem?_set,hat]
      grind)
  simp only at htotal
  subst htotal
  exact ⟨ys,hys,hlen,hat⟩

/-- The total goes behind the sums before each position. -/
lemma write_total {degrees sums : List ℕ} (hlen : sums.length = degrees.length+1)
    (hat : ∀ k < degrees.length,sums[k]? = some (degrees.take k).sum) :
    write sums degrees.length degrees.sum = some (offsets degrees) := by
  rw [write_of_lt (by omega)]
  congr 1
  apply List.ext_getElem?
  intro k
  rcases lt_trichotomy k degrees.length with hlt | rfl | hlt
  · rw [List.getElem?_set_ne (by omega),hat k hlt,getElem?_offsets hlt.le]
  · rw [List.getElem?_set_self (by omega),getElem?_offsets le_rfl,List.take_length]
  · rw [List.getElem?_eq_none (by simp only [List.length_set]; omega),
      List.getElem?_eq_none (by simp only [length_offsets]; omega)]

lemma prefixSum_eq (degrees : List ℕ) : prefixSum degrees = some (offsets degrees) := by
  obtain ⟨ys,hys,hlen,hat⟩ := sumInto_rule degrees degrees.length 0
    (List.replicate (degrees.length+1) 0) (by omega) (by simp)
  rw [List.length_replicate] at hlen
  simp only [List.take_zero,List.sum_nil,Nat.zero_add,List.take_length] at hys hat
  simp only [prefixSum,hys,Option.bind_eq_bind,Option.bind_some]
  exact write_total hlen fun k hk => by rw [hat,if_pos (by omega)]

end Plain

section Blocks
variable {blockSize : ℕ} {degrees : List ℕ}

/-- Where a block starts; the last one may be cut short. -/
def blockStart (blockSize : ℕ) (degrees : List ℕ) (block : ℕ) : ℕ :=
  min (block*blockSize) degrees.length

lemma blockStart_mono (blockSize : ℕ) (degrees : List ℕ) :
    Monotone (blockStart blockSize degrees) := by
  intro a b hab
  have := Nat.mul_le_mul_right blockSize hab
  simp only [blockStart]
  omega

lemma blockStart_of_lt (hpos : 0 < blockSize) {block : ℕ}
    (hblock : block < numBlocks blockSize degrees) :
    blockStart blockSize degrees block = block*blockSize := by
  rw [numBlocks,Nat.lt_iff_add_one_le,Nat.le_div_iff_mul_le hpos,Nat.succ_mul] at hblock
  rw [blockStart]
  omega

lemma blockStart_numBlocks (hpos : 0 < blockSize) :
    blockStart blockSize degrees (numBlocks blockSize degrees) = degrees.length := by
  have hlt := Nat.lt_div_mul_add hpos (a := degrees.length+blockSize-1)
  rw [blockStart,numBlocks]
  omega

/-- Every position lies in a block. -/
lemma exists_block (hpos : 0 < blockSize) {k : ℕ} (hk : k < degrees.length) :
    ∃ block < numBlocks blockSize degrees,blockStart blockSize degrees block ≤ k ∧
      k < blockStart blockSize degrees (block+1) := by
  have hle := Nat.div_mul_le_self k blockSize
  have hlt := Nat.lt_div_mul_add hpos (a := k)
  refine ⟨k/blockSize,?_,?_,?_⟩
  · rw [numBlocks,Nat.lt_iff_add_one_le,Nat.le_div_iff_mul_le hpos,Nat.succ_mul]
    omega
  · rw [blockStart]
    omega
  · rw [blockStart,Nat.succ_mul]
    omega

lemma sum_take_mono (degrees : List ℕ) {a b : ℕ} (hab : a ≤ b) :
    (degrees.take a).sum ≤ (degrees.take b).sum := by
  obtain ⟨c,rfl⟩ := Nat.exists_eq_add_of_le hab
  rw [List.take_add,List.sum_append]
  omega

/-- The sum that a block adds. -/
def blockTotal (blockSize : ℕ) (degrees : List ℕ) (block : ℕ) : ℕ :=
  (degrees.take (blockStart blockSize degrees (block+1))).sum-
    (degrees.take (blockStart blockSize degrees block)).sum

lemma localSum_eq (hpos : 0 < blockSize) {block : ℕ}
    (hblock : block < numBlocks blockSize degrees) :
    localSum blockSize degrees block = some (blockTotal blockSize degrees block) := by
  have hstart := blockStart_of_lt hpos hblock
  have hmono := blockStart_mono blockSize degrees
    (Nat.le_add_right block 1)
  have hend : blockEnd blockSize degrees block = blockStart blockSize degrees (block+1) := rfl
  have hlen : blockStart blockSize degrees (block+1) ≤ degrees.length := Nat.min_le_right _ _
  rw [hstart] at hmono
  obtain ⟨lsum,hlsum,hsum⟩ := forUp_rule (fun i lsum => do
      let d ← degrees[i]?
      some (lsum+d)) (n := blockEnd blockSize degrees block-block*blockSize)
    (i := block*blockSize) (s := 0)
    (I := fun j lsum => (degrees.take j).sum = (degrees.take (block*blockSize)).sum+lsum)
    rfl (by
      intro j lsum hj hjn hI
      have hd : degrees[j]? = some degrees[j] := List.getElem?_eq_getElem (by omega)
      refine ⟨lsum+degrees[j],by simp [hd],?_⟩
      rw [sum_take_succ hd,hI,Nat.add_assoc])
  rw [localSum,hlsum,blockTotal,hstart]
  rw [show block*blockSize+(blockEnd blockSize degrees block-block*blockSize) =
    blockStart blockSize degrees (block+1) by omega] at hsum
  rw [hsum,Nat.add_sub_cancel_left]

lemma sum_blockTotals {m : ℕ} :
    (((List.range m).map (blockTotal blockSize degrees))).sum =
      (degrees.take (blockStart blockSize degrees m)).sum := by
  induction m with
  | zero => simp [blockStart]
  | succ m ih =>
    have hmono := sum_take_mono degrees
      (blockStart_mono blockSize degrees (Nat.le_add_right m 1))
    rw [List.range_succ,List.map_append,List.sum_append,ih]
    simp only [List.map_cons,List.map_nil,List.sum_cons,List.sum_nil,blockTotal]
    omega

/-- The sums, when the blocks `pre` have been written. -/
structure Summed (blockSize : ℕ) (degrees pre sums : List ℕ) : Prop where
  length_eq : sums.length = degrees.length+1
  sum : ∀ block ∈ pre,∀ k,blockStart blockSize degrees block ≤ k →
    k < blockStart blockSize degrees (block+1) → sums[k]? = some (degrees.take k).sum

/-- A block writes its own sums, from the one that its predecessors add up to. -/
lemma Summed.step {pre sums bulk : List ℕ} {block : ℕ} (h : Summed blockSize degrees pre sums)
    (hpos : 0 < blockSize) (hblock : block < numBlocks blockSize degrees)
    (hbulk : bulk[block]? = some (degrees.take (blockStart blockSize degrees block)).sum) :
    ∃ sums',blockSums blockSize degrees bulk sums block = some sums' ∧
      Summed blockSize degrees (pre++[block]) sums' := by
  have hstart := blockStart_of_lt hpos hblock
  have hmono := blockStart_mono blockSize degrees (Nat.le_add_right block 1)
  have hend : blockEnd blockSize degrees block = blockStart blockSize degrees (block+1) := rfl
  have hle : blockStart blockSize degrees (block+1) ≤ degrees.length := Nat.min_le_right _ _
  have hlen := h.length_eq
  obtain ⟨ys,hys,hylen,hyat⟩ := sumInto_rule degrees
    (blockEnd blockSize degrees block-block*blockSize) (block*blockSize) sums (by omega) (by omega)
  refine ⟨ys,by simp [blockSums,hbulk,hstart,hys],by omega,fun b hb k hk hk' => ?_⟩
  rw [hyat]
  split_ifs with hin
  · rfl
  · have hbb : b ≠ block := by
      rintro rfl
      omega
    exact h.sum b (by simpa [hbb] using hb) k hk hk'

lemma parallelPrefixSum_eq (hpos : 0 < blockSize) {first second : List ℕ}
    (hfirst : first.Perm (List.range (numBlocks blockSize degrees)))
    (hsecond : second.Perm (List.range (numBlocks blockSize degrees))) :
    parallelPrefixSum blockSize first second degrees = some (offsets degrees) := by
  have hbulk : ∀ block ≤ numBlocks blockSize degrees,
      (offsets ((List.range (numBlocks blockSize degrees)).map
        (blockTotal blockSize degrees)))[block]? =
        some (degrees.take (blockStart blockSize degrees block)).sum := by
    intro block hblock
    rw [getElem?_offsets (by simpa using hblock),← List.map_take,List.take_range,
      min_eq_left hblock,sum_blockTotals]
  have hlocal := fillCells_rule hfirst (fun block hblock => localSum_eq hpos hblock)
    (List.replicate (numBlocks blockSize degrees) 0) List.length_replicate
  obtain ⟨sums,hsums,hsummed⟩ := foldlM_rule
    (blockSums blockSize degrees (offsets ((List.range (numBlocks blockSize degrees)).map
      (blockTotal blockSize degrees)))) (l := second)
    (s := List.replicate (degrees.length+1) 0) (I := Summed blockSize degrees)
    ⟨List.length_replicate,by simp⟩ fun pre block post sums heq h => by
      have hblock := (Perm.mem_parts hsecond heq).1
      exact h.step hpos hblock (hbulk block hblock.le)
  rw [parallelPrefixSum,hlocal]
  simp only [prefixSum_eq,Option.bind_eq_bind,Option.bind_some,hsums,hbulk _ le_rfl,
    blockStart_numBlocks hpos,List.take_length]
  refine write_total hsummed.length_eq fun k hk => ?_
  obtain ⟨block,hblock,hle,hlt⟩ := exists_block hpos hk
  exact hsummed.sum block ((Perm.mem_iff_lt hsecond).mpr hblock) k hle hlt

/-- Whatever the orders in which the threads get to the blocks. -/
theorem parallelPrefixSum_eq_prefixSum (hpos : 0 < blockSize) {first second : List ℕ}
    (hfirst : first.Perm (List.range (numBlocks blockSize degrees)))
    (hsecond : second.Perm (List.range (numBlocks blockSize degrees))) :
    parallelPrefixSum blockSize first second degrees = prefixSum degrees := by
  rw [parallelPrefixSum_eq hpos hfirst hsecond,prefixSum_eq]

theorem parallelPrefixSum_eq_prefixSum_reversed :
    parallelPrefixSum 2 [2,1,0] [1,0,2] [3,1,4,1,5] = prefixSum [3,1,4,1,5] :=
  parallelPrefixSum_eq_prefixSum (by decide) (by decide) (by decide)

end Blocks

end ElasticTranslations.Gapbs
