import ElasticTranslations.Scripts.HintFormat
import ElasticTranslations.Structures.Dict
import Mathlib.Algebra.Order.Field.Rat
import Mathlib.Data.Finset.Max
import Mathlib.Tactic.Linarith

/-! `coverage.py`: the share of the sampled misses that the hinted ranges would have
averted. Misses are kept by page number, but hints by byte address, and the two are compared
as they are. Quotients are exact rationals in place of `float`. -/
namespace ElasticTranslations.Scripts
open Structures

/-- One line of the miss file; lines that are no number are passed over. `setdefault` and the
increment are one assignment. -/
def addMiss (misses : Dict ℤ ℕ) (line : Text) : Dict ℤ ℕ :=
  match int 16 (strip line) with
  | .ok miss =>
    let addr := miss >>> (12 : ℕ)
    misses.set addr ((misses.get? addr).getD 0 + 1)
  | .error _ => misses

def readMisses (missLines : List Text) : Dict ℤ ℕ := missLines.foldl addMiss .empty

/-- `addr in range(start, end)`. -/
def inRange (addr : ℤ) (hint : ℤ × ℤ) : Bool := hint.1 ≤ addr && addr < hint.2

/-- The loop over `misses.items()`. -/
def averted (hints : List (ℤ × ℤ)) (misses : Dict ℤ ℕ) : ℕ :=
  misses.entries.foldl
    (fun averted item => if hints.any (inRange item.1) then averted+item.2 else averted) 0

/-- The numbers printed. -/
structure Report where
  unique : ℕ
  averted : ℕ
  total : ℕ
  coverage : ℚ

def coverage (missLines hintLines : List Text) : Except PyError Report := do
  let misses := readMisses missLines
  let hints ← hintLines.mapM readRange
  let averted := averted hints misses
  let total := (misses.entries.map Prod.snd).sum
  if total = 0 then throw .zeroDivisionError
  else return ⟨misses.entries.length,averted,total,(averted : ℚ)/total⟩

/-- The addresses of the sampled misses. -/
def sampled (missLines : List Text) : List ℤ :=
  missLines.filterMap fun line => (int 16 (strip line)).toOption

/-- A range contains an address, all at page granularity. -/
def containsPage (addr : ℤ) (hint : ℤ × ℤ) : Bool :=
  hint.1/4096 ≤ addr/4096 && addr/4096 < hint.2/4096

/-- The report says how many of the misses the hinted ranges contain. -/
def CountsContained (missLines hintLines : List Text) (hints : List (ℤ × ℤ)) : Prop :=
  ∃ report, coverage missLines hintLines = .ok report ∧
    report.total = (sampled missLines).length ∧
    report.averted = (sampled missLines).countP (fun addr => hints.any (containsPage addr)) ∧
    report.coverage = (report.averted : ℚ)/report.total

/-- The number of misses on the pages picked by a test. -/
def tally (p : ℤ → Bool) (items : List (ℤ × ℕ)) : ℕ :=
  (items.map fun item => if p item.1 then item.2 else 0).sum

lemma tally_assign (p : ℤ → Bool) (addr : ℤ) (items : List (ℤ × ℕ)) :
    tally p (Dict.assign addr
      (((items.find? fun item => item.1 = addr).map Prod.snd).getD 0 + 1) items) =
      tally p items + if p addr then 1 else 0 := by
  induction items with
  | nil => simp [tally,Dict.assign]
  | cons item items ih =>
    by_cases h : item.1 = addr
    · subst h
      cases hp : p item.1 <;> simp [tally,Dict.assign,hp]
      omega
    · simp only [tally,Dict.assign,h,if_false,List.map_cons,List.sum_cons,List.find?_cons] at ih ⊢
      simp only [decide_false]
      rw [ih]
      omega

/-- The table holds every miss once, under its page. -/
lemma tally_readMisses (p : ℤ → Bool) (missLines : List Text) :
    tally p (readMisses missLines).entries =
      (sampled missLines).countP fun addr => p (addr/4096) := by
  induction missLines using List.reverseRecOn with
  | nil => rfl
  | append_singleton lines line ih =>
    rw [readMisses,List.foldl_append,List.foldl_cons,List.foldl_nil,sampled,List.filterMap_append,
      List.countP_append,← sampled,← ih,← readMisses,addMiss]
    cases hline : int 16 (strip line) with
    | error e => simp [hline,Except.toOption]
    | ok miss =>
      have hpage : miss >>> (12 : ℕ) = miss/4096 := Int.shiftRight_eq_div_pow miss 12
      refine (tally_assign p (miss >>> (12 : ℕ)) (readMisses lines).entries).trans ?_
      rw [hpage]
      simp [hline,Except.toOption]

lemma averted_eq_tally (hints : List (ℤ × ℤ)) (misses : Dict ℤ ℕ) :
    averted hints misses = tally (fun addr => hints.any (inRange addr)) misses.entries := by
  have hfold : ∀ (items : List (ℤ × ℕ)) (n : ℕ), items.foldl
      (fun averted item => if hints.any (inRange item.1) then averted+item.2 else averted) n =
      n + tally (fun addr => hints.any (inRange addr)) items := by
    intro items
    induction items with
    | nil => simp [tally]
    | cons item items ih =>
      intro n
      rw [List.foldl_cons,ih,tally,tally,List.map_cons,List.sum_cons]
      split <;> omega
  rw [averted,hfold,Nat.zero_add]

/-- The numbers of the report, by misses. -/
lemma coverage_eq {missLines hintLines : List Text} {hints : List (ℤ × ℤ)}
    (hparse : hintLines.mapM readRange = .ok hints) (hne : sampled missLines ≠ []) :
    coverage missLines hintLines = .ok
      ⟨(readMisses missLines).entries.length,
        (sampled missLines).countP fun addr => hints.any (inRange (addr/4096)),
        (sampled missLines).length,
        (((sampled missLines).countP fun addr => hints.any (inRange (addr/4096)) : ℕ) : ℚ)/
          (sampled missLines).length⟩ := by
  have htotal : ((readMisses missLines).entries.map Prod.snd).sum = (sampled missLines).length := by
    have h := tally_readMisses (fun _ => true) missLines
    simpa [tally] using h
  have haverted := averted_eq_tally hints (readMisses missLines)
  rw [tally_readMisses] at haverted
  have hpos : (sampled missLines).length ≠ 0 := by simpa using hne
  rw [coverage,hparse]
  change (if ((readMisses missLines).entries.map Prod.snd).sum = 0 then _ else _) = _
  rw [htotal,if_neg hpos,haverted]
  rfl

/-- The report is right when as many misses lie on a page that is a hinted byte address as
on a hinted page. -/
lemma countsContained_iff {missLines hintLines : List Text} {hints : List (ℤ × ℤ)}
    (hparse : hintLines.mapM readRange = .ok hints) (hne : sampled missLines ≠ []) :
    CountsContained missLines hintLines hints ↔
      ((sampled missLines).countP fun addr => hints.any (inRange (addr/4096))) =
        (sampled missLines).countP fun addr => hints.any (containsPage addr) := by
  have hout := coverage_eq hparse hne
  constructor
  · rintro ⟨report,hok,-,haverted,-⟩
    obtain rfl := Except.ok.inj (hout.symm.trans hok)
    exact haverted
  · intro h
    exact ⟨_,hout,rfl,h,rfl⟩

/-- An address whose page is a hinted byte address exactly if it is a hinted page. -/
def SameInBytes (hints : List (ℤ × ℤ)) (addr : ℤ) : Prop :=
  hints.any (inRange (addr/4096)) = hints.any (containsPage addr)

lemma sampled_append (lines : List Text) {line : Text} {miss : ℤ}
    (h : int 16 (strip line) = .ok miss) : sampled (lines ++ [line]) = sampled lines ++ [miss] := by
  simp [sampled,h,Except.toOption]

/-- A file is counted rightly line by line exactly when the units do not matter for any of
its misses. -/
lemma counts_each_iff {hintLines : List Text} {hints : List (ℤ × ℤ)}
    (hparse : hintLines.mapM readRange = .ok hints) (missLines : List Text) :
    (∀ pre, pre <+: missLines → sampled pre ≠ [] → CountsContained pre hintLines hints) ↔
      ∀ addr ∈ sampled missLines, SameInBytes hints addr := by
  constructor
  · intro h addr haddr
    obtain ⟨line,hline,hread⟩ := List.mem_filterMap.mp haddr
    obtain ⟨pre,post,rfl⟩ := List.append_of_mem hline
    have hint : int 16 (strip line) = .ok addr := by
      cases he : int 16 (strip line) with
      | error e => simp [he,Except.toOption] at hread
      | ok miss => simpa [he,Except.toOption] using hread
    have hsampled := sampled_append pre hint
    have hafter := h (pre ++ [line]) ⟨post,by simp⟩ (by simp [hsampled])
    rw [countsContained_iff hparse (by simp [hsampled]),hsampled,List.countP_append,
      List.countP_append,List.countP_singleton,List.countP_singleton] at hafter
    have hbefore : ((sampled pre).countP fun addr => hints.any (inRange (addr/4096))) =
        (sampled pre).countP fun addr => hints.any (containsPage addr) := by
      by_cases hne : sampled pre = []
      · rw [hne]
        rfl
      · exact (countsContained_iff hparse hne).mp (h pre (List.prefix_append _ _) hne)
    unfold SameInBytes
    rw [hbefore] at hafter
    cases hin : hints.any (inRange (addr/4096)) <;> cases hon : hints.any (containsPage addr) <;>
      simp [hin,hon] at hafter ⊢
  · intro h pre hp hne
    rw [countsContained_iff hparse hne]
    refine List.countP_congr fun addr haddr => ?_
    have hsub : sampled pre <+: sampled missLines := hp.filterMap _
    rw [h addr (hsub.subset haddr)]

/-- A hint that is not empty ends after byte address 0, so its last byte address, taken as a
page, lies beyond all hinted pages. -/
lemma exists_not_sameInBytes {hints : List (ℤ × ℤ)}
    (hnonneg : ∀ hint ∈ hints, 0 ≤ hint.1 ∧ 0 ≤ hint.2) {hint : ℤ × ℤ} (hmem : hint ∈ hints)
    (hlt : hint.1 < hint.2) : ∃ addr : ℕ, ¬ SameInBytes hints addr := by
  obtain ⟨last,hlast,hmax⟩ := Finset.exists_max_image (hints.toFinset.filter fun h => h.1 < h.2)
    Prod.snd ⟨hint,by simp [hmem,hlt]⟩
  simp only [Finset.mem_filter,List.mem_toFinset] at hlast hmax
  have hstart := (hnonneg last hlast.1).1
  have hpage : ((((last.2-1)*4096).toNat : ℕ) : ℤ)/4096 = last.2-1 := by omega
  refine ⟨((last.2-1)*4096).toNat,fun hsame => ?_⟩
  unfold SameInBytes at hsame
  rw [hpage] at hsame
  have hin : hints.any (inRange (last.2-1)) = true := by
    refine List.any_eq_true.mpr ⟨last,hlast.1,?_⟩
    simp only [inRange,Bool.and_eq_true,decide_eq_true_eq]
    omega
  rw [hin] at hsame
  obtain ⟨other,hother,hcontains⟩ := List.any_eq_true.mp hsame.symm
  simp only [containsPage,hpage,Bool.and_eq_true,decide_eq_true_eq] at hcontains
  have hnn := hnonneg other hother
  by_cases hne : other.1 < other.2
  · have hle := hmax other ⟨hother,hne⟩
    omega
  · omega

lemma readRanges_nonneg {hintLines : List Text} {hints : List (ℤ × ℤ)}
    (h : hintLines.mapM readRange = .ok hints) : ∀ hint ∈ hints, 0 ≤ hint.1 ∧ 0 ≤ hint.2 := by
  induction hintLines generalizing hints with
  | nil =>
    obtain rfl := Except.ok.inj h
    simp
  | cons line lines ih =>
    rw [List.mapM_cons] at h
    obtain ⟨first,hfirst,h⟩ := bind_eq_ok h
    obtain ⟨rest,hrest,h⟩ := bind_eq_ok h
    obtain rfl := Except.ok.inj h
    exact List.forall_mem_cons.mpr ⟨readRange_nonneg hfirst,ih hrest⟩

/-- A miss file of one line. -/
def missLine (addr : ℕ) : Text := '0' :: 'x' :: hex addr

lemma int_missLine (addr : ℕ) : int 16 (strip (missLine addr)) = .ok (addr : ℤ) := by
  rw [missLine,strip_eq_self fun c hc => isSpace_hex hc,int_hex]

lemma sampled_missLine (addr : ℕ) : sampled [missLine addr] = [(addr : ℤ)] :=
  sampled_append [] (int_missLine addr)

/-- An empty range contains nothing in either unit. -/
lemma sameInBytes_of_empty {hints : List (ℤ × ℤ)} (h : ∀ hint ∈ hints, hint.2 ≤ hint.1)
    (addr : ℤ) : SameInBytes hints addr := by
  have hbytes : hints.any (inRange (addr/4096)) = false := by
    rw [List.any_eq_false]
    intro hint hmem
    have := h hint hmem
    simp only [inRange,Bool.and_eq_true,decide_eq_true_eq]
    omega
  have hpages : hints.any (containsPage addr) = false := by
    rw [List.any_eq_false]
    intro hint hmem
    have := h hint hmem
    simp only [containsPage,Bool.and_eq_true,decide_eq_true_eq]
    omega
  rw [SameInBytes,hbytes,hpages]

/-- A miss file is counted rightly line by line exactly when the units do not matter for its
misses, and a hint file serves every miss file exactly when all its ranges are empty. -/
theorem countsContained_exactly {hintLines : List Text} {hints : List (ℤ × ℤ)}
    (hparse : hintLines.mapM readRange = .ok hints) :
    (∀ missLines,
      (∀ pre, pre <+: missLines → sampled pre ≠ [] → CountsContained pre hintLines hints) ↔
        ∀ addr ∈ sampled missLines, SameInBytes hints addr) ∧
    ((∀ missLines, sampled missLines ≠ [] → CountsContained missLines hintLines hints) ↔
      ∀ hint ∈ hints, hint.2 ≤ hint.1) := by
  refine ⟨counts_each_iff hparse,fun h hint hmem => ?_,fun h missLines hne => ?_⟩
  · by_contra hlt
    obtain ⟨addr,haddr⟩ := exists_not_sameInBytes (readRanges_nonneg hparse) hmem (by omega)
    have hall := (counts_each_iff hparse [missLine addr]).mp fun pre _ hne => h pre hne
    rw [sampled_missLine] at hall
    exact haddr (hall addr (by simp))
  · have heach := (counts_each_iff hparse missLines).mpr fun addr _ => sameInBytes_of_empty h addr
    exact heach missLines (List.prefix_refl _) hne

lemma readRanges_single (start stop : ℕ) :
    [formatRange start stop].mapM readRange = .ok [((start : ℤ),(stop : ℤ))] := by
  rw [List.mapM_cons,readRange_formatRange]
  rfl

/-- A miss in a hinted region of 2 MiB that is not counted. -/
theorem not_countsContained_in_region :
    ¬ ∀ (missLines hintLines : List Text) (hints : List (ℤ × ℤ)),
      hintLines.mapM readRange = .ok hints → sampled missLines ≠ [] →
        CountsContained missLines hintLines hints := by
  intro h
  have hparse := readRanges_single 0xe000000 0xe200000
  have hne : sampled [missLine 0xe000010] ≠ [] := by simp [sampled_missLine]
  have hcounts := h _ _ _ hparse hne
  rw [countsContained_iff hparse hne,sampled_missLine] at hcounts
  exact absurd hcounts (by decide)

/-- Two misses that are counted rightly: the page number of the first one lies in the range of bytes
and in that of pages, the one of the other in neither. -/
theorem countsContained_in_both_units :
    sampled [missLine 0x2000000,missLine 0x500] = [0x2000000,0x500] ∧
      ∀ pre, pre <+: [missLine 0x2000000,missLine 0x500] → sampled pre ≠ [] →
        CountsContained pre [formatRange 0x1000 0x10000000] [(0x1000,0x10000000)] := by
  have hsampled : sampled [missLine 0x2000000,missLine 0x500] = [0x2000000,0x500] :=
    (sampled_append [missLine 0x2000000] (int_missLine 0x500)).trans (by rw [sampled_missLine]; rfl)
  refine ⟨hsampled,((countsContained_exactly (readRanges_single 0x1000 0x10000000)).1 _).mpr ?_⟩
  rw [hsampled]
  unfold SameInBytes
  decide

end ElasticTranslations.Scripts
