import ElasticTranslations.Scripts.Text
import ElasticTranslations.Structures.Trace
import Mathlib.Algebra.Ring.Int.Defs

/-! The lines `0xSTART-0xEND` of hint files: how the scripts write them and read them back,
and what `pfns_to_addr.py` makes of a file of page numbers. -/
namespace ElasticTranslations.Scripts
open Structures

/-- The format `x` of a number that is not negative. -/
def hex (n : ℕ) : Text := Nat.toDigits 16 n

/-- The line `0x{start:x}-0x{end:x}`. -/
def formatRange (start stop : ℕ) : Text :=
  '0' :: 'x' :: hex start ++ '-' :: '0' :: 'x' :: hex stop ++ ['\n']

/-- `start` and `end` of a line, as every script that takes hints reads them. -/
def readRange (line : Text) : Except PyError (ℤ × ℤ) := do
  let first ← partAt (split '-' (strip line)) 0
  let start ← int 16 first
  let second ← partAt (split '-' (strip line)) 1
  let stop ← int 16 second
  return (start,stop)

lemma digitChar_spec : ∀ d < 16, digitValue (Nat.digitChar d) = some d ∧
    Nat.digitChar d ≠ '_' ∧ Nat.digitChar d ≠ '-' ∧ isSpace (Nat.digitChar d) = false := by
  decide

lemma hex_eq (n : ℕ) : hex n =
    if n < 16 then [Nat.digitChar n] else hex (n/16) ++ [Nat.digitChar (n%16)] :=
  Nat.toDigits_eq_if (by decide)

lemma mem_hex {n : ℕ} {c : Char} (h : c ∈ hex n) : ∃ d < 16, c = Nat.digitChar d := by
  induction n using Nat.strong_induction_on with
  | _ n ih =>
    rw [hex_eq] at h
    by_cases hn : n < 16
    · rw [if_pos hn,List.mem_singleton] at h
      exact ⟨n,hn,h⟩
    · rw [if_neg hn,List.mem_append,List.mem_singleton] at h
      rcases h with h | h
      · exact ih (n/16) (by omega) h
      · exact ⟨n%16,by omega,h⟩

/-- The digits of a number are read back, whatever follows them. -/
lemma readDigits_hex (n : ℕ) (closed : Bool) (rest : Text) :
    readDigits 16 0 closed (hex n ++ rest) = readDigits 16 n true rest := by
  induction n using Nat.strong_induction_on generalizing rest with
  | _ n ih =>
    rw [hex_eq]
    by_cases hn : n < 16
    · obtain ⟨hvalue,hline,-,-⟩ := digitChar_spec n hn
      rw [if_pos hn,List.singleton_append,readDigits,if_neg hline,hvalue]
      simp [hn]
    · obtain ⟨hvalue,hline,-,-⟩ := digitChar_spec (n%16) (by omega)
      rw [if_neg hn,List.append_assoc,ih (n/16) (by omega),List.singleton_append,readDigits,
        if_neg hline,hvalue]
      simp only [show n%16 < 16 by omega,if_true]
      rw [Nat.div_add_mod']

lemma dropHexPrefix_hex (n : ℕ) : dropHexPrefix ('0' :: 'x' :: hex n) = hex n := by
  cases hh : hex n with
  | nil => rfl
  | cons c s =>
    obtain ⟨d,hd,rfl⟩ := mem_hex (show c ∈ hex n by simp [hh])
    have hline := (digitChar_spec d hd).2.1
    simp [dropHexPrefix,hline]

lemma strip_eq_self {s : Text} (h : ∀ c ∈ s, isSpace c = false) : strip s = s := by
  have hfront : s.dropWhile isSpace = s := by
    cases s with
    | nil => rfl
    | cons c s => rw [List.dropWhile_cons_of_neg (by simp [h c])]
  rw [strip,hfront,List.rdropWhile_eq_self_iff]
  exact fun hne => by simp [h _ (List.getLast_mem hne)]

lemma strip_newline {s : Text} (h : ∀ c ∈ s, isSpace c = false) (hne : s ≠ []) :
    strip (s ++ ['\n']) = s := by
  have hself := strip_eq_self h
  cases s with
  | nil => exact absurd rfl hne
  | cons c s =>
    have hc : ¬ isSpace c = true := by simp [h c]
    rw [strip,List.dropWhile_cons_of_neg hc] at hself
    rw [strip,List.cons_append,List.dropWhile_cons_of_neg hc,← List.cons_append,
      List.rdropWhile_concat_pos _ _ _ (by decide),hself]

lemma isSpace_hex {n : ℕ} {c : Char} (h : c ∈ '0' :: 'x' :: hex n) : isSpace c = false := by
  rcases List.mem_cons.mp h with rfl | h
  · decide
  · rcases List.mem_cons.mp h with rfl | h
    · decide
    · obtain ⟨d,hd,rfl⟩ := mem_hex h
      exact (digitChar_spec d hd).2.2.2

lemma dash_notMem_hex (n : ℕ) : '-' ∉ '0' :: 'x' :: hex n := by
  intro h
  obtain ⟨d,hd,he⟩ := mem_hex (show '-' ∈ hex n by simpa using h)
  exact (digitChar_spec d hd).2.2.1 he.symm

theorem int_hex (n : ℕ) : int 16 ('0' :: 'x' :: hex n) = .ok n := by
  have hread := readDigits_hex n false []
  rw [List.append_nil] at hread
  rw [int,strip_eq_self fun c hc => isSpace_hex hc]
  change readNat 16 ('0' :: 'x' :: hex n) = _
  rw [readNat,if_pos rfl,dropHexPrefix_hex,hread]
  rfl

lemma splitAtMost_of_notMem {sep : Char} {s : Text} (h : sep ∉ s) (n : ℕ) :
    splitAtMost sep n s = [s] := by
  induction s generalizing n with
  | nil => cases n <;> rfl
  | cons c s ih =>
    obtain ⟨hc,hs⟩ := not_or.mp (fun hm => h (List.mem_cons.mpr hm))
    cases n with
    | zero => rfl
    | succ n =>
      rw [splitAtMost,if_neg (Ne.symm hc),ih hs]
      rfl

lemma splitAtMost_append {sep : Char} {s : Text} (h : sep ∉ s) (n : ℕ) (rest : Text) :
    splitAtMost sep (n+1) (s ++ sep :: rest) = s :: splitAtMost sep n rest := by
  induction s with
  | nil => simp [splitAtMost]
  | cons c s ih =>
    obtain ⟨hc,hs⟩ := not_or.mp (fun hm => h (List.mem_cons.mpr hm))
    rw [List.cons_append,splitAtMost,if_neg (Ne.symm hc),ih hs]
    rfl

lemma split_pair {sep : Char} {s rest : Text} (h : sep ∉ s) (hrest : sep ∉ rest) :
    split sep (s ++ sep :: rest) = [s,rest] := by
  have hlen : (s ++ sep :: rest).length = s.length + rest.length + 1 := by simp; omega
  rw [split,hlen,splitAtMost_append h,splitAtMost_of_notMem hrest]

/-- What is written is read back. -/
theorem readRange_formatRange (start stop : ℕ) :
    readRange (formatRange start stop) = .ok ((start : ℤ),(stop : ℤ)) := by
  have hstrip : strip (formatRange start stop) =
      ('0' :: 'x' :: hex start) ++ '-' :: ('0' :: 'x' :: hex stop) := by
    refine Eq.trans ?_ (strip_newline (fun c hc => ?_) (by simp))
    · simp [formatRange]
    · rcases List.mem_append.mp hc with hc | hc
      · exact isSpace_hex hc
      · rcases List.mem_cons.mp hc with rfl | hc
        · decide
        · exact isSpace_hex hc
  have hsplit : split '-' (strip (formatRange start stop)) =
      ['0' :: 'x' :: hex start,'0' :: 'x' :: hex stop] := by
    rw [hstrip,split_pair (dash_notMem_hex start) (dash_notMem_hex stop)]
  rw [readRange,hsplit]
  change (int 16 ('0' :: 'x' :: hex start) >>= fun a => int 16 ('0' :: 'x' :: hex stop) >>=
    fun b => pure (a,b)) = _
  rw [int_hex,int_hex]
  rfl

example : formatRange 0xe000000 0xe200000 = "0xe000000-0xe200000\n".toList := by decide +kernel

/-- One line of `pfns_to_addr.py`, from page numbers to addresses. -/
def pfnsToAddrLine (line : Text) : Except PyError Text := do
  let (start,stop) ← readRange line
  return formatRange (start.toNat <<< 12) (stop.toNat <<< 12)

def pfnsToAddr (lines : List Text) : Except PyError (List Text) := lines.mapM pfnsToAddrLine

/-- The lines printed by `parse_hwk_trace.py` for the regions it has read. -/
def hwkLines (addrs : List ℕ) : List Text :=
  addrs.map fun addr => formatRange addr (addr+(1 <<< 21))

lemma mem_consHead {c : Char} {parts : List Text} {part : Text} (h : part ∈ consHead c parts) :
    part = [c] ∨ (∃ p ∈ parts, part = c :: p) ∨ part ∈ parts := by
  cases parts with
  | nil => exact .inl (by simpa [consHead] using h)
  | cons p parts =>
    rcases List.mem_cons.mp h with rfl | h
    · exact .inr (.inl ⟨p,by simp,rfl⟩)
    · exact .inr (.inr (List.mem_cons_of_mem p h))

/-- No part contains the separator, if it is split at all of them. -/
lemma splitAtMost_notMem (sep : Char) {n : ℕ} {s : Text} (hn : s.length ≤ n) {part : Text}
    (h : part ∈ splitAtMost sep n s) : sep ∉ part := by
  induction s generalizing n part with
  | nil =>
    rw [show splitAtMost sep n [] = [[]] by cases n <;> rfl,List.mem_singleton] at h
    simp [h]
  | cons c s ih =>
    cases n with
    | zero => simp at hn
    | succ n =>
      have hs : s.length ≤ n := by simpa using hn
      rw [splitAtMost] at h
      by_cases hc : c = sep
      · rw [if_pos hc] at h
        rcases List.mem_cons.mp h with rfl | h
        · simp
        · exact ih hs h
      · rw [if_neg hc] at h
        rcases mem_consHead h with rfl | ⟨p,hp,rfl⟩ | h
        · simp [Ne.symm hc]
        · have := ih (Nat.le_succ_of_le hs) hp
          simp [Ne.symm hc,this]
        · exact ih (Nat.le_succ_of_le hs) h

lemma readNat_nonneg {base : ℕ} {s : Text} {n : ℤ} (h : readNat base s = .ok n) : 0 ≤ n := by
  unfold readNat at h
  split at h
  · obtain rfl := Except.ok.inj h
    exact Int.natCast_nonneg _
  · cases h

lemma int_nonneg {base : ℕ} {s : Text} {n : ℤ} (hs : '-' ∉ s) (h : int base s = .ok n) :
    0 ≤ n := by
  have hsub : ∀ c ∈ strip s, c ∈ s := fun c hc =>
    (List.dropWhile_sublist _).subset ((List.rdropWhile_prefix _ _).subset hc)
  unfold int at h
  split at h
  · rename_i t ht
    exact absurd (hsub '-' (by simp [ht])) hs
  · exact readNat_nonneg h
  · exact readNat_nonneg h

lemma partAt_mem {parts : List Text} {i : ℕ} {part : Text} (h : partAt parts i = .ok part) :
    part ∈ parts := by
  unfold partAt at h
  split at h
  · obtain rfl := Except.ok.inj h
    exact List.mem_of_getElem? ‹_›
  · cases h

/-- The bounds of a range that is read are not negative, for the sign is the separator. -/
lemma readRange_nonneg {line : Text} {range : ℤ × ℤ} (h : readRange line = .ok range) :
    0 ≤ range.1 ∧ 0 ≤ range.2 := by
  have hdash : ∀ i part, partAt (split '-' (strip line)) i = .ok part → '-' ∉ part :=
    fun i part hp => splitAtMost_notMem '-' (le_refl _) (partAt_mem hp)
  obtain ⟨first,hfirst,h⟩ := bind_eq_ok h
  obtain ⟨start,hstart,h⟩ := bind_eq_ok h
  obtain ⟨second,hsecond,h⟩ := bind_eq_ok h
  obtain ⟨stop,hstop,h⟩ := bind_eq_ok h
  obtain rfl := Except.ok.inj h
  exact ⟨int_nonneg (hdash 0 first hfirst) hstart,int_nonneg (hdash 1 second hsecond) hstop⟩

/-- The addresses written for a range of pages are read back as that range in bytes. -/
theorem readRange_pfnsToAddrLine {line out : Text} {range : ℤ × ℤ}
    (h : readRange line = .ok range) (hout : pfnsToAddrLine line = .ok out) :
    readRange out = .ok (range.1*2^12,range.2*2^12) := by
  obtain ⟨hstart,hstop⟩ := readRange_nonneg h
  rw [pfnsToAddrLine,h] at hout
  obtain rfl := Except.ok.inj hout
  have hcast : ∀ n : ℤ, 0 ≤ n → ((n.toNat <<< 12 : ℕ) : ℤ) = n*2^12 := fun n hn => by
    rw [Nat.shiftLeft_eq]
    omega
  rw [readRange_formatRange,hcast _ hstart,hcast _ hstop]

/-- A file of page ranges becomes a file of the same ranges in bytes. -/
theorem readRanges_pfnsToAddr {lines out : List Text} {ranges : List (ℤ × ℤ)}
    (h : lines.mapM readRange = .ok ranges) (hout : pfnsToAddr lines = .ok out) :
    out.mapM readRange = .ok (ranges.map fun range => (range.1*2^12,range.2*2^12)) := by
  induction lines generalizing ranges out with
  | nil =>
    obtain rfl := Except.ok.inj h
    obtain rfl := Except.ok.inj hout
    rfl
  | cons line lines ih =>
    rw [List.mapM_cons] at h
    rw [pfnsToAddr,List.mapM_cons] at hout
    obtain ⟨range,hrange,h⟩ := bind_eq_ok h
    obtain ⟨rest,hrest,h⟩ := bind_eq_ok h
    obtain ⟨first,hfirst,hout⟩ := bind_eq_ok hout
    obtain ⟨others,hothers,hout⟩ := bind_eq_ok hout
    obtain rfl := Except.ok.inj h
    obtain rfl := Except.ok.inj hout
    rw [List.mapM_cons,readRange_pfnsToAddrLine hrange hfirst,ih hrest hothers]
    rfl

/-- The regions of a Hawkeye trace are read back as ranges of 2 MiB in bytes. -/
theorem readRanges_hwkLines (addrs : List ℕ) :
    (hwkLines addrs).mapM readRange = .ok (addrs.map fun addr => ((addr : ℤ),(addr : ℤ)+2^21)) := by
  induction addrs with
  | nil => rfl
  | cons addr addrs ih =>
    rw [hwkLines] at ih
    rw [hwkLines,List.map_cons,List.mapM_cons,readRange_formatRange,ih]
    rfl

end ElasticTranslations.Scripts
