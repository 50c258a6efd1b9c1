import ElasticTranslations.Hawkeye.Tracker
import ElasticTranslations.Structures.Trace
import Mathlib.Data.List.DropRight

/-! When `hawkeye_track_access` summarizes, and what the coverage bits are then. The gap
after a window ends when the counter is a multiple of `FACTOR*ACCESS_INTERVAL` in 64-bit
arithmetic, so the windows drift as soon as that product wraps. -/
namespace ElasticTranslations.Hawkeye
open Structures
open Pcc (Config pageSize hugePageSize)

/-- The set bits are the base pages of the accesses, region by region. -/
def Coverage.Shows (c : Coverage) (accesses : List UInt64) : Prop :=
  ∀ (base : UInt64) (i : ℕ), i < numBasePages →
    ((c.bits base).getLsbD i = true ↔ ∃ v ∈ accesses, v.toNat/2^12 = base.toNat*512+i)

lemma Coverage.shows_empty : Coverage.Shows .empty [] := by
  intro base i hi
  simp [bits]

lemma Coverage.shows_clear (c : Coverage) : c.clear.Shows [] := by
  intro base i hi
  rw [bits,clear,Dict.get?_mapValues]
  cases c.get? base <;> simp

lemma Coverage.bits_set (c : Coverage) (base base' : UInt64) (b : BitVec numBasePages) :
    Coverage.bits (c.set base b) base' = if base' = base then b else c.bits base' := by
  unfold bits
  rw [Dict.get?_set]
  split <;> rfl

/-- The offset of an access in its region. -/
def pageOffset (vaddr : UInt64) : UInt64 :=
  vaddr/pageSize - vaddr/hugePageSize*(hugePageSize/pageSize)

lemma page_of_offset (v : UInt64) :
    v.toNat/2^12 = (v/hugePageSize).toNat*512 + (pageOffset v).toNat := by
  simp only [pageOffset,hugePageSize,pageSize,UInt64.toNat_sub,UInt64.toNat_mul,UInt64.toNat_div,
    UInt64.reduceToNat]
  have := v.toNat_lt
  omega

lemma pageOffset_lt (v : UInt64) : (pageOffset v).toNat < numBasePages := by
  have h := page_of_offset v
  simp only [hugePageSize,UInt64.toNat_div,UInt64.reduceToNat] at h
  unfold numBasePages
  omega

/-- The coverage after an access. -/
def Coverage.touch (c : Coverage) (v : UInt64) : Coverage := c.set (v/hugePageSize)
  (c.bits (v/hugePageSize) ||| BitVec.twoPow numBasePages (pageOffset v).toNat)

lemma Coverage.mark_eq (c : Coverage) (v : UInt64) :
    c.mark (v/hugePageSize) (pageOffset v) = .ok (c.touch v) := if_pos (pageOffset_lt v)

/-- Entries of the coverage map stay. -/
lemma Coverage.touch_keeps {c : Coverage} (v : UInt64) {base : UInt64} (h : c.get? base ≠ none) :
    (c.touch v).get? base ≠ none := by
  rw [touch,Dict.get?_set]
  split
  · exact Option.some_ne_none _
  · exact h

lemma Coverage.clear_keeps {c : Coverage} {base : UInt64} (h : c.get? base ≠ none) :
    c.clear.get? base ≠ none := by
  rw [clear,Dict.get?_mapValues]
  simpa using h

/-- The bit that an access sets. -/
lemma Coverage.touch_shows {c : Coverage} {accesses : List UInt64} (h : c.Shows accesses)
    (v : UInt64) : (c.touch v).Shows (accesses ++ [v]) := by
  intro base i hi
  have hlt := pageOffset_lt v
  have hv := page_of_offset v
  have hsame : v.toNat/2^12 = base.toNat*512+i ↔
      base = v/hugePageSize ∧ (pageOffset v).toNat = i := by
    rw [hv,← UInt64.toNat_inj]
    unfold numBasePages at hlt hi
    omega
  simp only [touch,bits_set,List.mem_append,List.mem_singleton,or_and_right,exists_or,
    exists_eq_left,← h base i hi,hsame]
  by_cases hb : base = v/hugePageSize
  · simp [hb,hlt,BitVec.getLsbD_twoPow]
  · simp [hb]

namespace Tracker

/-- `FACTOR*ACCESS_INTERVAL` as the source computes it. -/
def gap (cfg : Config) : ℕ := (cfg.factor.toUInt64*cfg.accessInterval).toNat

/-- A window and the gap after it; a gap of length zero is never left. -/
def cycle (cfg : Config) : ℕ := cfg.accessInterval.toNat + max 1 (gap cfg)

/-- The state after a number of accesses, by the place in the cycle. -/
structure Phase (cfg : Config) (accesses : List UInt64) (t : Tracker) : Prop where
  tracking : t.tracking = decide (accesses.length % cycle cfg < cfg.accessInterval.toNat)
  count : t.currNumAccesses.toNat = if t.tracking then accesses.length % cycle cfg
    else accesses.length % cycle cfg - cfg.accessInterval.toNat
  shows : t.coverage.Shows (if t.tracking then accesses.rtake (accesses.length % cycle cfg) else [])

variable {cfg : Config} {accesses : List UInt64} {t : Tracker}

lemma phase_init : Phase cfg [] {} := by
  refine ⟨?_,by simp,?_⟩
  · rw [List.length_nil,Nat.zero_mod]
    exact (decide_eq_true cfg.accessInterval_pos).symm
  · simpa using Coverage.shows_empty

lemma succ_mod_cycle (cfg : Config) (n : ℕ) : (n+1) % cycle cfg =
    if n % cycle cfg + 1 = cycle cfg then 0 else n % cycle cfg + 1 := by
  have hA := cfg.accessInterval_pos
  have hlt : 1 < cycle cfg := by unfold cycle; omega
  have hn := Nat.mod_lt n (show 0 < cycle cfg by omega)
  rw [Nat.add_mod_eq_ite,Nat.mod_eq_of_lt hlt]
  split <;> split <;> omega

/-- The remainder by `FACTOR*ACCESS_INTERVAL`, taken in a gap, is one by zero. -/
def DividesByZero (cfg : Config) (t : Tracker) : Prop := t.tracking = false ∧ gap cfg = 0

/-- What one access does to the windows. -/
def Steps (cfg : Config) (accesses : List UInt64) (t : Tracker) (v : UInt64) : Prop :=
  ¬ DividesByZero cfg t ∧ ∃ due t', t.trackAccess cfg v = .ok (due,t') ∧
    Phase cfg (accesses ++ [v]) t' ∧
    (due.isSome ↔ (accesses.length+1) % cycle cfg = cfg.accessInterval.toNat) ∧
    ∀ c ∈ due, c.Shows ((accesses ++ [v]).rtake cfg.accessInterval.toNat)

lemma succ_toNat {n : UInt64} (h : n.toNat + 1 < 2^64) : (n+1).toNat = n.toNat + 1 := by
  rw [UInt64.toNat_add,UInt64.toNat_one,Nat.mod_eq_of_lt h]

/-- The counter reaches a positive bound, counting up from below it. -/
lemma mod_eq_zero_iff {m n : UInt64} (hle : n.toNat ≤ m.toNat)
    (hn : 0 < n.toNat) : n % m = 0 ↔ n.toNat = m.toNat := by
  rw [← UInt64.toNat_inj,UInt64.toNat_mod,UInt64.toNat_zero]
  constructor
  · intro h
    exact Nat.le_antisymm hle (Nat.le_of_dvd hn (Nat.dvd_of_mod_eq_zero h))
  · intro h
    rw [h,Nat.mod_self]

/-- An access in a window. -/
lemma trackAccess_window (cfg : Config) (htr : t.tracking = true) (v : UInt64) :
    t.trackAccess cfg v = .ok (if (t.currNumAccesses+1) % cfg.accessInterval = 0
      then (some (t.coverage.touch v),⟨false,0,t.totalNumAccesses+1,(t.coverage.touch v).clear⟩)
      else (none,⟨true,t.currNumAccesses+1,t.totalNumAccesses+1,t.coverage.touch v⟩)) := by
  have hmark : t.countAccess.coverage.mark (v/hugePageSize)
    (v/pageSize - v/hugePageSize*(hugePageSize/pageSize)) = .ok (t.coverage.touch v) :=
    t.coverage.mark_eq v
  have htr' : t.countAccess.tracking = true := htr
  simp only [trackAccess,htr',hmark,Bool.not_true,Bool.false_eq_true,if_false]
  change (if (t.currNumAccesses+1) % cfg.accessInterval = 0 then _ else _) = _
  split
  · rfl
  · rw [← htr']; rfl

/-- An access in a gap. -/
lemma trackAccess_gap (cfg : Config) (htr : t.tracking = false) (v : UInt64) :
    t.trackAccess cfg v = .ok (none,
      if (t.currNumAccesses+1) % (cfg.factor.toUInt64*cfg.accessInterval) = 0
      then ⟨true,0,t.totalNumAccesses+1,t.coverage⟩
      else ⟨false,t.currNumAccesses+1,t.totalNumAccesses+1,t.coverage⟩) := by
  have htr' : t.countAccess.tracking = false := htr
  simp only [trackAccess,skipAccess,htr',Bool.not_false,if_true]
  change Except.ok (none,if (t.currNumAccesses+1) % (cfg.factor.toUInt64*cfg.accessInterval) = 0
    then _ else _) = _
  split
  · rfl
  · rw [← htr']; rfl

/-- The access completes a window. -/
def SummaryDue (cfg : Config) (t : Tracker) : Prop :=
  t.tracking = true ∧ (t.currNumAccesses+1) % cfg.accessInterval = 0

lemma trackAccess_due (h : SummaryDue cfg t) (v : UInt64) :
    t.trackAccess cfg v = .ok (some (t.coverage.touch v),
      ⟨false,0,t.totalNumAccesses+1,(t.coverage.touch v).clear⟩) := by
  rw [trackAccess_window cfg h.1 v,if_pos h.2]

/-- Without a summary the entries of the coverage map stay. -/
lemma trackAccess_notDue (h : ¬ SummaryDue cfg t) (v : UInt64) :
    ∃ t', t.trackAccess cfg v = .ok (none,t') ∧
      ∀ base, t.coverage.get? base ≠ none → t'.coverage.get? base ≠ none := by
  cases htr : t.tracking with
  | true =>
    have hnot : ¬ (t.currNumAccesses+1) % cfg.accessInterval = 0 := fun hz => h ⟨htr,hz⟩
    refine ⟨_,by rw [trackAccess_window cfg htr v,if_neg hnot],fun base hb => ?_⟩
    exact Coverage.touch_keeps v hb
  | false =>
    refine ⟨_,trackAccess_gap cfg htr v,fun base hb => ?_⟩
    split <;> exact hb

lemma steps_window (h : Phase cfg accesses t) (v : UInt64)
    (hr : accesses.length % cycle cfg < cfg.accessInterval.toNat) : Steps cfg accesses t v := by
  obtain ⟨htr,hcount,hshows⟩ := h
  rw [decide_eq_true hr] at htr
  rw [htr,if_pos rfl] at hcount hshows
  have hA := cfg.accessInterval.toNat_lt
  have hsucc : (t.currNumAccesses+1).toNat = accesses.length % cycle cfg + 1 := by
    rw [succ_toNat (by omega),hcount]
  have hnext := succ_mod_cycle cfg accesses.length
  rw [if_neg (by unfold cycle at *; omega)] at hnext
  have hc := Coverage.touch_shows hshows v
  rw [← List.rtake_concat_succ] at hc
  have hdue := mod_eq_zero_iff (m := cfg.accessInterval) (n := t.currNumAccesses+1)
    (by omega) (by omega)
  rw [hsucc] at hdue
  have hstep := trackAccess_window cfg htr v
  refine ⟨fun hzero => by simp [DividesByZero,htr] at hzero,?_⟩
  by_cases hlast : accesses.length % cycle cfg + 1 = cfg.accessInterval.toNat
  · rw [if_pos (hdue.mpr hlast)] at hstep
    refine ⟨_,_,hstep,⟨?_,?_,?_⟩,by simp [hnext,hlast],?_⟩
    · simp [hnext,hlast]
    · simp [hnext,hlast]
    · simpa using (t.coverage.touch v).shows_clear
    · intro c' hc'
      obtain rfl : t.coverage.touch v = c' := by simpa using hc'
      rwa [hlast] at hc
  · rw [if_neg (fun h => hlast (hdue.mp h))] at hstep
    refine ⟨_,_,hstep,⟨?_,?_,?_⟩,by simp [hnext,hlast],by simp⟩
    · have hlt : accesses.length % cycle cfg + 1 < cfg.accessInterval.toNat := by omega
      simp [hnext,hlt]
    · simp only [List.length_append,List.length_singleton,hnext,if_true,hsucc]
    · simpa [hnext] using hc

lemma steps_gap (h : Phase cfg accesses t) (v : UInt64) (hgap : 1 ≤ gap cfg)
    (hr : cfg.accessInterval.toNat ≤ accesses.length % cycle cfg) : Steps cfg accesses t v := by
  obtain ⟨htr,hcount,hshows⟩ := h
  rw [decide_eq_false (by omega)] at htr
  simp only [htr,Bool.false_eq_true,if_false] at hcount hshows
  have hA := cfg.accessInterval_pos
  have hG : gap cfg < 2^64 := UInt64.toNat_lt _
  have hlt := Nat.mod_lt accesses.length (show 0 < cycle cfg by unfold cycle; omega)
  have hcycle : cycle cfg = cfg.accessInterval.toNat + gap cfg := by unfold cycle; omega
  have hsucc : (t.currNumAccesses+1).toNat =
      accesses.length % cycle cfg + 1 - cfg.accessInterval.toNat := by
    rw [succ_toNat (by omega)]
    omega
  have hnext := succ_mod_cycle cfg accesses.length
  have hdue : (t.currNumAccesses+1) % (cfg.factor.toUInt64*cfg.accessInterval) = 0 ↔
      (t.currNumAccesses+1).toNat = gap cfg :=
    mod_eq_zero_iff (by rw [hsucc]; change _ ≤ gap cfg; omega) (by omega)
  have hstep := trackAccess_gap cfg htr v
  refine ⟨fun hzero => by have := hzero.2; omega,?_⟩
  by_cases hlast : accesses.length % cycle cfg + 1 = cycle cfg
  · rw [if_pos (hdue.mpr (by omega))] at hstep
    rw [if_pos hlast] at hnext
    refine ⟨_,_,hstep,⟨?_,?_,?_⟩,by simp [hnext]; omega,by simp⟩
    · simpa [hnext] using Nat.lt_of_lt_of_le Nat.zero_lt_one hA
    · simp [hnext]
    · simpa [hnext] using hshows
  · rw [if_neg (fun h => hlast (by have := hdue.mp h; omega))] at hstep
    rw [if_neg hlast] at hnext
    refine ⟨_,_,hstep,⟨?_,?_,?_⟩,by simp [hnext]; omega,by simp⟩
    · simp [hnext]
      omega
    · simp [hnext,hsucc]
    · simpa using hshows

/-- Every access but one in a gap of length zero. -/
theorem phase_step (h : Phase cfg accesses t) (v : UInt64)
    (hgap : 1 ≤ gap cfg ∨ accesses.length % cycle cfg < cfg.accessInterval.toNat) :
    Steps cfg accesses t v := by
  rcases Nat.lt_or_ge (accesses.length % cycle cfg) cfg.accessInterval.toNat with hr | hr
  · exact steps_window h v hr
  · exact steps_gap h v (by omega) hr

/-- The access is sampled as the period `(FACTOR+1)*ACCESS_INTERVAL` says: the call goes
through without a remainder by zero or a coverage bit beyond the bitset, `summarize` is called in
the last access of a window and in no other, and then with the pages of that window. -/
def WindowExact (cfg : Config) (accesses : List UInt64) (t : Tracker) (v : UInt64) : Prop :=
  ¬ DividesByZero cfg t ∧ ∃ due t', t.trackAccess cfg v = .ok (due,t') ∧
    (due.isSome ↔ (accesses.length+1) % ((cfg.factor.toNat+1)*cfg.accessInterval.toNat) =
      cfg.accessInterval.toNat % ((cfg.factor.toNat+1)*cfg.accessInterval.toNat)) ∧
    ∀ c ∈ due, c.Shows ((accesses ++ [v]).rtake cfg.accessInterval.toNat)

/-- The first access that goes wrong when the product wraps: the remainder by zero after the
first window, or the second window, which ends too early. -/
def firstWrong (cfg : Config) : ℕ :=
  if gap cfg = 0 then cfg.accessInterval.toNat+1 else 2*cfg.accessInterval.toNat+gap cfg

lemma gap_eq_mod (cfg : Config) :
    gap cfg = cfg.factor.toNat*cfg.accessInterval.toNat % 2^64 := by
  rw [gap,UInt64.toNat_mul,UInt32.toNat_toUInt64]

lemma period_eq (cfg : Config) : (cfg.factor.toNat+1)*cfg.accessInterval.toNat =
    cfg.factor.toNat*cfg.accessInterval.toNat + cfg.accessInterval.toNat := by
  rw [Nat.add_mul,Nat.one_mul]

lemma interval_mod (cfg : Config) :
    cfg.accessInterval.toNat % ((cfg.factor.toNat+1)*cfg.accessInterval.toNat) =
      cfg.accessInterval.toNat := by
  have hpos := Nat.mul_pos cfg.factor_pos cfg.accessInterval_pos
  rw [period_eq]
  exact Nat.mod_eq_of_lt (by omega)

lemma windowExact_of_steps {v : UInt64} (h : Steps cfg accesses t v)
    (hdue : (accesses.length+1) % cycle cfg = cfg.accessInterval.toNat ↔
      (accesses.length+1) % ((cfg.factor.toNat+1)*cfg.accessInterval.toNat) =
        cfg.accessInterval.toNat) : WindowExact cfg accesses t v := by
  obtain ⟨hzero,due,t',hstep,-,hiff,hshows⟩ := h
  exact ⟨hzero,due,t',hstep,by rw [hiff,hdue,interval_mod],hshows⟩

/-- A remainder is met only once before the period has passed again. -/
lemma mod_eq_iff_of_lt {n m a : ℕ} (ha : a < m) (hn : n < a+m) : n % m = a ↔ n = a := by
  rcases Nat.lt_or_ge n m with hlt | hge
  · rw [Nat.mod_eq_of_lt hlt]
  · rw [Nat.mod_eq_sub_mod hge,Nat.mod_eq_of_lt (by omega)]
    omega

lemma interval_lt_cycle (cfg : Config) : cfg.accessInterval.toNat < cycle cfg := by
  unfold cycle
  omega

lemma firstWrong_le (cfg : Config) : firstWrong cfg ≤ cfg.accessInterval.toNat + cycle cfg := by
  unfold firstWrong cycle
  split <;> omega

lemma steps_before (h : Phase cfg accesses t) (v : UInt64)
    (hn : accesses.length+1 < firstWrong cfg) : Steps cfg accesses t v := by
  have hlt := interval_lt_cycle cfg
  refine phase_step h v ?_
  by_cases hG : gap cfg = 0
  · rw [firstWrong,if_pos hG] at hn
    exact .inr (by rw [Nat.mod_eq_of_lt (by omega)]; omega)
  · exact .inl (by omega)

section Wrap
variable (hwrap : 2^64 ≤ cfg.factor.toNat*cfg.accessInterval.toNat)
include hwrap

lemma firstWrong_lt : firstWrong cfg < cfg.accessInterval.toNat +
    (cfg.factor.toNat+1)*cfg.accessInterval.toNat := by
  have hG : gap cfg < 2^64 := UInt64.toNat_lt _
  have hA := cfg.accessInterval_pos
  rw [period_eq]
  unfold firstWrong
  split <;> omega

lemma due_before_firstWrong {n : ℕ} (hn : n ≤ firstWrong cfg) :
    n % ((cfg.factor.toNat+1)*cfg.accessInterval.toNat) = cfg.accessInterval.toNat ↔
      n = cfg.accessInterval.toNat := by
  have hA := cfg.accessInterval_pos
  have hlt := firstWrong_lt hwrap
  exact mod_eq_iff_of_lt (by rw [period_eq]; omega) (by omega)

/-- Before the first wrong access only the first window is due, and it is. -/
lemma windowExact_before (h : Phase cfg accesses t) (v : UInt64)
    (hn : accesses.length+1 < firstWrong cfg) : WindowExact cfg accesses t v := by
  have hle := firstWrong_le cfg
  refine windowExact_of_steps (steps_before h v hn) ?_
  rw [due_before_firstWrong hwrap (by omega)]
  exact mod_eq_iff_of_lt (interval_lt_cycle cfg) (by omega)

lemma not_windowExact_at (h : Phase cfg accesses t) (v : UInt64)
    (hn : accesses.length+1 = firstWrong cfg) : ¬ WindowExact cfg accesses t v := by
  have hA := cfg.accessInterval_pos
  have hlt := interval_lt_cycle cfg
  rintro ⟨hzero,due,t',hstep,hdue,-⟩
  by_cases hG : gap cfg = 0
  · rw [firstWrong,if_pos hG] at hn
    have htr := h.tracking
    rw [Nat.mod_eq_of_lt (by omega),decide_eq_false (by omega)] at htr
    exact hzero ⟨htr,hG⟩
  · obtain ⟨-,due',t'',hstep',-,hdue',-⟩ := phase_step h v (.inl (by omega))
    obtain ⟨rfl,rfl⟩ : due = due' ∧ t' = t'' := by simpa [hstep] using hstep'
    rw [hdue',interval_mod,due_before_firstWrong hwrap (by omega)] at hdue
    rw [firstWrong,if_neg hG] at hn
    have hcycle : cycle cfg = cfg.accessInterval.toNat + gap cfg := by unfold cycle; omega
    have hsecond : (accesses.length+1) % cycle cfg = cfg.accessInterval.toNat := by
      rw [show accesses.length+1 = cfg.accessInterval.toNat + cycle cfg by omega,
        Nat.add_mod_right,Nat.mod_eq_of_lt hlt]
    have := hdue.mp hsecond
    omega

end Wrap

lemma steps_of_noWrap (hle : cfg.factor.toNat*cfg.accessInterval.toNat < 2^64)
    (h : Phase cfg accesses t) (v : UInt64) : Steps cfg accesses t v := by
  have hpos := Nat.mul_pos cfg.factor_pos cfg.accessInterval_pos
  have hG := gap_eq_mod cfg
  rw [Nat.mod_eq_of_lt hle] at hG
  exact phase_step h v (.inl (by omega))

/-- Without a wrap the cycle is the period. -/
lemma windowExact_of_noWrap (hle : cfg.factor.toNat*cfg.accessInterval.toNat < 2^64)
    (h : Phase cfg accesses t) (v : UInt64) : WindowExact cfg accesses t v := by
  have hpos := Nat.mul_pos cfg.factor_pos cfg.accessInterval_pos
  have hG := gap_eq_mod cfg
  rw [Nat.mod_eq_of_lt hle] at hG
  refine windowExact_of_steps (steps_of_noWrap hle h v) ?_
  rw [show cycle cfg = (cfg.factor.toNat+1)*cfg.accessInterval.toNat by
    rw [period_eq]; unfold cycle; omega]

lemma step_of_steps {v : UInt64} (h : Steps cfg accesses t v) :
    ∃ t', step cfg t v = .ok t' ∧ Phase cfg (accesses ++ [v]) t' := by
  obtain ⟨-,due,t',hstep,hphase,-⟩ := h
  exact ⟨t',by rw [step,hstep]; rfl,hphase⟩

/-- The accesses up to the first wrong one, which a product that does not wrap never has. -/
def BeforeWrong (cfg : Config) (n : ℕ) : Prop :=
  cfg.factor.toNat*cfg.accessInterval.toNat < 2^64 ∨ n < firstWrong cfg

lemma steps_of_beforeWrong (h : Phase cfg accesses t) (v : UInt64)
    (hn : BeforeWrong cfg (accesses.length+1)) : Steps cfg accesses t v := by
  rcases hn with hle | hn
  · exact steps_of_noWrap hle h v
  · exact steps_before h v hn

lemma windowExact_of_beforeWrong (h : Phase cfg accesses t) (v : UInt64)
    (hn : BeforeWrong cfg (accesses.length+1)) : WindowExact cfg accesses t v := by
  by_cases hle : cfg.factor.toNat*cfg.accessInterval.toNat < 2^64
  · exact windowExact_of_noWrap hle h v
  · exact windowExact_before (by omega) h v (hn.resolve_left hle)

/-- A run is in phase up to the first wrong access. -/
lemma phase_throughout (trace : List UInt64) (h : BeforeWrong cfg trace.length) :
    Throughout (step cfg) {} trace (Phase cfg) := by
  refine Throughout.of_steps (C := fun pre _ _ => BeforeWrong cfg (pre.length+1)) phase_init
    (fun pre t v hphase hn => step_of_steps (steps_of_beforeWrong hphase v hn)) ?_
  intro pre v hp t ht
  have hlen := hp.length_le
  rw [List.length_append,List.length_singleton] at hlen
  exact h.imp_right fun hlt => by omega

lemma not_exact_of_firstWrong (cfg : Config) {trace : List UInt64}
    (hwrap : 2^64 ≤ cfg.factor.toNat*cfg.accessInterval.toNat)
    (hlen : firstWrong cfg ≤ trace.length) :
    ¬ EachStep (step cfg) {} trace (WindowExact cfg) := by
  intro hexact
  have hpos : 0 < firstWrong cfg := by unfold firstWrong; split <;> omega
  obtain ⟨pre,v,hp,hpre⟩ := exists_prefix_snoc (show firstWrong cfg - 1 < trace.length by omega)
  have hbefore : BeforeWrong cfg pre.length := .inr (by omega)
  obtain ⟨t,ht,hphase⟩ := (phase_throughout pre hbefore).final
  exact not_windowExact_at hwrap hphase v (by omega) (hexact pre v hp t ht)

lemma windowExact_eachStep (trace : List UInt64) (h : BeforeWrong cfg trace.length) :
    EachStep (step cfg) {} trace (WindowExact cfg) := by
  intro pre v hp t ht
  have hlen := hp.length_le
  rw [List.length_append,List.length_singleton] at hlen
  obtain ⟨t',ht',hphase⟩ := (phase_throughout pre (h.imp_right fun hlt => by omega)).final
  obtain rfl : t' = t := by simpa [ht'] using ht
  exact windowExact_of_beforeWrong hphase v (h.imp_right fun hlt => by omega)

theorem windows_iff (cfg : Config) (trace : List UInt64) :
    EachStep (step cfg) {} trace (WindowExact cfg) ↔
      cfg.factor.toNat*cfg.accessInterval.toNat < 2^64 ∨ trace.length < firstWrong cfg := by
  constructor
  · intro hexact
    by_contra hnot
    obtain ⟨hwrap,hlen⟩ := not_or.mp hnot
    exact not_exact_of_firstWrong cfg (by omega) (by omega) hexact
  · exact windowExact_eachStep trace

/-- With these globals the product wraps to a gap of 4294967294 accesses, and the second
window ends at access 12884901890. -/
theorem not_windows_of_wrap :
    ¬ ∀ (cfg : Config) (trace : List UInt64), EachStep (step cfg) {} trace (WindowExact cfg) := by
  intro h
  refine not_exact_of_firstWrong ⟨4294967295,4294967298,by decide,by decide⟩ (by decide) ?_
     (h _ (List.replicate 12884901890 0))
  rw [List.length_replicate]
  decide

end Tracker
end ElasticTranslations.Hawkeye
