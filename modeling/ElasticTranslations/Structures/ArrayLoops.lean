import Mathlib.Data.List.Basic
import Mathlib.Tactic.Common

/-! Arrays of a fixed length and the loops that move their entries: shifts, copies, copies around
a gap. A loop whose body fails, by an index out of bounds, has no result. -/
namespace ElasticTranslations.Structures
variable {α σ : Type*}

/-- `xs[i] = x`. -/
def write (xs : List α) (i : ℕ) (x : α) : Option (List α) :=
  if i < xs.length then some (xs.set i x) else none

/-- `for (i = bottom; i < bottom+n; i++)`. -/
def forUp (body : ℕ → σ → Option σ) : ℕ → ℕ → σ → Option σ
  | 0,_,s => some s
  | n+1,i,s => do
    let s ← body i s
    forUp body n (i+1) s

/-- `for (i = top; i > bottom; i--)`. -/
def forDown (body : ℕ → σ → Option σ) (bottom : ℕ) : ℕ → σ → Option σ
  | 0,s => some s
  | top+1,s =>
    if bottom < top+1 then do
      let s ← body (top+1) s
      forDown body bottom top s
    else some s

/-- `for (i = 0, j = 0; i < n; i++, j++) { if (j == gap) j++; .. }`. -/
def forGap (body : ℕ → ℕ → σ → Option σ) (gap : ℕ) : ℕ → ℕ → ℕ → σ → Option σ
  | 0,_,_,s => some s
  | n+1,i,j,s => do
    let j := if j = gap then j+1 else j
    let s ← body i j s
    forGap body gap n (i+1) (j+1) s

/-- `while (i < bottom+n && p(xs[i])) i++`, from `bottom`. -/
def scan (p : α → Bool) (xs : List α) : ℕ → ℕ → Option ℕ
  | 0,i => some i
  | n+1,i =>
    match xs[i]? with
    | some x => if p x then scan p xs n (i+1) else some i
    | none => none

/-- `xs[i-1] = xs[i]`. -/
def moveDown (i : ℕ) (xs : List α) : Option (List α) := do
  let x ← xs[i]?
  write xs (i-1) x

section Rules
variable {I : ℕ → σ → Prop}

lemma forUp_rule (body : ℕ → σ → Option σ) {n i : ℕ} {s : σ} (h0 : I i s)
    (hstep : ∀ j s,i ≤ j → j < i+n → I j s → ∃ s',body j s = some s' ∧ I (j+1) s') :
    ∃ s',forUp body n i s = some s' ∧ I (i+n) s' := by
  induction n generalizing i s with
  | zero => exact ⟨s,rfl,h0⟩
  | succ n ih =>
    obtain ⟨s₁,hs₁,h1⟩ := hstep i s (by omega) (by omega) h0
    obtain ⟨s₂,hs₂,h2⟩ := ih h1 fun j s hj hjn hI => hstep j s (by omega) (by omega) hI
    refine ⟨s₂,?_,?_⟩
    · simp [forUp,hs₁,hs₂]
    · rwa [show i+(n+1) = i+1+n by omega]

lemma forDown_rule (body : ℕ → σ → Option σ) {bottom top : ℕ} {s : σ} (hle : bottom ≤ top)
    (h0 : I top s)
    (hstep : ∀ j s,bottom ≤ j → j < top → I (j+1) s → ∃ s',body (j+1) s = some s' ∧ I j s') :
    ∃ s',forDown body bottom top s = some s' ∧ I bottom s' := by
  induction top generalizing s with
  | zero => exact ⟨s,rfl,by rwa [show bottom = 0 by omega]⟩
  | succ top ih =>
    by_cases hb : bottom < top+1
    · obtain ⟨s₁,hs₁,h1⟩ := hstep top s (by omega) (by omega) h0
      obtain ⟨s₂,hs₂,h2⟩ := ih (by omega) h1 fun j s hj hjt hI => hstep j s hj (by omega) hI
      exact ⟨s₂,by simp [forDown,hb,hs₁,hs₂],h2⟩
    · exact ⟨s,by simp [forDown,hb],by rwa [show bottom = top+1 by omega]⟩

/-- Where the round of `i` writes: past the gap, one further. -/
def skip (gap i : ℕ) : ℕ := if i < gap then i else i+1

lemma forGap_rule (body : ℕ → ℕ → σ → Option σ) (gap : ℕ) {n : ℕ} {s : σ} (h0 : I 0 s)
    (hstep : ∀ i s,i < n → I i s → ∃ s',body i (skip gap i) s = some s' ∧ I (i+1) s') :
    ∃ s',forGap body gap n 0 0 s = some s' ∧ I n s' := by
  have hfrom : ∀ m i j s,i+m = n → (j = if i ≤ gap then i else i+1) → I i s →
      ∃ s',forGap body gap m i j s = some s' ∧ I n s' := by
    intro m
    induction m with
    | zero =>
      intro i j s hi _ hI
      exact ⟨s,rfl,by rwa [show n = i by omega]⟩
    | succ m ih =>
      intro i j s hi hj hI
      have hskip : (if j = gap then j+1 else j) = skip gap i := by
        rw [skip]
        grind
      obtain ⟨s₁,hs₁,h1⟩ := hstep i s (by omega) hI
      obtain ⟨s₂,hs₂,h2⟩ := ih (i+1) (skip gap i+1) s₁ (by omega) (by rw [skip]; grind) h1
      exact ⟨s₂,by simp [forGap,hskip,hs₁,hs₂],h2⟩
  exact hfrom n 0 0 s (by omega) (by simp) h0

/-- A loop over the entries of a list. -/
lemma foldlM_rule (body : σ → α → Option σ) {I : List α → σ → Prop} {l : List α} {s : σ}
    (h0 : I [] s)
    (hstep : ∀ pre x post s,l = pre++x :: post → I pre s →
      ∃ s',body s x = some s' ∧ I (pre++[x]) s') :
    ∃ s',l.foldlM body s = some s' ∧ I l s' := by
  have hfrom : ∀ post pre s,l = pre++post → I pre s →
      ∃ s',post.foldlM body s = some s' ∧ I l s' := by
    intro post
    induction post with
    | nil =>
      intro pre s hl hI
      exact ⟨s,rfl,by rwa [hl,List.append_nil]⟩
    | cons x post ih =>
      intro pre s hl hI
      obtain ⟨s₁,hs₁,h1⟩ := hstep pre x post s hl hI
      obtain ⟨s₂,hs₂,h2⟩ := ih (pre++[x]) s₁ (by simp [hl]) h1
      exact ⟨s₂,by simp [List.foldlM_cons,hs₁,hs₂],h2⟩
  exact hfrom l [] s rfl h0

end Rules

lemma write_of_lt {xs : List α} {i : ℕ} (hi : i < xs.length) (x : α) :
    write xs i x = some (xs.set i x) := if_pos hi

/-- A scan stops behind the entries that pass the test. -/
lemma scan_eq (p : α → Bool) (xs : List α) {n i : ℕ} (h : i+n ≤ xs.length) :
    scan p xs n i = some (i+(((xs.drop i).take n).takeWhile p).length) := by
  induction n generalizing i with
  | zero => simp [scan]
  | succ n ih =>
    have hi : i < xs.length := by omega
    rw [scan,List.getElem?_eq_getElem hi,List.drop_eq_getElem_cons hi,List.take_succ_cons]
    cases hp : p xs[i] with
    | true =>
      simp only [hp,if_true,List.takeWhile_cons,List.length_cons]
      rw [ih (by omega)]
      congr 1
      omega
    | false => simp [hp]

/-- The entries of `xs` from `p` to before `n` are shifted up by one. -/
def Shifted (xs : List α) (p n : ℕ) (ys : List α) : Prop :=
  ys.length = xs.length ∧ ∀ k,ys[k]? = if p < k ∧ k ≤ n then xs[k-1]? else xs[k]?

namespace Shifted
variable {xs ys : List α} {p n : ℕ}

lemma start (xs : List α) (n : ℕ) : Shifted xs n n xs :=
  ⟨rfl,fun k => (if_neg (by omega)).symm⟩

lemma step (h : Shifted xs (p+1) n ys) (hp : p < n) (hn : n < xs.length) :
    ∃ x zs,ys[p]? = some x ∧ write ys (p+1) x = some zs ∧ Shifted xs p n zs := by
  obtain ⟨hlen,hat⟩ := h
  have hx : ys[p]? = some xs[p] := by
    rw [hat p,if_neg (by omega),List.getElem?_eq_getElem]
  refine ⟨xs[p],ys.set (p+1) xs[p],hx,write_of_lt (by omega) _,by simpa using hlen,?_⟩
  intro k
  rw [List.getElem?_set,hat k]
  grind

/-- Once a new entry is written below them, it stands inserted at `p`. -/
lemma finish (h : Shifted xs p n ys) (hp : p ≤ n) (hn : n < xs.length) (x : α) :
    ∃ zs,write ys p x = some zs ∧ zs.length = xs.length ∧
      zs.take (n+1) = (xs.take n).insertIdx p x ∧ zs.drop (n+1) = xs.drop (n+1) := by
  obtain ⟨hlen,hat⟩ := h
  have hset : ∀ k,(ys.set p x)[k]? =
      if k = p then some x else if p < k ∧ k ≤ n then xs[k-1]? else xs[k]? := by
    intro k
    rw [List.getElem?_set,hat k]
    grind
  refine ⟨ys.set p x,write_of_lt (by omega) x,by simpa using hlen,?_,?_⟩
  · apply List.ext_getElem?
    intro k
    rw [List.getElem?_take,hset,List.getElem?_insertIdx,List.getElem?_take,List.length_take]
    grind
  · apply List.ext_getElem?
    intro k
    rw [List.getElem?_drop,List.getElem?_drop,hset,if_neg (by omega),if_neg (by omega)]

end Shifted

/-- The first `n` entries are those of `xs` from `offset`, the others those of `ds`. -/
def Copied (xs : List α) (offset : ℕ) (ds : List α) (n : ℕ) (ys : List α) : Prop :=
  ys.length = ds.length ∧ ∀ k,ys[k]? = if k < n then xs[offset+k]? else ds[k]?

namespace Copied
variable {xs ds ys : List α} {offset n : ℕ}

lemma start (xs : List α) (offset : ℕ) (ds : List α) : Copied xs offset ds 0 ds :=
  ⟨rfl,fun k => (if_neg (by omega)).symm⟩

lemma step (h : Copied xs offset ds n ys) (hx : offset+n < xs.length) (hd : n < ds.length) :
    ∃ x zs,xs[offset+n]? = some x ∧ write ys n x = some zs ∧ Copied xs offset ds (n+1) zs := by
  obtain ⟨hlen,hat⟩ := h
  refine ⟨xs[offset+n],ys.set n xs[offset+n],List.getElem?_eq_getElem hx,
    write_of_lt (by omega) _,by simpa using hlen,?_⟩
  intro k
  rw [List.getElem?_set,hat k]
  grind

lemma take_eq (h : Copied xs offset ds n ys) : ys.take n = (xs.drop offset).take n := by
  apply List.ext_getElem?
  intro k
  rw [List.getElem?_take,List.getElem?_take,h.2 k,List.getElem?_drop]
  split_ifs <;> rfl

lemma drop_eq (h : Copied xs offset ds n ys) : ys.drop n = ds.drop n := by
  apply List.ext_getElem?
  intro k
  rw [List.getElem?_drop,List.getElem?_drop,h.2,if_neg (by omega)]

end Copied

/-- The first `n` entries of `xs` are copied over `ds`, around a gap. -/
def Gapped (xs : List α) (gap : ℕ) (ds : List α) (n : ℕ) (ys : List α) : Prop :=
  ys.length = ds.length ∧
    ∀ k,ys[k]? = if k < gap ∧ k < n then xs[k]? else if gap < k ∧ k ≤ n then xs[k-1]? else ds[k]?

namespace Gapped
variable {xs ds ys : List α} {gap n : ℕ}

lemma start (xs : List α) (gap : ℕ) (ds : List α) : Gapped xs gap ds 0 ds :=
  ⟨rfl,fun k => by rw [if_neg (by omega),if_neg (by omega)]⟩

lemma step (h : Gapped xs gap ds n ys) (hx : n < xs.length) (hd : n+1 < ds.length) :
    ∃ x zs,xs[n]? = some x ∧ write ys (skip gap n) x = some zs ∧ Gapped xs gap ds (n+1) zs := by
  obtain ⟨hlen,hat⟩ := h
  have hskip : skip gap n < ys.length := by
    rw [skip]
    split_ifs <;> omega
  refine ⟨xs[n],ys.set (skip gap n) xs[n],List.getElem?_eq_getElem hx,write_of_lt hskip _,
    by simpa using hlen,?_⟩
  intro k
  rw [List.getElem?_set,hat k]
  rw [skip] at hskip ⊢
  grind

/-- Once the gap is filled, its entry stands inserted there. -/
lemma finish (h : Gapped xs gap ds n ys) (hgap : gap ≤ n) (hx : n ≤ xs.length)
    (hd : n < ds.length) (x : α) :
    ∃ zs,write ys gap x = some zs ∧ zs.length = ds.length ∧
      zs.take (n+1) = (xs.take n).insertIdx gap x := by
  obtain ⟨hlen,hat⟩ := h
  refine ⟨ys.set gap x,write_of_lt (by omega) x,by simpa using hlen,?_⟩
  apply List.ext_getElem?
  intro k
  rw [List.getElem?_take,List.getElem?_set,hat,List.getElem?_insertIdx,List.getElem?_take,
    List.length_take]
  grind

end Gapped

/-- The entries from `p` to before `n` are `x`, the others those of `ds`. -/
def FilledWith (x : α) (p : ℕ) (ds : List α) (n : ℕ) (ys : List α) : Prop :=
  ys.length = ds.length ∧ ∀ k,ys[k]? = if p ≤ k ∧ k < n then some x else ds[k]?

namespace FilledWith
variable {x : α} {ds ys : List α} {p n : ℕ}

lemma start (x : α) (p : ℕ) (ds : List α) : FilledWith x p ds p ds :=
  ⟨rfl,fun k => (if_neg (by omega)).symm⟩

lemma step (h : FilledWith x p ds n ys) (hp : p ≤ n) (hd : n < ds.length) :
    ∃ zs,write ys n x = some zs ∧ FilledWith x p ds (n+1) zs := by
  obtain ⟨hlen,hat⟩ := h
  refine ⟨ys.set n x,write_of_lt (by omega) x,by simpa using hlen,?_⟩
  intro k
  rw [List.getElem?_set,hat k]
  grind

lemma take_eq (h : FilledWith x p ds n ys) : ys.take p = ds.take p := by
  apply List.ext_getElem?
  intro k
  rw [List.getElem?_take,List.getElem?_take,h.2]
  split_ifs <;> first | rfl | omega

lemma getElem?_of_le (h : FilledWith x p ds n ys) {k : ℕ} (hk : n ≤ k) : ys[k]? = ds[k]? := by
  rw [h.2,if_neg (by omega)]

end FilledWith

/-- The entries of `xs` behind `p` and before `n` are moved down by one. -/
def Closed (xs : List α) (p n : ℕ) (ys : List α) : Prop :=
  ys.length = xs.length ∧ ∀ k,ys[k]? = if p ≤ k ∧ k+1 < n then xs[k+1]? else xs[k]?

namespace Closed
variable {xs ys : List α} {p n : ℕ}

lemma start (xs : List α) (p : ℕ) : Closed xs p (p+1) xs :=
  ⟨rfl,fun k => (if_neg (by omega)).symm⟩

lemma step (h : Closed xs p n ys) (hp : p < n) (hn : n < xs.length) :
    ∃ x zs,ys[n]? = some x ∧ write ys (n-1) x = some zs ∧ Closed xs p (n+1) zs := by
  obtain ⟨hlen,hat⟩ := h
  have hx : ys[n]? = some xs[n] := by
    rw [hat n,if_neg (by omega),List.getElem?_eq_getElem]
  refine ⟨xs[n],ys.set (n-1) xs[n],hx,write_of_lt (by omega) _,by simpa using hlen,?_⟩
  intro k
  rw [List.getElem?_set,hat k]
  grind

/-- The entry at `p` is gone. -/
lemma take_eq (h : Closed xs p n ys) (hp : p < n) :
    ys.take (n-1) = (xs.take n).eraseIdx p := by
  apply List.ext_getElem?
  intro k
  rw [List.getElem?_take,h.2 k,List.getElem?_eraseIdx,List.getElem?_take,List.getElem?_take]
  grind

lemma getElem?_of_le (h : Closed xs p n ys) {k : ℕ} (hk : n ≤ k+1) : ys[k]? = xs[k]? := by
  rw [h.2,if_neg (by omega)]

end Closed

lemma moveDown_rule (xs : List α) {p n : ℕ} (hp : p < n) (hn : n ≤ xs.length) :
    ∃ ys,forUp moveDown (n-(p+1)) (p+1) xs = some ys ∧ Closed xs p n ys := by
  obtain ⟨ys,hys,hclosed⟩ := forUp_rule moveDown (n := n-(p+1)) (i := p+1)
    (I := fun i ys => Closed xs p i ys) (.start xs p) (by
      intro i ys hi hin hys
      obtain ⟨x,zs,hx,hw,hzs⟩ := hys.step (by omega) (by omega)
      exact ⟨zs,by simp [moveDown,hx,hw],hzs⟩)
  exact ⟨ys,hys,by rwa [show p+1+(n-(p+1)) = n by omega] at hclosed⟩

/-- The first `n` entries of `xs` stand in `ds` from `p` on. -/
def Placed (xs : List α) (p : ℕ) (ds : List α) (n : ℕ) (ys : List α) : Prop :=
  ys.length = ds.length ∧ ∀ k,ys[k]? = if p ≤ k ∧ k < p+n then xs[k-p]? else ds[k]?

namespace Placed
variable {xs ds ys : List α} {p n : ℕ}

lemma start (xs : List α) (p : ℕ) (ds : List α) : Placed xs p ds 0 ds :=
  ⟨rfl,fun k => (if_neg (by omega)).symm⟩

lemma step (h : Placed xs p ds n ys) (hx : n < xs.length) (hd : p+n < ds.length) :
    ∃ x zs,xs[n]? = some x ∧ write ys (p+n) x = some zs ∧ Placed xs p ds (n+1) zs := by
  obtain ⟨hlen,hat⟩ := h
  refine ⟨xs[n],ys.set (p+n) xs[n],List.getElem?_eq_getElem hx,write_of_lt (by omega) _,
    by simpa using hlen,?_⟩
  intro k
  rw [List.getElem?_set,hat k]
  grind

lemma take_eq (h : Placed xs p ds n ys) (hp : p ≤ ds.length) :
    ys.take (p+n) = ds.take p++xs.take n := by
  apply List.ext_getElem?
  intro k
  rw [List.getElem?_take,h.2 k,List.getElem?_append,List.getElem?_take,List.getElem?_take,
    List.length_take]
  grind

lemma getElem?_of_le (h : Placed xs p ds n ys) {k : ℕ} (hk : p+n ≤ k) : ys[k]? = ds[k]? := by
  rw [h.2,if_neg (by omega)]

end Placed

end ElasticTranslations.Structures
