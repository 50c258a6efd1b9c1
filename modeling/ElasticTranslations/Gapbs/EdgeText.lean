import ElasticTranslations.Gapbs.BuiltGraph

/-! Edge lists as text, `WriteEL` and `ReadInEL`: the edges of a graph that is written come back. -/
namespace ElasticTranslations.Gapbs
open Structures

abbrev Text := List Char

/-- `isspace` in the C locale. -/
def isBlank (c : Char) : Bool := c == ' ' || (9 ≤ c.toNat && c.toNat ≤ 13)

/-- The digits of an `int64_t`; others, or none, leave the stream failed. -/
def readDigits (negative : Bool) (s : Text) : Option (ℤ × Text) :=
  let digits := s.takeWhile Char.isDigit
  let n : ℤ := Nat.ofDigitChars 10 digits 0
  let x := if negative then -n else n
  if digits ≠ [] ∧ -2^63 ≤ x ∧ x < 2^63 then some (x,s.dropWhile Char.isDigit) else none

/-- `in >> x`. -/
def readInt (s : Text) : Option (ℤ × Text) :=
  match s.dropWhile isBlank with
  | '-' :: s => readDigits true s
  | '+' :: s => readDigits false s
  | s => readDigits false s

/-- `while (in >> u >> v)`. Each round takes characters from the stream. -/
def readEdges : ℕ → Text → List (ℤ × ℤ)
  | 0,_ => []
  | fuel+1,s =>
    match readInt s with
    | none => []
    | some (u,s) =>
      match readInt s with
      | none => []
      | some (v,s) => (u,v) :: readEdges fuel s

def readInEL (s : Text) : List (ℤ × ℤ) := readEdges (s.length+1) s

/-- `out << u << " " << v << std::endl`. -/
def edgeLine (u v : ℕ) : Text := Nat.toDigits 10 u++[' ']++Nat.toDigits 10 v++['\n']

def writeEL (g : CSRGraph) : Option Text :=
  (List.range g.numNodes).foldlM (fun text u => do
    let vs ← g.outNeigh u
    some (text++vs.flatMap (edgeLine u))) []

section Numbers
variable {n : ℕ}

lemma isDigit_of_mem_toDigits {c : Char} (hc : c ∈ Nat.toDigits 10 n) : c.isDigit = true :=
  Nat.isDigit_of_mem_toDigits (by decide) (by decide) hc

lemma readDigits_toDigits (hn : n < 2^63) {rest : Text}
    (hrest : ∀ c ∈ rest.head?,c.isDigit = false) :
    readDigits false (Nat.toDigits 10 n++rest) = some ((n : ℤ),rest) := by
  have hall : ∀ c ∈ Nat.toDigits 10 n,c.isDigit = true := fun c hc => isDigit_of_mem_toDigits hc
  have htake : (Nat.toDigits 10 n++rest).takeWhile Char.isDigit = Nat.toDigits 10 n := by
    rw [List.takeWhile_append_of_pos hall]
    cases rest with
    | nil => simp
    | cons c rest => simp [hrest c rfl]
  have hdrop : (Nat.toDigits 10 n++rest).dropWhile Char.isDigit = rest := by
    rw [List.dropWhile_append_of_pos hall]
    cases rest with
    | nil => simp
    | cons c rest => simp [hrest c rfl]
  simp only [readDigits,htake,hdrop,Nat.ofDigitChars_ten_toDigits,Bool.false_eq_true,if_false]
  rw [if_pos ⟨Nat.toDigits_ne_nil,by omega,by omega⟩]

/-- A number is read back, behind blanks and in front of anything but digits. -/
lemma readInt_toDigits (hn : n < 2^63) (blanks rest : Text)
    (hrest : ∀ c ∈ rest.head?,c.isDigit = false) (hblanks : ∀ c ∈ blanks,isBlank c = true) :
    readInt (blanks++(Nat.toDigits 10 n++rest)) = some ((n : ℤ),rest) := by
  obtain ⟨c,cs,hdigits⟩ : ∃ c cs,Nat.toDigits 10 n = c :: cs :=
    List.exists_cons_of_ne_nil Nat.toDigits_ne_nil
  have hc : c.isDigit = true := isDigit_of_mem_toDigits (n := n) (by simp [hdigits])
  have hblank : isBlank c = false := by
    have hrange : 48 ≤ c.toNat ∧ c.toNat ≤ 57 := by
      simpa [Char.isDigit,Char.le_def,UInt32.le_iff_toNat_le] using hc
    have hne : c ≠ ' ' := by
      rintro rfl
      simp at hc
    simp [isBlank,hne]
    omega
  have hdrop : (blanks++(Nat.toDigits 10 n++rest)).dropWhile isBlank =
      Nat.toDigits 10 n++rest := by
    rw [List.dropWhile_append_of_pos hblanks,hdigits,List.cons_append,List.dropWhile_cons,hblank]
    rfl
  have hread := readDigits_toDigits hn hrest
  rw [readInt,hdrop]
  rw [hdigits,List.cons_append] at hread ⊢
  split
  · rename_i heq
    cases heq
    simp at hc
  · rename_i heq
    cases heq
    simp at hc
  · exact hread

end Numbers

/-- The lines of some edges. -/
def edgeText (es : List (ℕ × ℕ)) : Text := es.flatMap fun e => edgeLine e.1 e.2

/-- The newline of an edge is a blank in front of the next one. -/
lemma readEdges_edgeText {es : List (ℕ × ℕ)} (hes : ∀ e ∈ es,e.1 < 2^63 ∧ e.2 < 2^63) {fuel : ℕ}
    (hfuel : es.length < fuel) {blanks : Text} (hblanks : ∀ c ∈ blanks,isBlank c = true) :
    readEdges fuel (blanks++edgeText es) = es.map fun e => ((e.1 : ℤ),(e.2 : ℤ)) := by
  induction es generalizing fuel blanks with
  | nil =>
    obtain ⟨fuel,rfl⟩ := Nat.exists_eq_succ_of_ne_zero (show fuel ≠ 0 by omega)
    have hnone : readInt (blanks++edgeText []) = none := by
      have hdrop : (blanks++edgeText []).dropWhile isBlank = [] := by
        rw [List.dropWhile_append_of_pos hblanks]
        rfl
      rw [readInt,hdrop]
      rfl
    rw [Nat.succ_eq_add_one,readEdges,hnone]
    rfl
  | cons e es ih =>
    obtain ⟨fuel,rfl⟩ := Nat.exists_eq_succ_of_ne_zero (show fuel ≠ 0 by omega)
    obtain ⟨hu,hv⟩ := hes e (by simp)
    have htext : blanks++edgeText (e :: es) = blanks++(Nat.toDigits 10 e.1++
        ([' ']++(Nat.toDigits 10 e.2++(['\n']++edgeText es)))) := by
      simp [edgeText,edgeLine]
    have hreadU := readInt_toDigits hu blanks ([' ']++(Nat.toDigits 10 e.2++
      (['\n']++edgeText es))) (by simp) hblanks
    have hreadV := readInt_toDigits hv [' '] (['\n']++edgeText es) (by simp) (by simp [isBlank])
    rw [Nat.succ_eq_add_one,htext,readEdges,hreadU]
    simp only
    rw [hreadV]
    simp only
    rw [ih (fun e he => hes e (by simp [he])) (by simpa using hfuel) (by simp [isBlank])]
    rfl

lemma length_le_length_edgeText (es : List (ℕ × ℕ)) : es.length ≤ (edgeText es).length := by
  induction es with
  | nil => simp
  | cons e es ih =>
    rw [edgeText,List.flatMap_cons,List.length_append,← edgeText,List.length_cons]
    simp only [edgeLine,List.length_append,List.length_singleton]
    omega

lemma readInEL_edgeText {es : List (ℕ × ℕ)} (hes : ∀ e ∈ es,e.1 < 2^63 ∧ e.2 < 2^63) :
    readInEL (edgeText es) = es.map fun e => ((e.1 : ℤ),(e.2 : ℤ)) := by
  have hread := readEdges_edgeText hes (Nat.lt_succ_of_le (length_le_length_edgeText es))
    (List.forall_mem_nil _)
  exact hread

section Graph
variable {symmetrize : Bool} {el : List (ℕ × ℕ)} {u v : ℕ}

/-- The edges of the graph, row by row. -/
def listedEdges (symmetrize : Bool) (el : List (ℕ × ℕ)) : List (ℕ × ℕ) :=
  (List.range (maxNode el+1)).flatMap fun u => (sortedRow symmetrize false el u).map fun v => (u,v)

lemma writeEL_graphOf (symmetrize : Bool) (el : List (ℕ × ℕ)) :
    writeEL (graphOf symmetrize el) = some (edgeText (listedEdges symmetrize el)) := by
  obtain ⟨text,htext,rfl⟩ := foldlM_rule (fun text u => do
      let vs ← (graphOf symmetrize el).outNeigh u
      some (text++vs.flatMap (edgeLine u))) (l := List.range (maxNode el+1)) (s := [])
    (I := fun pre text => text = edgeText (pre.flatMap fun u =>
      (sortedRow symmetrize false el u).map fun v => (u,v))) rfl (by
      rintro pre u post text heq rfl
      have hu : u < maxNode el+1 := List.mem_range.mp (heq ▸ by simp)
      simp only [outNeigh_graphOf hu,Option.bind_eq_bind,Option.bind_some]
      refine ⟨_,rfl,?_⟩
      simp [edgeText,List.flatMap_append,List.flatMap_map])
  exact htext

lemma mem_listedEdges :
    (u,v) ∈ listedEdges symmetrize el ↔ v ∈ sortedRow symmetrize false el u := by
  simp only [listedEdges,List.mem_flatMap,List.mem_range,List.mem_map,Prod.mk.injEq]
  constructor
  · rintro ⟨u,-,v,hv,rfl,rfl⟩
    exact hv
  · intro hv
    exact ⟨u,entries_lt el _ (mem_sortedRow.mp hv).2,v,hv,rfl,rfl⟩

lemma maxNode_le {m : ℕ} (h : ∀ e ∈ el,e.1 ≤ m ∧ e.2 ≤ m) : maxNode el ≤ m := by
  have hfrom : ∀ (es : List (ℕ × ℕ)) (k : ℕ),k ≤ m → (∀ e ∈ es,e.1 ≤ m ∧ e.2 ≤ m) →
      es.foldl (fun m e => max (max m e.1) e.2) k ≤ m := by
    intro es
    induction es with
    | nil => exact fun k hk _ => hk
    | cons e es ih =>
      intro k hk hes
      obtain ⟨h1,h2⟩ := hes e (by simp)
      exact ih _ (max_le (max_le hk h1) h2) fun e he => hes e (by simp [he])
  exact hfrom el 0 (Nat.zero_le m) h

lemma le_maxNode_of_mem_listedEdges {e : ℕ × ℕ} (he : e ∈ listedEdges symmetrize el) :
    e.1 ≤ maxNode el ∧ e.2 ≤ maxNode el := by
  have hentry := (mem_sortedRow.mp (mem_listedEdges.mp he)).2
  exact ⟨Nat.lt_succ_iff.mp (entries_lt el _ hentry),
    Nat.lt_succ_iff.mp (snd_lt_of_mem_entries hentry)⟩

section Again
variable {symmetrize' : Bool}

lemma mem_entries_listedEdges (hsymm : symmetrize' = true → symmetrize = true) :
    u ≠ v ∧ (u,v) ∈ entries symmetrize' false (listedEdges symmetrize el) ↔
      u ≠ v ∧ (u,v) ∈ entries symmetrize false el := by
  rw [mem_entries,mem_listedEdges,mem_listedEdges,mem_sortedRow,mem_sortedRow,mem_entries,
    mem_entries]
  cases symmetrize' with
  | true =>
    simp [hsymm rfl]
    tauto
  | false => simp

lemma sortedRow_listedEdges (hsymm : symmetrize' = true → symmetrize = true) (u : ℕ) :
    sortedRow symmetrize' false (listedEdges symmetrize el) u =
      sortedRow symmetrize false el u := by
  have hset : neighborSet symmetrize' false (listedEdges symmetrize el) u =
      neighborSet symmetrize false el u := by
    ext v
    rw [neighborSet,neighborSet,Finset.mem_erase,Finset.mem_erase,List.mem_toFinset,
      List.mem_toFinset,mem_rowOf,mem_rowOf,ne_comm]
    exact mem_entries_listedEdges hsymm
  rw [sortedRow,hset,sortedRow]

/-- Behind the last node of an edge the rows are empty. -/
lemma listedEdges_listedEdges (hsymm : symmetrize' = true → symmetrize = true) :
    listedEdges symmetrize' (listedEdges symmetrize el) = listedEdges symmetrize el := by
  have hle : maxNode (listedEdges symmetrize el) ≤ maxNode el :=
    maxNode_le fun e he => le_maxNode_of_mem_listedEdges he
  obtain ⟨k,hk⟩ := Nat.exists_eq_add_of_le hle
  have hempty : ((List.range k).map (maxNode (listedEdges symmetrize el)+1+·)).flatMap
      (fun u => (sortedRow symmetrize false el u).map fun v => (u,v)) = [] := by
    rw [List.flatMap_eq_nil_iff]
    intro u hu
    obtain ⟨i,-,rfl⟩ := List.mem_map.mp hu
    rw [List.map_eq_nil_iff,List.eq_nil_iff_forall_not_mem]
    intro v hv
    have := (le_maxNode (mem_listedEdges.mpr hv)).1
    omega
  have hsplit : listedEdges symmetrize el =
      (List.range (maxNode (listedEdges symmetrize el)+1)).flatMap
        (fun u => (sortedRow symmetrize false el u).map fun v => (u,v)) := by
    have hrange : List.range (maxNode el+1) =
        List.range (maxNode (listedEdges symmetrize el)+1)++
          (List.range k).map (maxNode (listedEdges symmetrize el)+1+·) := by
      rw [← List.range_add]
      congr 1
      omega
    calc listedEdges symmetrize el
        = (List.range (maxNode el+1)).flatMap
            (fun u => (sortedRow symmetrize false el u).map fun v => (u,v)) := rfl
      _ = _ := by rw [hrange,List.flatMap_append,hempty,List.append_nil]
  calc listedEdges symmetrize' (listedEdges symmetrize el)
      = (List.range (maxNode (listedEdges symmetrize el)+1)).flatMap
          (fun u => (sortedRow symmetrize' false (listedEdges symmetrize el) u).map
            fun v => (u,v)) := rfl
    _ = (List.range (maxNode (listedEdges symmetrize el)+1)).flatMap
          (fun u => (sortedRow symmetrize false el u).map fun v => (u,v)) := by
        simp only [sortedRow_listedEdges hsymm]
    _ = listedEdges symmetrize el := hsplit.symm

end Again

/-- What a graph is written as is read back as the edges it has: the graph that is built from them,
not made undirected unless the first one was, has these edges again and is written the same way. -/
theorem readInEL_writeEL (sched : ℕ → Schedule) (symmetrize : Bool) (hnodes : maxNode el < 2^63) :
    ∃ g text es,makeGraph sched symmetrize el = some g ∧ writeEL g = some text ∧
      readInEL text = (es.map fun e : ℕ × ℕ => ((e.1 : ℤ),(e.2 : ℤ))) ∧
      ∀ sched' symmetrize',(symmetrize' = true → symmetrize = true) →
        ∃ g',makeGraph sched' symmetrize' es = some g' ∧ (∀ u v,g'.Edge u v ↔ g.Edge u v) ∧
          writeEL g' = some text := by
  have hbound : ∀ e ∈ listedEdges symmetrize el,e.1 < 2^63 ∧ e.2 < 2^63 := by
    intro e he
    have := le_maxNode_of_mem_listedEdges he
    omega
  refine ⟨graphOf symmetrize el,edgeText (listedEdges symmetrize el),listedEdges symmetrize el,
    makeGraph_eq sched symmetrize el,writeEL_graphOf symmetrize el,readInEL_edgeText hbound,
    fun sched' symmetrize' hsymm => ?_⟩
  refine ⟨graphOf symmetrize' (listedEdges symmetrize el),makeGraph_eq sched' _ _,fun u v => ?_,?_⟩
  · rw [edge_graphOf,edge_graphOf]
    exact mem_entries_listedEdges hsymm
  · rw [writeEL_graphOf,listedEdges_listedEdges hsymm]

theorem readInEL_writeEL_path :
    ∃ g text es,makeGraph (fun _ => .sequential) true [(2,1),(0,1)] = some g ∧
      writeEL g = some text ∧ readInEL text = (es.map fun e : ℕ × ℕ => ((e.1 : ℤ),(e.2 : ℤ))) ∧
      ∀ sched' symmetrize',(symmetrize' = true → true = true) →
        ∃ g',makeGraph sched' symmetrize' es = some g' ∧ (∀ u v,g'.Edge u v ↔ g.Edge u v) ∧
          writeEL g' = some text :=
  readInEL_writeEL _ true (by decide)

end Graph

end ElasticTranslations.Gapbs
