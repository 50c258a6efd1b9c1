import ElasticTranslations.Benchmarks.BTree
import ElasticTranslations.Structures.Ranked

/-! What the loops of the B+ tree do to the keys and pointers of one node. -/
namespace ElasticTranslations.Benchmarks.BTree
open Structures
variable {order : ℕ} {ks : List UInt64} {ps : List Ptr} {nd : Node} {key : UInt64}

/-- The keys of a node and its pointers, but for the link of a leaf, in its arrays. -/
structure Row (order : ℕ) (ks : List UInt64) (ps : List Ptr) (nd : Node) : Prop where
  keys_length : nd.keys.length = order-1
  pointers_length : nd.pointers.length = order
  numKeys_eq : nd.numKeys = ks.length
  keys_take : nd.keys.take ks.length = ks
  pointers_take : nd.pointers.take ps.length = ps

/-- A node with other entries in its arrays. -/
structure Rewritten (order : ℕ) (ks : List UInt64) (ps : List Ptr) (nd nd' : Node) : Prop where
  row : Row order ks ps nd'
  isLeaf_eq : nd'.isLeaf = nd.isLeaf
  parent_eq : nd'.parent = nd.parent

/-- A node with arrays, but no entries yet. -/
structure Blank (order : ℕ) (nd : Node) : Prop where
  keys_length : nd.keys.length = order-1
  pointers_length : nd.pointers.length = order
  numKeys_eq : nd.numKeys = 0

lemma Rewritten.trans {nd' nd'' : Node} {ks' : List UInt64} {ps' : List Ptr}
    (h : Rewritten order ks ps nd nd') (h' : Rewritten order ks' ps' nd' nd'') :
    Rewritten order ks' ps' nd nd'' :=
  ⟨h'.row,h'.isLeaf_eq.trans h.isLeaf_eq,h'.parent_eq.trans h.parent_eq⟩

namespace Row

lemma blank (h : Row order ks ps nd) : Blank order { nd with numKeys := 0 } :=
  ⟨h.keys_length,h.pointers_length,rfl⟩

lemma length_keys_le (h : Row order ks ps nd) : ks.length ≤ order-1 := by
  have := congrArg List.length h.keys_take
  rw [List.length_take,h.keys_length] at this
  omega

lemma length_pointers_le (h : Row order ks ps nd) : ps.length ≤ order := by
  have := congrArg List.length h.pointers_take
  rw [List.length_take,h.pointers_length] at this
  omega

lemma pointers_get (h : Row order ks ps nd) {i : ℕ} (hi : i < ps.length) :
    nd.pointers[i]? = ps[i]? := by
  rw [← List.getElem?_take_of_lt hi,h.pointers_take]

lemma scan_keys (h : Row order ks ps nd) (p : UInt64 → Bool) :
    scan p nd.keys nd.numKeys 0 = some (ks.takeWhile p).length := by
  have hle := h.length_keys_le
  rw [scan_eq p nd.keys (by rw [h.keys_length,h.numKeys_eq]; omega),List.drop_zero,h.numKeys_eq,
    h.keys_take,Nat.zero_add]

lemma scan_pointers (h : Row order ks ps nd) (p : Ptr → Bool) {n : ℕ} (hn : n = ps.length) :
    scan p nd.pointers n 0 = some (ps.takeWhile p).length := by
  have hle := h.length_pointers_le
  rw [scan_eq p nd.pointers (by rw [h.pointers_length]; omega),List.drop_zero,hn,
    h.pointers_take,Nat.zero_add]

lemma of_take {n m : ℕ} (hk : nd.keys.length = order-1) (hp : nd.pointers.length = order)
    (hn : nd.numKeys = n) (hks : nd.keys.take n = ks) (hkslen : ks.length = n)
    (hps : nd.pointers.take m = ps) (hpslen : ps.length = m) : Row order ks ps nd :=
  ⟨hk,hp,hn.trans hkslen.symm,by rw [hkslen,hks],by rw [hpslen,hps]⟩

end Row

namespace Node

lemma setPointer_eq {i : ℕ} (hi : i < nd.pointers.length) (p : Ptr) :
    nd.setPointer i p = some { nd with pointers := nd.pointers.set i p } := by
  simp [setPointer,write_of_lt hi]

lemma insertIntoLeaf_row (h : Row order ks ps nd) (hps : ps.length = ks.length)
    (hroom : ks.length < order-1) (key : UInt64) (r : Slot) :
    ∃ nd',nd.insertIntoLeaf key r = some nd' ∧
      Rewritten order (ks.insertIdx (ks.takeWhile fun k => k < key).length key)
        (ps.insertIdx (ks.takeWhile fun k => k < key).length (.record r)) nd nd' ∧
      nd'.pointers[order-1]? = nd.pointers[order-1]? := by
  have hat := length_takeWhile_le (fun k => k < key) ks
  obtain ⟨nd₁,hnd₁,ks₁,ps₁,rfl,hks₁,hps₁⟩ :=
    forDown_rule shiftEntry (s := nd) (h.numKeys_eq ▸ hat)
      (I := fun i nd' => ∃ ks' ps',nd' = { nd with keys := ks',pointers := ps' } ∧
        Shifted nd.keys i nd.numKeys ks' ∧ Shifted nd.pointers i nd.numKeys ps')
      ⟨_,_,rfl,.start _ _,.start _ _⟩ (by
        rintro i _ - hi ⟨ks',ps',rfl,hks',hps'⟩
        obtain ⟨k,ks'',hk,hwk,hks''⟩ := hks'.step hi (by rw [h.keys_length,h.numKeys_eq]; omega)
        obtain ⟨p,ps'',hp,hwp,hps''⟩ := hps'.step hi (by rw [h.pointers_length,h.numKeys_eq]; omega)
        exact ⟨_,by simp [shiftEntry,hk,hwk,hp,hwp],ks'',ps'',rfl,hks'',hps''⟩)
  obtain ⟨ks₂,hks₂,hks₂len,hkstake,-⟩ := hks₁.finish (h.numKeys_eq ▸ hat)
    (by rw [h.keys_length,h.numKeys_eq]; omega) key
  obtain ⟨ps₂,hps₂,hps₂len,hpstake,hpsdrop⟩ := hps₁.finish (h.numKeys_eq ▸ hat)
    (by rw [h.pointers_length,h.numKeys_eq]; omega) (.record r)
  refine ⟨{ nd with keys := ks₂,pointers := ps₂,numKeys := nd.numKeys+1 },?_,⟨?_,rfl,rfl⟩,?_⟩
  · simp [insertIntoLeaf,h.scan_keys,hnd₁,hks₂,hps₂]
  · rw [h.numKeys_eq] at hkstake hpstake ⊢
    rw [h.keys_take] at hkstake
    rw [← hps,h.pointers_take] at hpstake
    apply Row.of_take (hks₂len.trans h.keys_length) (hps₂len.trans h.pointers_length) rfl hkstake
    · rw [List.length_insertIdx_of_le_length hat]
    · exact hpstake
    · rw [List.length_insertIdx_of_le_length (by omega)]
  · have := congrArg (·[order-1-(nd.numKeys+1)]?) hpsdrop
    rw [h.numKeys_eq] at this
    simpa only [List.getElem?_drop,show ks.length+1+(order-1-(ks.length+1)) = order-1 by omega]
      using this

/-- The arrays hold the entries of a full node and one more. -/
structure Temp.Holds (ks : List UInt64) (ps : List Ptr) (temp : Temp) : Prop where
  keys_take : temp.keys.take ks.length = ks
  pointers_take : temp.pointers.take ps.length = ps

lemma leafTemp_holds (h : Row order ks ps nd) (hps : ps.length = ks.length)
    (hfull : ks.length = order-1) (key : UInt64) (r : Slot) :
    ∃ temp,nd.leafTemp order key r = some temp ∧
      temp.Holds (ks.insertIdx (ks.takeWhile fun k => k < key).length key)
        (ps.insertIdx (ks.takeWhile fun k => k < key).length (.record r)) := by
  have hat := length_takeWhile_le (fun k => k < key) ks
  have hscan := h.scan_keys fun k => k < key
  have hn := h.numKeys_eq
  rw [hn,hfull] at hscan
  generalize (ks.takeWhile fun k => k < key).length = at' at hat hscan ⊢
  obtain ⟨⟨ks₁,ps₁⟩,hloop,hks₁,hps₁⟩ :=
    forGap_rule nd.copyOut at' (n := nd.numKeys)
      (s := ⟨List.replicate (order+1) 0,List.replicate (order+1) .null⟩)
      (I := fun i temp => Gapped nd.keys at' (List.replicate (order+1) 0) i temp.keys ∧
        Gapped nd.pointers at' (List.replicate (order+1) .null) i temp.pointers)
      ⟨.start _ _ _,.start _ _ _⟩ (by
        rintro i temp hi ⟨hks',hps'⟩
        obtain ⟨k,ks'',hk,hwk,hks''⟩ := hks'.step (by rw [h.keys_length]; omega) (by simp; omega)
        obtain ⟨p,ps'',hp,hwp,hps''⟩ := hps'.step (by rw [h.pointers_length]; omega)
          (by simp; omega)
        exact ⟨⟨ks'',ps''⟩,by simp [copyOut,hk,hwk,hp,hwp],hks'',hps''⟩)
  obtain ⟨ks₂,hks₂,-,hkstake⟩ := hks₁.finish (by omega) (by rw [h.keys_length]; omega)
    (by simp; omega) key
  obtain ⟨ps₂,hps₂,-,hpstake⟩ := hps₁.finish (by omega) (by rw [h.pointers_length]; omega)
    (by simp; omega) (.record r)
  refine ⟨⟨ks₂,ps₂⟩,by simp [leafTemp,hscan,hloop,hks₂,hps₂],?_,?_⟩
  · rw [hn,h.keys_take] at hkstake
    rw [List.length_insertIdx_of_le_length hat,hkstake]
  · rw [hn,← hps,h.pointers_take] at hpstake
    rw [List.length_insertIdx_of_le_length (by omega),hpstake]

lemma insertIntoNode_row (h : Row order ks ps nd) (hps : ps.length = ks.length+1)
    (hroom : ks.length < order-1) {i : ℕ} (hi : i ≤ ks.length) (key : UInt64) (right : Slot) :
    ∃ nd',nd.insertIntoNode i key right = some nd' ∧
      Rewritten order (ks.insertIdx i key) (ps.insertIdx (i+1) (.node right)) nd nd' := by
  have hn := h.numKeys_eq
  obtain ⟨nd₁,hnd₁,ks₁,ps₁,rfl,hks₁,hps₁⟩ :=
    forDown_rule shiftChild (s := nd) (show i ≤ nd.numKeys by omega)
      (I := fun j nd' => ∃ ks' ps',nd' = { nd with keys := ks',pointers := ps' } ∧
        Shifted nd.keys j nd.numKeys ks' ∧ Shifted nd.pointers (j+1) (nd.numKeys+1) ps')
      ⟨_,_,rfl,.start _ _,.start _ _⟩ (by
        rintro j _ - hj ⟨ks',ps',rfl,hks',hps'⟩
        obtain ⟨k,ks'',hk,hwk,hks''⟩ := hks'.step hj (by rw [h.keys_length]; omega)
        obtain ⟨p,ps'',hp,hwp,hps''⟩ := hps'.step (by omega) (by rw [h.pointers_length]; omega)
        exact ⟨_,by simp [shiftChild,hk,hwk,hp,hwp],ks'',ps'',rfl,hks'',hps''⟩)
  obtain ⟨ks₂,hks₂,hks₂len,hkstake,-⟩ := hks₁.finish (by omega) (by rw [h.keys_length]; omega) key
  obtain ⟨ps₂,hps₂,hps₂len,hpstake,-⟩ := hps₁.finish (by omega) (by rw [h.pointers_length]; omega)
    (.node right)
  refine ⟨{ nd with keys := ks₂,pointers := ps₂,numKeys := nd.numKeys+1 },?_,⟨?_,rfl,rfl⟩⟩
  · simp [insertIntoNode,hnd₁,hks₂,hps₂]
  · rw [hn] at hkstake hpstake ⊢
    rw [h.keys_take] at hkstake
    rw [← hps,h.pointers_take] at hpstake
    apply Row.of_take (hks₂len.trans h.keys_length) (hps₂len.trans h.pointers_length) rfl hkstake
    · rw [List.length_insertIdx_of_le_length hi]
    · exact hpstake
    · rw [List.length_insertIdx_of_le_length (by omega)]

lemma gapped_loop {α : Type} (xs ds : List α) (gap n : ℕ) (hn : n ≤ xs.length)
    (hd : n < ds.length) (hgap : gap ≤ n) (x : α) :
    ∃ ys zs,forGap (copyAt xs) gap n 0 0 ds = some ys ∧ write ys gap x = some zs ∧
      zs.take (n+1) = (xs.take n).insertIdx gap x := by
  obtain ⟨ys,hys,hgapped⟩ := forGap_rule (copyAt xs) gap (n := n)
    (I := fun i ys => Gapped xs gap ds i ys) (.start _ _ _) (by
      intro i ys hi hys
      obtain ⟨x,zs,hx,hw,hzs⟩ := hys.step (by omega) (by omega)
      exact ⟨zs,by simp [copyAt,hx,hw],hzs⟩)
  obtain ⟨zs,hzs,-,htake⟩ := hgapped.finish hgap hn hd x
  exact ⟨ys,zs,hys,hzs,htake⟩

lemma nodeTemp_holds (h : Row order ks ps nd) (hps : ps.length = ks.length+1)
    (hfull : ks.length = order-1) (horder : 0 < order) {i : ℕ} (hi : i ≤ ks.length) (key : UInt64)
    (right : Slot) :
    ∃ temp,nd.nodeTemp order i key right = some temp ∧
      temp.Holds (ks.insertIdx i key) (ps.insertIdx (i+1) (.node right)) := by
  have hn := h.numKeys_eq
  obtain ⟨ps₁,ps₂,hps₁,hps₂,hpstake⟩ := gapped_loop nd.pointers
    (List.replicate (order+1) .null) (i+1) (nd.numKeys+1) (by rw [h.pointers_length]; omega)
    (by simp; omega) (by omega) (.node right)
  obtain ⟨ks₁,ks₂,hks₁,hks₂,hkstake⟩ := gapped_loop nd.keys (List.replicate order 0) i
    nd.numKeys (by rw [h.keys_length]; omega) (by simp; omega) (by omega) key
  refine ⟨⟨ks₂,ps₂⟩,by simp [nodeTemp,hps₁,hps₂,hks₁,hks₂],?_,?_⟩
  · rw [hn,h.keys_take] at hkstake
    rw [List.length_insertIdx_of_le_length hi,hkstake]
  · rw [hn,← hps,h.pointers_take] at hpstake
    rw [List.length_insertIdx_of_le_length (by omega),hpstake]

lemma take_drop_of_holds {α : Type} {xs ys : List α} (h : xs.take ys.length = ys) {offset n : ℕ}
    (hn : offset+n ≤ ys.length) : (xs.drop offset).take n = (ys.drop offset).take n := by
  rw [← h,List.drop_take,List.take_take,Nat.min_eq_left (by omega)]

/-- A half keeps the entries of the temporary arrays from `offset` on. -/
lemma fill_row (hb : Blank order nd) {temp : Temp} (htemp : temp.Holds ks ps) (offset n : ℕ)
    (hk : offset+n ≤ ks.length) (hp : offset+n ≤ ps.length) (hn : n ≤ order-1) :
    ∃ nd',nd.fill temp offset n = some nd' ∧
      Rewritten order ((ks.drop offset).take n) ((ps.drop offset).take n) nd nd' ∧
      nd'.pointers.drop n = nd.pointers.drop n := by
  have hkeys := hb.keys_length
  have hpointers := hb.pointers_length
  have hkstemp := congrArg List.length htemp.keys_take
  have hpstemp := congrArg List.length htemp.pointers_take
  rw [List.length_take] at hkstemp hpstemp
  obtain ⟨nd',hnd',ks',ps',rfl,hks',hps'⟩ :=
    forUp_rule (copyIn temp offset) (n := n) (i := 0) (s := nd)
      (I := fun j nd' => ∃ ks' ps',nd' = { nd with keys := ks',pointers := ps',numKeys := j } ∧
        Copied temp.keys offset nd.keys j ks' ∧ Copied temp.pointers offset nd.pointers j ps')
      ⟨_,_,by rw [← hb.numKeys_eq],.start _ _ _,.start _ _ _⟩ (by
        rintro j _ - hj ⟨ks',ps',rfl,hks',hps'⟩
        obtain ⟨k,ks'',hk,hwk,hks''⟩ := hks'.step (by omega) (by omega)
        obtain ⟨p,ps'',hp,hwp,hps''⟩ := hps'.step (by omega) (by omega)
        exact ⟨_,by simp [copyIn,hk,hwk,hp,hwp],ks'',ps'',rfl,hks'',hps''⟩)
  rw [Nat.zero_add] at hks' hps'
  refine ⟨_,hnd',⟨?_,rfl,rfl⟩,hps'.drop_eq⟩
  apply Row.of_take (hks'.1.trans hkeys) (hps'.1.trans hpointers) (Nat.zero_add n)
  · exact hks'.take_eq.trans (take_drop_of_holds htemp.keys_take hk)
  · rw [List.length_take,List.length_drop]
    omega
  · exact hps'.take_eq.trans (take_drop_of_holds htemp.pointers_take hp)
  · rw [List.length_take,List.length_drop]
    omega

lemma fillNode_row (hb : Blank order nd) {temp : Temp} (htemp : temp.Holds ks ps) (offset n : ℕ)
    (hk : offset+n ≤ ks.length) (hp : offset+n < ps.length) (hn : n < order) :
    ∃ nd',nd.fillNode temp offset n = some nd' ∧
      Rewritten order ((ks.drop offset).take n) ((ps.drop offset).take (n+1)) nd nd' := by
  obtain ⟨nd₁,hnd₁,⟨hrow,hleaf,hparent⟩,-⟩ := fill_row hb htemp offset n hk hp.le
    (by omega)
  have hlen := hrow.pointers_length
  have hget : temp.pointers[offset+n]? = some ps[offset+n] := by
    rw [← List.getElem?_take_of_lt hp,htemp.pointers_take,List.getElem?_eq_getElem hp]
  refine ⟨{ nd₁ with pointers := nd₁.pointers.set n ps[offset+n] },?_,⟨?_,hleaf,hparent⟩⟩
  · simp [fillNode,hnd₁,hget,setPointer_eq (hlen ▸ hn)]
  · have hlast : (ps.drop offset).take (n+1) = (ps.drop offset).take n++[ps[offset+n]] := by
      rw [List.take_succ_eq_append_getElem (by rw [List.length_drop]; omega),List.getElem_drop]
    have hpslen : ((ps.drop offset).take n).length = n := by
      rw [List.length_take,List.length_drop]
      omega
    have htake := hrow.pointers_take
    rw [hpslen] at htake
    refine ⟨hrow.keys_length,by simpa using hlen,hrow.numKeys_eq,hrow.keys_take,?_⟩
    rw [hlast,List.length_append,hpslen,List.length_singleton,
      List.take_succ_eq_append_getElem (by simpa [hlen] using hn),List.take_set_of_le le_rfl,htake,
      List.getElem_set_self]

lemma setPointer_row (h : Row order ks ps nd) {i : ℕ} (hi : ps.length ≤ i) (hi' : i < order)
    (p : Ptr) :
    ∃ nd',nd.setPointer i p = some nd' ∧ Rewritten order ks ps nd nd' ∧
      nd'.pointers[i]? = some p := by
  have hlt : i < nd.pointers.length := h.pointers_length ▸ hi'
  refine ⟨_,setPointer_eq hlt p,⟨⟨h.keys_length,?_,h.numKeys_eq,h.keys_take,?_⟩,rfl,rfl⟩,?_⟩
  · simpa using h.pointers_length
  · simpa [List.take_set_of_le hi] using h.pointers_take
  · exact List.getElem?_set_self hlt

lemma clearPointers_row (h : Row order ks ps nd) (hps : ps.length = ks.length) :
    ∃ nd',nd.clearPointers order = some nd' ∧ Rewritten order ks ps nd nd' ∧
      nd'.pointers[order-1]? = nd.pointers[order-1]? := by
  have hle := h.length_keys_le
  have hn := h.numKeys_eq
  obtain ⟨nd',hnd',ps',rfl,hps'⟩ :=
    forUp_rule (fun i nd => nd.setPointer i .null) (n := order-1-nd.numKeys)
      (i := nd.numKeys) (s := nd)
      (I := fun j nd' => ∃ ps',nd' = { nd with pointers := ps' } ∧
        FilledWith .null nd.numKeys nd.pointers j ps')
      ⟨_,rfl,.start _ _ _⟩ (by
        rintro j _ hj hj' ⟨ps',rfl,hps'⟩
        obtain ⟨ps'',hwp,hps''⟩ := hps'.step hj (by rw [h.pointers_length]; omega)
        exact ⟨_,by simp [setPointer,hwp],ps'',rfl,hps''⟩)
  refine ⟨_,hnd',⟨⟨h.keys_length,hps'.1.trans h.pointers_length,hn,h.keys_take,?_⟩,rfl,rfl⟩,?_⟩
  · have := hps'.take_eq
    rw [hn,← hps] at this
    exact this.trans h.pointers_take
  · exact hps'.getElem?_of_le (by omega)

section Halves
variable {temp : Temp} (htemp : temp.Holds ks ps) (hks : ks.length = order)
  (hps : ps.length = order) (horder : 3 ≤ order)
include htemp hks hps horder

/-- The old leaf keeps the first half and points to the new one. -/
lemma keepHalf_row (hb : Blank order nd) (new : Slot) :
    ∃ a₁ a₂ a₃,nd.fill temp 0 (cut (order-1)) = some a₁ ∧
      a₁.pointers[order-1]? = nd.pointers[order-1]? ∧
      a₁.setPointer (order-1) (.node new) = some a₂ ∧ a₂.clearPointers order = some a₃ ∧
      Rewritten order (ks.take (cut (order-1))) (ps.take (cut (order-1))) nd a₃ ∧
      a₃.pointers[order-1]? = some (.node new) := by
  have hcut : cut (order-1) ≤ order-1 := cut_le
  obtain ⟨a₁,h₁,hr₁,hdrop⟩ := fill_row hb htemp 0 (cut (order-1)) (by omega) (by omega) hcut
  rw [List.drop_zero,List.drop_zero] at hr₁
  obtain ⟨a₂,h₂,hr₂,hlink₂⟩ := setPointer_row hr₁.row (i := order-1) (by simp; omega) (by omega)
    (.node new)
  obtain ⟨a₃,h₃,hr₃,hlink₃⟩ := clearPointers_row hr₂.row (by simp [hks,hps])
  refine ⟨a₁,a₂,a₃,h₁,?_,h₂,h₃,(hr₁.trans hr₂).trans hr₃,hlink₃.trans hlink₂⟩
  have := congrArg (·[order-1-cut (order-1)]?) hdrop
  simpa only [List.getElem?_drop,Nat.add_sub_cancel' hcut] using this

/-- The new leaf takes the rest and the old one's link. -/
lemma takeHalf_row (hb : Blank order nd) (next : Ptr) :
    ∃ b₁ b₂ b₃,nd.fill temp (cut (order-1)) (order-cut (order-1)) = some b₁ ∧
      b₁.setPointer (order-1) next = some b₂ ∧ b₂.clearPointers order = some b₃ ∧
      Rewritten order (ks.drop (cut (order-1))) (ps.drop (cut (order-1))) nd b₃ ∧
      b₃.pointers[order-1]? = some next := by
  have hcut : cut (order-1) ≤ order-1 := cut_le
  have hcut' : 0 < cut (order-1) := cut_pos (by omega)
  obtain ⟨b₁,h₁,hr₁,-⟩ := fill_row hb htemp (cut (order-1)) (order-cut (order-1)) (by omega)
    (by omega) (by omega)
  rw [List.take_of_length_le (by simp [hks]),List.take_of_length_le (by simp [hps])] at hr₁
  obtain ⟨b₂,h₂,hr₂,hlink₂⟩ := setPointer_row hr₁.row (i := order-1) (by simp; omega) (by omega)
    next
  obtain ⟨b₃,h₃,hr₃,hlink₃⟩ := clearPointers_row hr₂.row (by simp [hks,hps])
  exact ⟨b₁,b₂,b₃,h₁,h₂,h₃,(hr₁.trans hr₂).trans hr₃,hlink₃.trans hlink₂⟩

end Halves

lemma setChildren_row (horder : 3 ≤ order) (hb : Blank order nd) (left : Slot) (key : UInt64)
    (right : Slot) :
    ∃ nd',nd.setChildren left key right = some nd' ∧
      Row order [key] [.node left,.node right] nd' ∧ nd'.isLeaf = nd.isLeaf ∧
      nd'.parent = none := by
  have hkeys := hb.keys_length
  have hpointers := hb.pointers_length
  obtain ⟨k,ks,hks⟩ := List.exists_cons_of_length_pos (l := nd.keys) (by omega)
  obtain ⟨p,ps,hps⟩ := List.exists_cons_of_length_pos (l := nd.pointers) (by omega)
  obtain ⟨q,ps,rfl⟩ := List.exists_cons_of_length_pos (l := ps) (by
    rw [hps,List.length_cons] at hpointers
    omega)
  rw [hks] at hkeys
  rw [hps] at hpointers
  refine ⟨{ nd with
    keys := key :: ks
    pointers := .node left :: .node right :: ps
    parent := none
    numKeys := nd.numKeys+1 },?_,⟨hkeys,hpointers,by simp [hb.numKeys_eq],rfl,rfl⟩,rfl,rfl⟩
  simp [setChildren,hks,hps,write]

lemma setEntry_row (horder : 3 ≤ order) (hb : Blank order nd) (key : UInt64) (r : Slot) :
    ∃ nd',nd.setEntry order key r = some nd' ∧ Row order [key] [.record r] nd' ∧
      nd'.isLeaf = nd.isLeaf ∧ nd'.parent = none ∧ nd'.pointers[order-1]? = some .null := by
  have hkeys := hb.keys_length
  have hpointers := hb.pointers_length
  obtain ⟨k,ks,hks⟩ := List.exists_cons_of_length_pos (l := nd.keys) (by omega)
  obtain ⟨p,ps,hps⟩ := List.exists_cons_of_length_pos (l := nd.pointers) (by omega)
  obtain ⟨n,rfl⟩ : ∃ n,order = n+3 := ⟨order-3,by omega⟩
  rw [hks] at hkeys
  rw [hps,List.length_cons] at hpointers
  have hlen : n+1 < ps.length := by omega
  refine ⟨{ nd with
    keys := key :: ks
    pointers := .record r :: ps.set (n+1) .null
    parent := none
    numKeys := nd.numKeys+1 },?_,⟨hkeys,?_,by simp [hb.numKeys_eq],rfl,rfl⟩,rfl,rfl,?_⟩
  · simp [setEntry,hks,hps,write,show n+2 < ps.length+1 by omega]
  · simpa using hpointers
  · simp [hlen]

end Node

end ElasticTranslations.Benchmarks.BTree
