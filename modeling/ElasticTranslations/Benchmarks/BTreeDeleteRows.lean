import ElasticTranslations.Benchmarks.BTreeDelete
import ElasticTranslations.Benchmarks.BTreeRows

/-! What a deletion does to the keys and pointers of single nodes: an entry goes, a node takes in
the next one, an entry comes over from a neighbor. -/
namespace ElasticTranslations.Benchmarks.BTree
open Structures
variable {order : ℕ} {ks ks' : List UInt64} {ps ps' : List Ptr} {nd nd' : Node} {key : UInt64}
  {p : Ptr} {i j : ℕ}

namespace Node

lemma setKey_eq (hi : i < nd.keys.length) (k : UInt64) :
    nd.setKey i k = some { nd with keys := nd.keys.set i k } := by
  simp [setKey,write_of_lt hi]

lemma clear_row (h : Row order ks ps nd) {n : ℕ} (hn : ps.length+n ≤ order) :
    ∃ nd',forUp (fun i nd => nd.setPointer i .null) n ps.length nd = some nd' ∧
      Rewritten order ks ps nd nd' ∧ ∀ k,ps.length+n ≤ k → nd'.pointers[k]? = nd.pointers[k]? := by
  obtain ⟨nd',hnd',ps',rfl,hps'⟩ :=
    forUp_rule (fun i nd => nd.setPointer i .null) (n := n) (i := ps.length) (s := nd)
      (I := fun j nd' => ∃ ps',nd' = { nd with pointers := ps' } ∧
        FilledWith .null ps.length nd.pointers j ps')
      ⟨_,rfl,.start _ _ _⟩ (by
        rintro j _ hj hj' ⟨ps',rfl,hps'⟩
        obtain ⟨ps'',hwp,hps''⟩ := hps'.step hj (by rw [h.pointers_length]; omega)
        exact ⟨_,by simp [setPointer,hwp],ps'',rfl,hps''⟩)
  refine ⟨_,hnd',⟨⟨h.keys_length,hps'.1.trans h.pointers_length,h.numKeys_eq,h.keys_take,?_⟩,rfl,
    rfl⟩,fun k hk => hps'.getElem?_of_le hk⟩
  exact hps'.take_eq.trans h.pointers_take

/-- A key and a pointer go; the link of a leaf stays. -/
lemma removeEntry_row (h : Row order ks ps nd)
    (hps : ps.length = if nd.isLeaf then ks.length else ks.length+1) (hksn : ks.Nodup)
    (hpsn : ps.Nodup) (hi : ks[i]? = some key) (hj : ps[j]? = some p) :
    ∃ nd',nd.removeEntry order key p = some nd' ∧
      Rewritten order (ks.eraseIdx i) (ps.eraseIdx j) nd nd' ∧
      (nd.isLeaf → nd'.pointers[order-1]? = nd.pointers[order-1]?) := by
  have hilt := (List.getElem?_eq_some_iff.mp hi).1
  have hjlt := (List.getElem?_eq_some_iff.mp hj).1
  have hkle := h.length_keys_le
  have hple := h.length_pointers_le
  have hn := h.numKeys_eq
  have hps₀ : ps.length = if nd.isLeaf then nd.numKeys else nd.numKeys+1 := by rw [hn,hps]
  obtain ⟨ks₁,hks₁,hkclosed⟩ := moveDown_rule nd.keys (n := nd.numKeys) (p := i) (by omega)
    (by rw [h.keys_length]; omega)
  obtain ⟨ps₁,hps₁,hpclosed⟩ := moveDown_rule nd.pointers (n := ps.length) hjlt
    (by rw [h.pointers_length]; omega)
  have hpred : nd.numKeys.ppred = some (nd.numKeys-1) := Nat.ppred_eq_some.mpr (by omega)
  have hktake := hkclosed.take_eq (by omega)
  have hptake := hpclosed.take_eq hjlt
  rw [hn,h.keys_take] at hktake
  rw [h.pointers_take] at hptake
  have hklen : (ks.eraseIdx i).length = ks.length-1 := List.length_eraseIdx_of_lt hilt
  have hplen : (ps.eraseIdx j).length = ps.length-1 := List.length_eraseIdx_of_lt hjlt
  have hrow : Row order (ks.eraseIdx i) (ps.eraseIdx j)
      { nd with keys := ks₁,pointers := ps₁,numKeys := nd.numKeys-1 } :=
    .of_take (hkclosed.1.trans h.keys_length) (hpclosed.1.trans h.pointers_length)
      (by rw [hn]) hktake hklen hptake hplen
  obtain ⟨nd',hnd',hrow',hlast'⟩ :=
    clear_row hrow (n := (if nd.isLeaf then order-1 else order)-(ps.length-1)) (by
      rw [hplen]
      split_ifs at hps ⊢ <;> omega)
  refine ⟨nd',?_,⟨hrow'.row,hrow'.isLeaf_eq,hrow'.parent_eq⟩,fun hleaf => ?_⟩
  · rw [hplen] at hnd'
    simp only [removeEntry,idxOf?_of_take h.keys_take hksn hi,hks₁,← hps₀,
      idxOf?_of_take h.pointers_take hpsn hj,hps₁,hpred,Option.bind_eq_bind,Option.bind_some]
    cases hleaf : nd.isLeaf with
    | true =>
      simp only [hleaf,if_true] at hps₀ hnd' ⊢
      rw [hps₀] at hnd'
      simpa [clearPointers] using hnd'
    | false =>
      simp only [hleaf] at hps₀ hnd' ⊢
      have hback : nd.numKeys-1+1 = ps.length-1 := by
        simp at hps₀
        omega
      simpa [hback] using hnd'
  · rw [hlast' (order-1) (by rw [hplen,if_pos hleaf]; simp only [hleaf,if_true] at hps; omega)]
    refine hpclosed.getElem?_of_le ?_
    simp only [hleaf,if_true] at hps
    omega

lemma append_loop {n : Node} (nb : Node) (at' : ℕ) {m : ℕ} (hk : m ≤ n.keys.length)
    (hp : m ≤ n.pointers.length) (hk' : at'+m ≤ nb.keys.length) (hp' : at'+m ≤ nb.pointers.length) :
    ∃ keys pointers,forUp (appendEntry n at') m 0 nb =
        some { nb with keys,pointers,numKeys := nb.numKeys+m } ∧
      Placed n.keys at' nb.keys m keys ∧ Placed n.pointers at' nb.pointers m pointers := by
  obtain ⟨nb',hnb',keys,pointers,rfl,hkeys,hpointers⟩ :=
    forUp_rule (appendEntry n at') (n := m) (i := 0) (s := nb)
      (I := fun j nb' => ∃ keys pointers,nb' = { nb with keys,pointers,numKeys := nb.numKeys+j } ∧
        Placed n.keys at' nb.keys j keys ∧ Placed n.pointers at' nb.pointers j pointers)
      ⟨_,_,rfl,.start _ _ _,.start _ _ _⟩ (by
        rintro j _ - hj ⟨keys,pointers,rfl,hkeys,hpointers⟩
        obtain ⟨k,keys',hk,hwk,hkeys'⟩ := hkeys.step (by omega) (by omega)
        obtain ⟨p,pointers',hp,hwp,hpointers'⟩ := hpointers.step (by omega) (by omega)
        exact ⟨_,by simp [appendEntry,hk,hwk,hp,hwp,Nat.add_assoc],keys',pointers',rfl,hkeys',
          hpointers'⟩)
  rw [Nat.zero_add] at hnb' hkeys hpointers
  exact ⟨keys,pointers,hnb',hkeys,hpointers⟩

lemma absorbLeaf_row {n nb : Node} (h : Row order ks ps nb) (hps : ps.length = ks.length)
    (h' : Row order ks' ps' n) (hps' : ps'.length = ks'.length)
    (hfit : ks.length+ks'.length ≤ order-1) (horder : 0 < order) :
    ∃ nb',absorbLeaf order n nb = some nb' ∧ Rewritten order (ks++ks') (ps++ps') nb nb' ∧
      nb'.pointers[order-1]? = n.pointers[order-1]? := by
  have hn := h.numKeys_eq
  have hn' := h'.numKeys_eq
  obtain ⟨keys,pointers,hloop,hkeys,hpointers⟩ := append_loop (n := n) nb nb.numKeys
    (m := n.numKeys) (by rw [h'.keys_length]; omega) (by rw [h'.pointers_length]; omega)
    (by rw [h.keys_length]; omega) (by rw [h.pointers_length]; omega)
  have hktake := hkeys.take_eq (by rw [h.keys_length]; omega)
  have hptake := hpointers.take_eq (by rw [h.pointers_length]; omega)
  rw [hn,hn',h.keys_take,h'.keys_take] at hktake
  rw [hn,hn',← hps,← hps',h.pointers_take,h'.pointers_take] at hptake
  have hlast : order-1 < pointers.length := by
    rw [hpointers.1,h.pointers_length]
    omega
  obtain ⟨p,hp⟩ : ∃ p,n.pointers[order-1]? = some p :=
    ⟨_,List.getElem?_eq_getElem (by rw [h'.pointers_length]; omega)⟩
  refine ⟨{ nb with
    keys
    pointers := pointers.set (order-1) p
    numKeys := nb.numKeys+n.numKeys },?_,⟨?_,rfl,rfl⟩,?_⟩
  · simp [absorbLeaf,hloop,hp,setPointer,write_of_lt hlast]
  · refine .of_take (hkeys.1.trans h.keys_length) ?_ (by rw [hn,hn']) hktake
      List.length_append (m := ps.length+ps'.length) ?_ List.length_append
    · rw [List.length_set,hpointers.1,h.pointers_length]
    · rw [List.take_set_of_le (by omega),hptake]
  · rw [hp]
    exact List.getElem?_set_self hlast

lemma absorbNode_row {n nb : Node} (h : Row order ks ps nb) (hps : ps.length = ks.length+1)
    (h' : Row order ks' ps' n) (hps' : ps'.length = ks'.length+1)
    (hfit : ks.length+1+ks'.length ≤ order-1) (k : UInt64) :
    ∃ nb',absorbNode k n nb = some nb' ∧ Rewritten order (ks++k :: ks') (ps++ps') nb nb' := by
  have hn := h.numKeys_eq
  have hn' := h'.numKeys_eq
  obtain ⟨p,hp⟩ : ∃ p,ps'[n.numKeys]? = some p := ⟨_,List.getElem?_eq_getElem (by omega)⟩
  have hset : nb.setKey nb.numKeys k = some { nb with keys := nb.keys.set nb.numKeys k } :=
    setKey_eq (by rw [h.keys_length]; omega) k
  obtain ⟨keys,pointers,hloop,hkeys,hpointers⟩ := append_loop (n := n)
    { nb with keys := nb.keys.set nb.numKeys k,numKeys := nb.numKeys+1 } (nb.numKeys+1)
    (m := n.numKeys) (by rw [h'.keys_length]; omega) (by rw [h'.pointers_length]; omega)
    (by rw [List.length_set,h.keys_length]; omega) (by dsimp only; rw [h.pointers_length]; omega)
  have hktake := hkeys.take_eq (by rw [List.length_set,h.keys_length]; omega)
  have hptake := hpointers.take_eq (by dsimp only; rw [h.pointers_length]; omega)
  rw [List.take_succ_eq_append_getElem (by rw [List.length_set,h.keys_length]; omega),
    List.take_set_of_le le_rfl,List.getElem_set_self,hn,hn',h.keys_take,h'.keys_take,
    List.append_assoc,List.singleton_append] at hktake
  dsimp only at hptake
  rw [hn,← hps,h.pointers_take] at hptake
  have hlast : ps.length+n.numKeys < pointers.length := by
    rw [hpointers.1]
    dsimp only
    rw [h.pointers_length]
    omega
  have hget : n.pointers[n.numKeys]? = some p := by rw [h'.pointers_get (by omega),hp]
  have hps'_eq : n.pointers.take n.numKeys++[p] = ps' := by
    rw [← h'.pointers_take,hps',← hn']
    rw [List.take_add_one,hget,Option.toList_some]
  refine ⟨{ nb with
    keys
    pointers := pointers.set (nb.numKeys+1+n.numKeys) p
    numKeys := nb.numKeys+1+n.numKeys },?_,⟨?_,rfl,rfl⟩⟩
  · simp only [absorbNode,hset,Option.bind_eq_bind,Option.bind_some,hloop,hget]
    exact setPointer_eq (by rwa [hn,← hps]) p
  · refine .of_take ?_ ?_ (by simp only [hn,hn']) (n := ks.length+1+ks'.length) hktake
      (by simp; omega) (m := ps.length+n.numKeys+1) ?_ (by rw [List.length_append]; omega)
    · rw [hkeys.1,List.length_set,h.keys_length]
    · simp only [List.length_set]
      rw [hpointers.1,h.pointers_length]
    · rw [hn,← hps,List.take_succ_eq_append_getElem (by simpa using hlast),
        List.take_set_of_le le_rfl,List.getElem_set_self,hptake,List.append_assoc,hps'_eq]

lemma makeRoom_eq (h : Row order ks ps nd)
    (hps : ps.length = if nd.isLeaf then ks.length else ks.length+1)
    (hroom : ks.length < order-1) :
    ∃ keys pointers,nd.makeRoom = some { nd with keys,pointers } ∧
      Shifted nd.keys 0 ks.length keys ∧ Shifted nd.pointers 0 ps.length pointers := by
  have hn := h.numKeys_eq
  have hkeys := h.keys_length
  have hpointers := h.pointers_length
  obtain ⟨pointers₀,hlen₀,hstart,hshift⟩ : ∃ pointers₀,pointers₀.length = order ∧
      nd.makeRoom = forDown shiftEntry 0 nd.numKeys { nd with pointers := pointers₀ } ∧
      ∀ pointers,Shifted pointers₀ 0 nd.numKeys pointers →
        Shifted nd.pointers 0 ps.length pointers := by
    cases hleaf : nd.isLeaf with
    | true =>
      simp only [hleaf,if_true] at hps
      refine ⟨nd.pointers,hpointers,?_,fun pointers hp => by rwa [hps,← hn]⟩
      simp only [makeRoom,hleaf,if_true,Option.bind_eq_bind,Option.bind_some]
      rw [← hleaf]
    | false =>
      simp only [hleaf] at hps
      obtain ⟨p,hp⟩ : ∃ p,nd.pointers[nd.numKeys]? = some p :=
        ⟨_,List.getElem?_eq_getElem (by omega)⟩
      refine ⟨nd.pointers.set (nd.numKeys+1) p,by simpa using hpointers,?_,fun pointers hsh => ?_⟩
      · simp [makeRoom,hleaf,hp,setPointer_eq (show nd.numKeys+1 < nd.pointers.length by omega)]
      · refine ⟨hsh.1.trans (by simp),fun k => ?_⟩
        rw [hsh.2 k,List.getElem?_set,List.getElem?_set]
        grind
  obtain ⟨nd',hnd',keys,pointers,rfl,hks,hps'⟩ :=
    forDown_rule shiftEntry (s := { nd with pointers := pointers₀ }) (Nat.zero_le nd.numKeys)
      (I := fun i nd' => ∃ keys pointers,nd' = { nd with keys,pointers } ∧
        Shifted nd.keys i nd.numKeys keys ∧ Shifted pointers₀ i nd.numKeys pointers)
      ⟨_,_,rfl,.start _ _,.start _ _⟩ (by
        rintro i _ - hi ⟨keys,pointers,rfl,hks,hps'⟩
        obtain ⟨k,keys',hk,hwk,hks'⟩ := hks.step hi (by omega)
        obtain ⟨p,pointers',hp,hwp,hps''⟩ := hps'.step hi (by omega)
        exact ⟨_,by simp [shiftEntry,hk,hwk,hp,hwp],keys',pointers',rfl,hks',hps''⟩)
  exact ⟨keys,pointers,hstart.trans hnd',hn ▸ hks,hshift pointers hps'⟩

/-- An entry comes to the front. -/
lemma pushFront_row (h : Row order ks ps nd)
    (hps : ps.length = if nd.isLeaf then ks.length else ks.length+1)
    (hroom : ks.length < order-1) (k : UInt64) (p : Ptr) :
    ∃ nd₁ nd₂ nd₃,nd.makeRoom = some nd₁ ∧ nd₁.setPointer 0 p = some nd₂ ∧
      nd₂.setKey 0 k = some nd₃ ∧
      Rewritten order (k :: ks) (p :: ps) nd { nd₃ with numKeys := nd₃.numKeys+1 } ∧
      (nd₁.isLeaf = nd.isLeaf ∧ nd₁.parent = nd.parent) ∧
      (nd.isLeaf → nd₃.pointers[order-1]? = nd.pointers[order-1]?) := by
  obtain ⟨keys,pointers,hroom',hks,hps'⟩ := makeRoom_eq h hps hroom
  have hple : ps.length < order := by
    split_ifs at hps <;> omega
  obtain ⟨keys',hkeys',hkeyslen,hktake,-⟩ := hks.finish (Nat.zero_le _)
    (by rw [h.keys_length]; omega) k
  obtain ⟨pointers',hpointers',hplen,hptake,hpdrop⟩ := hps'.finish (Nat.zero_le _)
    (by rwa [h.pointers_length]) p
  rw [h.keys_take,List.insertIdx_zero] at hktake
  rw [h.pointers_take,List.insertIdx_zero] at hptake
  refine ⟨_,{ nd with keys,pointers := pointers' },{ nd with keys := keys',pointers := pointers' },
    hroom',?_,?_,⟨?_,rfl,rfl⟩,⟨rfl,rfl⟩,fun hleaf => ?_⟩
  · simp [setPointer,hpointers']
  · simp [setKey,hkeys']
  · exact .of_take (hkeyslen.trans h.keys_length) (hplen.trans h.pointers_length)
      (congrArg (·+1) h.numKeys_eq) hktake (by simp) hptake (by simp)
  · simp only [hleaf,if_true] at hps
    have := congrArg (·[order-1-(ps.length+1)]?) hpdrop
    simpa only [List.getElem?_drop,show ps.length+1+(order-1-(ps.length+1)) = order-1 by omega]
      using this

/-- The last entry goes. -/
lemma popBack_row {k : UInt64} (h : Row order (ks++[k]) (ps++[p]) nd) (q : Ptr) :
    ∃ nd',nd.setPointer ps.length q = some nd' ∧
      Rewritten order ks ps nd { nd' with numKeys := ks.length } ∧ nd'.numKeys = nd.numKeys ∧
      (ps.length < order-1 → nd'.pointers[order-1]? = nd.pointers[order-1]?) := by
  have hple := h.length_pointers_le
  have hktake := h.keys_take
  have hptake := h.pointers_take
  rw [List.length_append,List.length_singleton] at hple hktake hptake
  have hlt : ps.length < nd.pointers.length := by
    rw [h.pointers_length]
    omega
  refine ⟨_,setPointer_eq hlt q,⟨?_,rfl,rfl⟩,rfl,fun hlast => ?_⟩
  · refine .of_take h.keys_length (by simpa using h.pointers_length) rfl ?_ rfl
      (m := ps.length) ?_ rfl
    · have := congrArg (List.take ks.length) hktake
      simpa [List.take_take] using this
    · have := congrArg (List.take ps.length) hptake
      rw [List.take_set_of_le le_rfl]
      simpa [List.take_take] using this
  · exact List.getElem?_set_ne (by omega)

lemma keys_last {k : UInt64} (h : Row order (ks++[k]) ps nd) : nd.keys[ks.length]? = some k := by
  rw [← List.getElem?_take_of_lt (show ks.length < (ks++[k]).length by simp),h.keys_take]
  simp

lemma pointers_last (h : Row order ks (ps++[p]) nd) : nd.pointers[ps.length]? = some p := by
  rw [h.pointers_get (by simp)]
  simp

/-- An entry comes to the end. -/
lemma pushBack_row (h : Row order ks ps nd) (hroom : ks.length < order-1)
    (hproom : ps.length < order) (k : UInt64) (p : Ptr) :
    ∃ nd₁ nd₂,nd.setKey ks.length k = some nd₁ ∧ nd₁.setPointer ps.length p = some nd₂ ∧
      Rewritten order (ks++[k]) (ps++[p]) nd { nd₂ with numKeys := nd₂.numKeys+1 } ∧
      (ps.length < order-1 → nd₂.pointers[order-1]? = nd.pointers[order-1]?) := by
  have hk : ks.length < nd.keys.length := by rwa [h.keys_length]
  have hp : ps.length < nd.pointers.length := by rwa [h.pointers_length]
  refine ⟨{ nd with keys := nd.keys.set ks.length k },{ nd with
    keys := nd.keys.set ks.length k
    pointers := nd.pointers.set ps.length p },setKey_eq hk k,
    by simp [setPointer,write_of_lt hp],⟨?_,rfl,rfl⟩,fun hlast => List.getElem?_set_ne (by omega)⟩
  refine .of_take (n := ks.length+1) (m := ps.length+1) ?_ ?_ (congrArg (·+1) h.numKeys_eq) ?_
    (by simp) ?_ (by simp)
  · simpa using h.keys_length
  · simpa using h.pointers_length
  · rw [List.take_succ_eq_append_getElem (by simpa using hk),List.take_set_of_le le_rfl,
      h.keys_take,List.getElem_set_self]
  · rw [List.take_succ_eq_append_getElem (by simpa using hp),List.take_set_of_le le_rfl,
      h.pointers_take,List.getElem_set_self]

/-- The first entry goes. -/
lemma popFront_row {k : UInt64} (h : Row order (k :: ks) (p :: ps) nd)
    (hps : ps.length = if nd.isLeaf then ks.length else ks.length+1) :
    ∃ nd',nd.closeFront nd.isLeaf = some nd' ∧
      Rewritten order ks ps nd { nd' with numKeys := ks.length } ∧ nd'.numKeys = nd.numKeys ∧
      (nd.isLeaf → nd'.pointers[order-1]? = nd.pointers[order-1]?) := by
  have hn := h.numKeys_eq
  have hkle := h.length_keys_le
  have hple := h.length_pointers_le
  have hkeys := h.keys_length
  have hpointers := h.pointers_length
  have hktake := h.keys_take
  have hptake := h.pointers_take
  rw [List.length_cons] at hn hkle hple hktake hptake
  have hpred : nd.numKeys.ppred = some ks.length := Nat.ppred_eq_some.mpr hn.symm
  obtain ⟨nd₁,hloop,keys,pointers,rfl,hks,hps'⟩ :=
    forUp_rule moveEntryDown (n := ks.length) (i := 0) (s := nd)
      (I := fun i nd' => ∃ keys pointers,nd' = { nd with keys,pointers } ∧
        Closed nd.keys 0 (i+1) keys ∧ Closed nd.pointers 0 (i+1) pointers)
      ⟨_,_,rfl,.start _ _,.start _ _⟩ (by
        rintro i _ - hi ⟨keys,pointers,rfl,hks,hps'⟩
        obtain ⟨k,keys',hk,hwk,hks'⟩ := hks.step (by omega) (by omega)
        obtain ⟨p,pointers',hp,hwp,hps''⟩ := hps'.step (by omega) (by omega)
        rw [Nat.add_sub_cancel] at hwk hwp
        exact ⟨_,by simp [moveEntryDown,hk,hwk,hp,hwp],keys',pointers',rfl,hks',hps''⟩)
  rw [Nat.zero_add] at hks hps'
  have hktake' := hks.take_eq (by omega)
  have hptake' := hps'.take_eq (by omega)
  rw [hktake,Nat.add_sub_cancel,List.eraseIdx_zero,List.tail_cons] at hktake'
  rw [Nat.add_sub_cancel] at hptake'
  cases hleaf : nd.isLeaf with
  | true =>
    simp only [hleaf,if_true] at hps
    rw [← hps,hptake,List.eraseIdx_zero,List.tail_cons] at hptake'
    refine ⟨{ nd with keys,pointers },by simp [closeFront,hpred,hloop],⟨?_,rfl,rfl⟩,rfl,
      fun _ => ?_⟩
    · exact .of_take (hks.1.trans hkeys) (hps'.1.trans hpointers) rfl hktake' rfl hptake' rfl
    · exact hps'.getElem?_of_le (by omega)
  | false =>
    simp only [hleaf] at hps
    have hlen : ps.length = ks.length+1 := by simpa using hps
    obtain ⟨q,hq⟩ : ∃ q,pointers[ks.length+1]? = some q :=
      ⟨_,List.getElem?_eq_getElem (by rw [hps'.1]; omega)⟩
    have hold : nd.pointers[ks.length+1]? = some q := (hps'.getElem?_of_le (by omega)).symm.trans hq
    have hstep := hps'.step (by omega) (show ks.length+1 < nd.pointers.length by omega)
    obtain ⟨q',pointers',hq',hw,hps''⟩ := hstep
    obtain rfl : q = q' := Option.some.inj (hq.symm.trans hq')
    have hptake'' := hps''.take_eq (by omega)
    rw [Nat.add_sub_cancel,← hlen,hptake,List.eraseIdx_zero,List.tail_cons] at hptake''
    refine ⟨{ nd with keys,pointers := pointers' },?_,⟨?_,rfl,rfl⟩,rfl,fun hcon => by simp at hcon⟩
    · simp only [Nat.add_sub_cancel] at hw
      simp [closeFront,hpred,hloop,hq,setPointer,hw]
    · exact .of_take (hks.1.trans hkeys) (hps''.1.trans hpointers) rfl hktake' rfl hptake'' rfl

lemma setKey_row (h : Row order ks ps nd) (hi : i < ks.length) (k : UInt64) :
    ∃ nd',nd.setKey i k = some nd' ∧ Rewritten order (ks.set i k) ps nd nd' := by
  have hle := h.length_keys_le
  refine ⟨_,setKey_eq (by rw [h.keys_length]; omega) k,⟨?_,rfl,rfl⟩⟩
  refine ⟨by simpa using h.keys_length,h.pointers_length,by simpa using h.numKeys_eq,?_,
    h.pointers_take⟩
  rw [List.length_set,List.take_set,h.keys_take]

end Node

end ElasticTranslations.Benchmarks.BTree
