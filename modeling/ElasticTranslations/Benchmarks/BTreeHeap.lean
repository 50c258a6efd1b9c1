import ElasticTranslations.Benchmarks.BTreeRows

/-! What the steps of an insertion into a B+ tree do to the nodes of the heap: which node they
add, which they change and that they leave the other ones alone. -/
namespace ElasticTranslations.Benchmarks.BTree
open Structures
variable {order : ℕ} {h h' : Heap} {live : Set Slot} {n : Slot} {nd nd' : Node}

namespace Heap

@[simp] lemma node_setNode_self (h : Heap) (n : Slot) (nd : Node) :
    (h.setNode n nd).node n = some nd := if_pos rfl

lemma node_setNode_of_ne (h : Heap) {n m : Slot} (hm : m ≠ n) (nd : Node) :
    (h.setNode n nd).node m = h.node m := if_neg hm

lemma ok_setNode (hok : nodeLayout.Ok h.nodes live) (hn : n ∈ live) (nd : Node) :
    nodeLayout.Ok (h.setNode n nd).nodes live := hok.store hn nd

lemma update_eq {f : Node → Option Node} (hnd : h.node n = some nd) (hf : f nd = some nd') :
    h.update n f = some (h.setNode n nd') := by
  simp [update,hnd,hf]

lemma exists_node (hok : nodeLayout.Ok h.nodes live) (hn : n ∈ live) :
    ∃ nd,h.node n = some nd := Option.isSome_iff_exists.mp (hok.live_isSome n hn)

end Heap

def Node.withParent (p : Slot) (nd : Node) : Node := { nd with parent := some p }

/-- Some nodes of a set now have `n` as their parent, the other ones are as before. -/
def Moves (h : Heap) (s : Set Slot) (n : Slot) (moved : List Slot) (h' : Heap) : Prop :=
  ∀ m ∈ s,h'.node m = if m ∈ moved then (h.node m).map (Node.withParent n) else h.node m

namespace Moves
variable {s : Set Slot} {moved : List Slot}

lemma setNode (hm : Moves h s n moved h') {m : Slot} (hms : m ∉ s) (nd : Node) :
    Moves h s n moved (h'.setNode m nd) := by
  intro k hk
  rw [h'.node_setNode_of_ne (ne_of_mem_of_not_mem hk hms),hm k hk]

lemma step (hm : Moves h s n moved h') {c : Slot} (hc : c ∈ s) (hnd : h.node c = some nd) :
    ∃ nd',h'.node c = some nd' ∧ Moves h s n (moved++[c]) (h'.setNode c (nd'.withParent n)) := by
  obtain ⟨nd',hnd',hparent⟩ : ∃ nd',h'.node c = some nd' ∧ nd'.withParent n = nd.withParent n := by
    have hother := hm c hc
    rw [hnd] at hother
    split_ifs at hother
    · exact ⟨_,hother,rfl⟩
    · exact ⟨_,hother,rfl⟩
  refine ⟨nd',hnd',fun m hms => ?_⟩
  by_cases hmc : m = c
  · subst hmc
    rw [h'.node_setNode_self,hparent,if_pos (by simp),hnd,Option.map_some]
  · rw [h'.node_setNode_of_ne hmc,hm m hms]
    simp [hmc]

end Moves

/-- A node that was not in use joins the others, of which it is the parent of some now. -/
structure Adds (h : Heap) (live : Set Slot) (n : Slot) (nd : Node) (moved : List Slot) (h' : Heap) :
    Prop where
  fresh : n ∉ live
  ok : nodeLayout.Ok h'.nodes (Insert.insert n live)
  node_eq : h'.node n = some nd
  moves : Moves h live n moved h'
  records_eq : h'.records = h.records

def blankNode (order : ℕ) : Node where
  pointers := List.replicate order .null
  keys := List.replicate (order-1) 0
  parent := none
  isLeaf := false
  numKeys := 0
  next := none

def blankLeaf (order : ℕ) : Node := { blankNode order with isLeaf := true }

lemma blank_blankNode (order : ℕ) : Blank order (blankNode order) := by
  constructor <;> simp [blankNode]

lemma blank_blankLeaf (order : ℕ) : Blank order (blankLeaf order) := by
  constructor <;> simp [blankLeaf,blankNode]

namespace Adds
variable {moved : List Slot}

lemma setNode (ha : Adds h live n nd moved h') (nd' : Node) :
    Adds h live n nd' moved (h'.setNode n nd') where
  fresh := ha.fresh
  ok := Heap.ok_setNode ha.ok (Set.mem_insert n live) nd'
  node_eq := h'.node_setNode_self n nd'
  moves := ha.moves.setNode ha.fresh nd'
  records_eq := ha.records_eq

lemma adopt (ha : Adds h live n nd moved h') (hok : nodeLayout.Ok h.nodes live) {c : Slot}
    (hc : c ∈ live) :
    ∃ h'',h'.update c (fun nd => some { nd with parent := some n }) = some h'' ∧
      Adds h live n nd (moved++[c]) h'' := by
  obtain ⟨nd₀,hnd₀⟩ := Heap.exists_node hok hc
  obtain ⟨nd',hnd',hmoves⟩ := ha.moves.step hc hnd₀
  refine ⟨_,Heap.update_eq hnd' rfl,ha.fresh,
    Heap.ok_setNode ha.ok (Set.mem_insert_of_mem n hc) _,?_,hmoves,ha.records_eq⟩
  rw [h'.node_setNode_of_ne (ne_of_mem_of_not_mem hc ha.fresh).symm,ha.node_eq]

end Adds

lemma makeNode_adds (order : ℕ) (hok : nodeLayout.Ok h.nodes live) :
    ∃ n h',makeNode order h = some (n,h') ∧ Adds h live n (blankNode order) [] h' := by
  obtain ⟨n,nodes,nd,halloc,hfresh,hok',hnd,hold⟩ := hok.alloc
  have hadds : Adds h live n nd [] { h with nodes } :=
    ⟨hfresh,hok',hnd,fun m hm => by simpa [Heap.node] using hold m hm,rfl⟩
  refine ⟨n,_,?_,hadds.setNode (blankNode order)⟩
  simp [makeNode,Heap.allocNode,halloc,Heap.update,Heap.node,hnd,blankNode]

lemma makeLeaf_adds (order : ℕ) (hok : nodeLayout.Ok h.nodes live) :
    ∃ n h',makeLeaf order h = some (n,h') ∧
      Adds h live n (blankLeaf order) [] h' := by
  obtain ⟨n,h',hmake,hadds⟩ := makeNode_adds order hok
  refine ⟨n,_,?_,hadds.setNode _⟩
  simp [makeLeaf,hmake,Heap.update_eq hadds.node_eq,blankLeaf]

/-- Two halves of a node that was full: the old node and a new one, the parent of the nodes that
have moved. -/
structure Halves (h : Heap) (live : Set Slot) (old new : Slot) (nd₁ nd₂ : Node)
    (moved : List Slot) (h' : Heap) : Prop where
  fresh : new ∉ live
  ok : nodeLayout.Ok h'.nodes (Insert.insert new live)
  records_eq : h'.records = h.records
  left : h'.node old = some nd₁
  right : h'.node new = some nd₂
  moves : Moves h (live \ {old}) new moved h'

lemma Adds.halves {old : Slot} (ha : Adds h live n nd' [] h') (hold : old ∈ live)
    (hnd : h.node old = some nd) : Halves h live old n nd nd' [] h' where
  fresh := ha.fresh
  ok := ha.ok
  records_eq := ha.records_eq
  left := by
    have := ha.moves old hold
    simpa [hnd] using this
  right := ha.node_eq
  moves m hm := ha.moves m hm.1

namespace Halves
variable {old new : Slot} {nd₁ nd₂ : Node} {moved : List Slot}

lemma setLeft (hh : Halves h live old new nd₁ nd₂ moved h') (hold : old ∈ live) (nd : Node) :
    Halves h live old new nd nd₂ moved (h'.setNode old nd) where
  fresh := hh.fresh
  ok := Heap.ok_setNode hh.ok (Set.mem_insert_of_mem new hold) nd
  records_eq := hh.records_eq
  left := h'.node_setNode_self old nd
  right := by
    rw [h'.node_setNode_of_ne (ne_of_mem_of_not_mem hold hh.fresh).symm,hh.right]
  moves := hh.moves.setNode (by simp) nd

lemma setRight (hh : Halves h live old new nd₁ nd₂ moved h') (hold : old ∈ live) (nd : Node) :
    Halves h live old new nd₁ nd moved (h'.setNode new nd) where
  fresh := hh.fresh
  ok := Heap.ok_setNode hh.ok (Set.mem_insert new live) nd
  records_eq := hh.records_eq
  left := by
    rw [h'.node_setNode_of_ne (ne_of_mem_of_not_mem hold hh.fresh),hh.left]
  right := h'.node_setNode_self new nd
  moves := hh.moves.setNode (fun hm => hh.fresh hm.1) nd

/-- One more node is moved to the new one. -/
lemma reparent (hh : Halves h live old new nd₁ nd₂ moved h')
    (hok : nodeLayout.Ok h.nodes live) {c : Slot} (hc : c ∈ live) (hne : c ≠ old)
    {i : ℕ} (hi : nd₂.pointers[i]? = some (.node c)) :
    ∃ h'',BTree.reparent new i h' = some h'' ∧ Halves h live old new nd₁ nd₂ (moved++[c]) h'' := by
  obtain ⟨nd,hnd⟩ := Heap.exists_node hok hc
  obtain ⟨nd',hnd',hmoves⟩ := hh.moves.step ⟨hc,hne⟩ hnd
  refine ⟨h'.setNode c (nd'.withParent new),?_,hh.fresh,?_,hh.records_eq,?_,?_,hmoves⟩
  · rw [BTree.reparent,hh.right]
    simp [hi,Heap.update,hnd',Node.withParent]
  · exact Heap.ok_setNode hh.ok (Set.mem_insert_of_mem new hc) _
  · rw [h'.node_setNode_of_ne hne.symm,hh.left]
  · rw [h'.node_setNode_of_ne (ne_of_mem_of_not_mem hc hh.fresh).symm,hh.right]

/-- The children of the new half get it as their parent. -/
lemma reparentAll (hh : Halves h live old new nd₁ nd₂ [] h') (hok : nodeLayout.Ok h.nodes live)
    (cs : List Slot) {n : ℕ} (hn : n = cs.length)
    (hptr : ∀ i < cs.length,nd₂.pointers[i]? = (cs.map Ptr.node)[i]?)
    (hlive : ∀ c ∈ cs,c ∈ live ∧ c ≠ old) :
    ∃ h'',forUp (BTree.reparent new) n 0 h' = some h'' ∧
      Halves h live old new nd₁ nd₂ cs h'' := by
  obtain ⟨h'',hloop,hh'⟩ := forUp_rule (BTree.reparent new) (n := n) (i := 0)
    (I := fun i h' => Halves h live old new nd₁ nd₂ (cs.take i) h') hh (by
      intro i h' _ hi hh
      have hi : i < cs.length := by omega
      have hc := hlive _ (List.getElem_mem hi)
      rw [List.take_succ_eq_append_getElem hi]
      refine hh.reparent hok hc.1 hc.2 (i := i) ?_
      rw [hptr i hi,List.getElem?_map,List.getElem?_eq_getElem hi,Option.map_some])
  rw [Nat.zero_add,List.take_of_length_le hn.ge] at hh'
  exact ⟨h'',hloop,hh'⟩

end Halves

lemma splitLeaf_halves (horder : 3 ≤ order) (hok : nodeLayout.Ok h.nodes live) {leaf : Slot}
    (hleaf : leaf ∈ live) (hnd : h.node leaf = some nd) {ks ks' : List UInt64} {ps ps' : List Ptr}
    (hrow : Row order ks ps nd) (hps : ps.length = ks.length) (hfull : ks.length = order-1)
    {key : UInt64} {r : Slot}
    (hks' : ks' = ks.insertIdx (ks.takeWhile fun k => k < key).length key)
    (hps' : ps' = ps.insertIdx (ks.takeWhile fun k => k < key).length (.record r)) :
    ∃ new newKey nd₁ nd₂ h',splitLeaf order h leaf key r = some (new,newKey,h') ∧
      Halves h live leaf new nd₁ nd₂ [] h' ∧
      Rewritten order (ks'.take (cut (order-1))) (ps'.take (cut (order-1))) nd nd₁ ∧
      nd₁.pointers[order-1]? = some (.node new) ∧
      Row order (ks'.drop (cut (order-1))) (ps'.drop (cut (order-1))) nd₂ ∧
      nd₂.isLeaf = true ∧ nd₂.parent = nd.parent ∧
      nd₂.pointers[order-1]? = nd.pointers[order-1]? ∧ ks'[cut (order-1)]? = some newKey := by
  obtain ⟨new,h₁,hmake,hadds⟩ := makeLeaf_adds order hok
  obtain ⟨temp,htemp,hholds⟩ := Node.leafTemp_holds hrow hps hfull key r
  rw [← hks',← hps'] at hholds
  have hat := length_takeWhile_le (fun k => k < key) ks
  have hkslen : ks'.length = order := by
    rw [hks',List.length_insertIdx_of_le_length hat]
    omega
  have hpslen : ps'.length = order := by
    rw [hps',List.length_insertIdx_of_le_length (by omega)]
    omega
  have hcut : cut (order-1) ≤ order-1 := cut_le
  obtain ⟨next,hnext⟩ : ∃ next,nd.pointers[order-1]? = some next :=
    ⟨_,List.getElem?_eq_getElem (by rw [hrow.pointers_length]; omega)⟩
  obtain ⟨a₁,a₂,a₃,ha₁,hlast,ha₂,ha₃,⟨harow,haleaf,haparent⟩,halink⟩ :=
    Node.keepHalf_row hholds hkslen hpslen horder hrow.blank new
  obtain ⟨b₁,b₂,b₃,hb₁,hb₂,hb₃,hrb,hblink⟩ :=
    Node.takeHalf_row hholds hkslen hpslen horder (blank_blankLeaf order) next
  have hkey : ks'[cut (order-1)]? = some ks'[cut (order-1)] := List.getElem?_eq_getElem (by omega)
  have hfirst : b₃.keys[0]? = some ks'[cut (order-1)] := by
    have := congrArg (·[0]?) hrb.row.keys_take
    rwa [List.getElem?_take_of_lt (by simp; omega),List.getElem?_drop,Nat.add_zero,hkey] at this
  have h0 := hadds.halves hleaf hnd
  have h1 := h0.setLeft hleaf a₁
  have h2 := h1.setRight hleaf b₁
  have h3 := h2.setRight hleaf b₂
  have h4 := h3.setLeft hleaf a₂
  have h5 := h4.setLeft hleaf a₃
  have h6 := h5.setRight hleaf b₃
  have h7 := h6.setRight hleaf { b₃ with parent := a₃.parent }
  have hfill := Heap.update_eq
    (f := fun nd => Node.fill temp 0 (cut (order-1)) { nd with numKeys := 0 }) h0.left ha₁
  have hparent := Heap.update_eq
    (f := fun new => some { new with parent := a₃.parent }) h6.right rfl
  refine ⟨new,ks'[cut (order-1)],_,_,_,?_,h7,⟨harow,haleaf,haparent⟩,halink,?_,hrb.isLeaf_eq,
    haparent,hblink.trans hnext.symm,hkey⟩
  · simp [splitLeaf,hmake,h0.left,htemp,hfill,Heap.update_eq h1.right hb₁,h2.left,hlast,hnext,
      Heap.update_eq h2.right hb₂,Heap.update_eq h3.left ha₂,Heap.update_eq h4.left ha₃,
      Heap.update_eq h5.right hb₃,h6.left,hparent,h7.right,hfirst]
  · exact ⟨hrb.row.keys_length,hrb.row.pointers_length,hrb.row.numKeys_eq,hrb.row.keys_take,
      hrb.row.pointers_take⟩

lemma splitNode_halves (horder : 3 ≤ order) (hok : nodeLayout.Ok h.nodes live) {old : Slot}
    (hold : old ∈ live) (hnd : h.node old = some nd) {ks ks' : List UInt64} {cs cs' : List Slot}
    (hrow : Row order ks (cs.map .node) nd) (hcs : cs.length = ks.length+1)
    (hfull : ks.length = order-1) {i : ℕ} (hi : i ≤ ks.length) (key : UInt64) (right : Slot)
    (hks' : ks' = ks.insertIdx i key) (hcs' : cs' = cs.insertIdx (i+1) right)
    (hlive : ∀ c ∈ cs',c ∈ live ∧ c ≠ old) :
    ∃ new kPrime nd₁ nd₂ h',splitNode order h old i key right = some (new,kPrime,h') ∧
      Halves h live old new nd₁ nd₂ (cs'.drop (cut order)) h' ∧
      Rewritten order (ks'.take (cut order-1)) ((cs'.take (cut order)).map .node) nd nd₁ ∧
      Row order (ks'.drop (cut order)) ((cs'.drop (cut order)).map .node) nd₂ ∧
      nd₂.isLeaf = false ∧ nd₂.parent = nd.parent ∧ ks'[cut order-1]? = some kPrime := by
  obtain ⟨temp,htemp,hholds⟩ := Node.nodeTemp_holds hrow (by simpa using hcs) hfull (by omega) hi
    key right
  rw [← hks',← List.map_insertIdx,← hcs'] at hholds
  have hkslen : ks'.length = order := by
    rw [hks',List.length_insertIdx_of_le_length hi]
    omega
  have hcslen : cs'.length = order+1 := by
    rw [hcs',List.length_insertIdx_of_le_length (by omega)]
    omega
  have hcut : cut order ≤ order := cut_le
  have hcut' : 0 < cut order := cut_pos (by omega)
  obtain ⟨new,h₁,hmake,hadds⟩ := makeNode_adds order hok
  obtain ⟨a₁,ha₁,harow,haleaf,haparent⟩ := Node.fillNode_row hrow.blank hholds 0
    (cut order-1) (by omega) (by simp; omega) (by omega)
  obtain ⟨b₁,hb₁,hbrow,hbleaf,hbparent⟩ := Node.fillNode_row (blank_blankNode order) hholds
    (cut order) (order-cut order) (by omega) (by simp; omega) (by omega)
  rw [List.drop_zero,List.drop_zero,Nat.sub_add_cancel hcut',← List.map_take] at harow
  rw [List.take_of_length_le (by simp [hkslen]),List.take_of_length_le (by simp [hcslen]; omega),
    ← List.map_drop] at hbrow
  have hkey : ks'[cut order-1]? = some ks'[cut order-1] := List.getElem?_eq_getElem (by omega)
  have htkey : temp.keys[cut order-1]? = some ks'[cut order-1] := by
    rw [← hkey,← hholds.keys_take,List.getElem?_take_of_lt (by omega)]
  have h0 := hadds.halves hold hnd
  have h1 := h0.setLeft hold a₁
  have h2 := h1.setRight hold b₁
  have h3 := h2.setRight hold { b₁ with parent := a₁.parent }
  have hfill := Heap.update_eq
    (f := fun nd => Node.fillNode temp 0 (cut order-1) { nd with numKeys := 0 }) h0.left ha₁
  have hparent := Heap.update_eq
    (f := fun new => some { new with parent := a₁.parent }) h2.right rfl
  obtain ⟨h₄,hloop,h4⟩ := h3.reparentAll hok (cs'.drop (cut order)) (n := b₁.numKeys+1)
    (by simp [hbrow.numKeys_eq,hkslen,hcslen]; omega)
    (fun i hi => hbrow.pointers_get (by simpa using hi))
    fun c hc => hlive c (List.mem_of_mem_drop hc)
  refine ⟨new,ks'[cut order-1],_,_,h₄,?_,h4,⟨harow,haleaf,haparent⟩,?_,hbleaf,haparent,hkey⟩
  · simp [splitNode,hnd,htemp,hmake,hfill,htkey,Heap.update_eq h1.right hb₁,h2.left,hparent,
      h3.right,hloop]
  · exact ⟨hbrow.keys_length,hbrow.pointers_length,hbrow.numKeys_eq,hbrow.keys_take,
      hbrow.pointers_take⟩

lemma insertIntoNewRoot_adds (horder : 3 ≤ order) (hok : nodeLayout.Ok h.nodes live)
    {left right : Slot} (hleft : left ∈ live) (hright : right ∈ live) (key : UInt64) :
    ∃ root nd h',insertIntoNewRoot order h left key right = some (root,h') ∧
      Adds h live root nd [left,right] h' ∧ Row order [key] [.node left,.node right] nd ∧
      nd.isLeaf = false ∧ nd.parent = none := by
  obtain ⟨root,h₁,hmake,h1⟩ := makeNode_adds order hok
  obtain ⟨nd,hnd,hrow,hleaf,hparent⟩ := Node.setChildren_row horder (blank_blankNode order)
    left key right
  obtain ⟨h₂,hadopt₂,h2⟩ := (h1.setNode nd).adopt hok hleft
  obtain ⟨h₃,hadopt₃,h3⟩ := h2.adopt hok hright
  refine ⟨root,nd,h₃,?_,h3,hrow,hleaf,hparent⟩
  simp [insertIntoNewRoot,hmake,Heap.update_eq h1.node_eq hnd,hadopt₂,hadopt₃]

lemma startNewTree_adds (horder : 3 ≤ order) (hok : nodeLayout.Ok h.nodes live) (key : UInt64)
    (r : Slot) :
    ∃ root nd h',startNewTree order h key r = some (root,h') ∧ Adds h live root nd [] h' ∧
      Row order [key] [.record r] nd ∧ nd.isLeaf = true ∧ nd.parent = none ∧
      nd.pointers[order-1]? = some .null := by
  obtain ⟨root,h₁,hmake,h1⟩ := makeLeaf_adds order hok
  obtain ⟨nd,hnd,hrow,hleaf,hparent,hlink⟩ := Node.setEntry_row horder
    (blank_blankLeaf order) key r
  refine ⟨root,nd,_,?_,h1.setNode nd,hrow,hleaf,hparent,hlink⟩
  simp [startNewTree,hmake,Heap.update_eq h1.node_eq hnd]

end ElasticTranslations.Benchmarks.BTree
