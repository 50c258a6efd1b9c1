import Mathlib.Data.List.Perm.Basic
import Mathlib.Data.List.Range
import ElasticTranslations.Pcc.CacheSetLinks

/-! Structural integrity of a set: the linked lines and the free lines share out the line
objects, and the map only points to linked lines that carry the looked-up tag. Tags may
occur twice; nothing here assumes that an inserted tag is absent. -/
namespace ElasticTranslations.Pcc
open Structures

namespace CacheSet
variable {associativity policy : ℕ} {cs cs' : CacheSet associativity policy}
  {order : List LinePtr}

/-- The objects of the `entries` array. -/
def lineObjects (associativity : ℕ) : List LinePtr := (List.range associativity).map .entry

/-- The nodes met on the way from the head to the tail. -/
def linked (cs : CacheSet associativity policy) : List LinePtr :=
  cs.links.walk .tail associativity (cs.lines .head).next

/-- `order` lists the lines between the sentinels. -/
structure Represents (cs : CacheSet associativity policy) (order : List LinePtr) : Prop where
  threads : cs.links.Threads (LinePtr.head :: order ++ [LinePtr.tail])
  objects : (order ++ cs.freeEntries).Perm (lineObjects associativity)
  indexed : ∀ t p, cs.find t = some p → p ∈ order ∧ (cs.lines p).addr = t
  sentinel : (cs.lines .tail).freq = 0

lemma lineObjects_nodup : (lineObjects associativity).Nodup :=
  List.nodup_range.map (fun _ _ h => by simpa using h)

lemma new_represents : (new associativity policy).Represents [] where
  threads := List.isChain_cons_cons.mpr ⟨⟨rfl,rfl⟩,List.isChain_singleton _⟩
  objects := by
    simp only [new,List.nil_append,lineObjects]
    exact (List.reverse_perm _).map _
  indexed t p h := by simp [find,new] at h
  sentinel := rfl

namespace Represents

lemma nodup (h : cs.Represents order) : (order ++ cs.freeEntries).Nodup :=
  h.objects.nodup_iff.mpr lineObjects_nodup

lemma order_nodup (h : cs.Represents order) : order.Nodup := h.nodup.of_append_left

lemma mem_objects (h : cs.Represents order) {p : LinePtr} (hp : p ∈ order ++ cs.freeEntries) :
    ∃ i < associativity, p = .entry i := by
  have hm := h.objects.mem_iff.mp hp
  simp only [lineObjects,List.mem_map,List.mem_range] at hm
  obtain ⟨i,hi,rfl⟩ := hm
  exact ⟨i,hi,rfl⟩

lemma not_sentinel (h : cs.Represents order) {p : LinePtr} (hp : p ∈ order) :
    p ≠ .head ∧ p ≠ .tail := by
  obtain ⟨i,-,rfl⟩ := h.mem_objects (List.mem_append_left _ hp)
  exact ⟨by simp,by simp⟩

/-- With both sentinels the nodes of the list are still distinct. -/
lemma nodes_nodup (h : cs.Represents order) : (LinePtr.head :: order ++ [LinePtr.tail]).Nodup := by
  have hh : LinePtr.head ∉ order := fun hm => (h.not_sentinel hm).1 rfl
  have ht : LinePtr.tail ∉ order := fun hm => (h.not_sentinel hm).2 rfl
  simp only [List.cons_append,List.nodup_cons,List.nodup_append,List.mem_append]
  refine ⟨by simp [hh],h.order_nodup,by simp,?_⟩
  intro p hp q hq
  obtain rfl : q = .tail := by simpa using hq
  exact fun he => ht (he ▸ hp)

lemma count (h : cs.Represents order) :
    order.length + cs.freeEntries.length = associativity := by
  have hl := h.objects.length_eq
  simpa [lineObjects] using hl

lemma linked_eq (h : cs.Represents order) : cs.linked = order := by
  refine h.threads.walk_eq order .head associativity ?_ ?_
  · exact fun hm => (h.not_sentinel hm).2 rfl
  · have := h.count; omega

end Represents

/-- A linked line has a neighbour on both sides, perhaps a sentinel. -/
lemma neighbours {p : LinePtr} (hp : p ∈ order) :
    ∃ xs ys a b zs ws, order = xs ++ p :: ys ∧ LinePtr.head :: xs = zs ++ [a] ∧
      ys ++ [LinePtr.tail] = b :: ws := by
  obtain ⟨xs,ys,rfl⟩ := List.append_of_mem hp
  obtain ⟨zs,a,hz⟩ := List.eq_nil_or_concat (LinePtr.head :: xs) |>.resolve_left (by simp)
  obtain ⟨b,ws,hw⟩ := List.exists_cons_of_ne_nil (l := ys ++ [LinePtr.tail]) (by simp)
  exact ⟨xs,ys,a,b,zs,ws,rfl,by simpa using hz,hw⟩

/-- `deleteNode` takes exactly one line off the list. -/
lemma deleteNode_order (cs : CacheSet associativity policy) {p : LinePtr}
    (h : cs.links.Threads (LinePtr.head :: order ++ [LinePtr.tail]))
    (hnd : (LinePtr.head :: order ++ [LinePtr.tail]).Nodup) (hp : p ∈ order) :
    ∃ cs', cs.deleteNode p = .ok cs' ∧ Relinked cs cs' ∧
      cs'.links.Threads (LinePtr.head :: order.erase p ++ [LinePtr.tail]) := by
  obtain ⟨xs,ys,a,b,zs,ws,rfl,hz,hw⟩ := neighbours hp
  have hsplit : LinePtr.head :: (xs ++ p :: ys) ++ [LinePtr.tail] = zs ++ a :: p :: b :: ws := by
    calc LinePtr.head :: (xs ++ p :: ys) ++ [LinePtr.tail]
        = (LinePtr.head :: xs) ++ p :: (ys ++ [LinePtr.tail]) := by simp
      _ = zs ++ a :: p :: b :: ws := by rw [hz,hw]; simp
  have hpx : p ∉ xs := by
    simp only [List.cons_append,List.nodup_cons,List.nodup_append,List.mem_append] at hnd
    grind
  have herase : LinePtr.head :: (xs ++ p :: ys).erase p ++ [LinePtr.tail] = zs ++ a :: b :: ws := by
    calc LinePtr.head :: (xs ++ p :: ys).erase p ++ [LinePtr.tail]
        = (LinePtr.head :: xs) ++ (ys ++ [LinePtr.tail]) := by
          rw [List.erase_append_right _ hpx]; simp
      _ = zs ++ a :: b :: ws := by rw [hz,hw]; simp
  obtain ⟨cs',hr,hrel,hth⟩ := deleteNode_spec (hsplit ▸ h) (hsplit ▸ hnd)
  exact ⟨cs',hr,hrel,herase ▸ hth⟩

/-- Policy 0 puts a line in front. -/
lemma insertFront_order {c : LinePtr}
    (h : cs.links.Threads (LinePtr.head :: order ++ [LinePtr.tail]))
    (hnd : (LinePtr.head :: c :: order ++ [LinePtr.tail]).Nodup) :
    ∃ cs', cs.insertFront c .head = .ok cs' ∧ Relinked cs cs' ∧
      cs'.links.Threads (LinePtr.head :: (c :: order) ++ [LinePtr.tail]) := by
  obtain ⟨b,bs,hb⟩ := List.exists_cons_of_ne_nil (l := order ++ [LinePtr.tail]) (by simp)
  have hsplit : LinePtr.head :: order ++ [LinePtr.tail] = .head :: b :: bs := by
    rw [← hb]; rfl
  obtain ⟨cs',hr,hrel,hth⟩ := insertFront_spec (c := c) (hsplit ▸ h)
    (by rw [← hb]; simpa using hnd)
  rw [← hb] at hth
  exact ⟨cs',hr,hrel,hth⟩

/-- A line outside the list is linked in front of the node where a scan has stopped. -/
lemma linkBefore_order {c b : LinePtr} {xs ys bs : List LinePtr}
    (h : cs.links.Threads (LinePtr.head :: (xs ++ ys) ++ [LinePtr.tail]))
    (hnd : (LinePtr.head :: c :: (xs ++ ys) ++ [LinePtr.tail]).Nodup)
    (hb : ys ++ [LinePtr.tail] = b :: bs) :
    ∃ cs', cs.linkBefore c b = .ok cs' ∧ Relinked cs cs' ∧
      cs'.links.Threads (LinePtr.head :: (xs ++ c :: ys) ++ [LinePtr.tail]) := by
  obtain ⟨zs,a,hz⟩ := List.eq_nil_or_concat (LinePtr.head :: xs) |>.resolve_left (by simp)
  have hz' : LinePtr.head :: xs = zs ++ [a] := by simpa using hz
  have hsplit : LinePtr.head :: (xs ++ ys) ++ [LinePtr.tail] = zs ++ a :: b :: bs := by
    calc LinePtr.head :: (xs ++ ys) ++ [LinePtr.tail]
        = (LinePtr.head :: xs) ++ (ys ++ [LinePtr.tail]) := by simp
      _ = zs ++ a :: b :: bs := by rw [hz',hb]; simp
  have hgoal : LinePtr.head :: (xs ++ c :: ys) ++ [LinePtr.tail] = zs ++ a :: c :: b :: bs := by
    calc LinePtr.head :: (xs ++ c :: ys) ++ [LinePtr.tail]
        = (LinePtr.head :: xs) ++ c :: (ys ++ [LinePtr.tail]) := by simp
      _ = zs ++ a :: c :: b :: bs := by rw [hz',hb]; simp
  have hnd' : (LinePtr.head :: (xs ++ c :: ys) ++ [LinePtr.tail]).Nodup := by
    refine (List.Perm.nodup_iff ?_).mp hnd
    refine List.Perm.cons _ (List.Perm.append_right _ ?_)
    exact List.perm_middle.symm
  obtain ⟨cs',hr,hrel,hth⟩ := linkBefore_spec (hsplit ▸ h) (hgoal ▸ hnd')
  exact ⟨cs',hr,hrel,hgoal ▸ hth⟩

/-- Policy 1 puts a new line somewhere between the sentinels. -/
lemma insertHalf_order {c : LinePtr}
    (h : cs.links.Threads (LinePtr.head :: order ++ [LinePtr.tail]))
    (hnd : (LinePtr.head :: c :: order ++ [LinePtr.tail]).Nodup) :
    ∃ cs' xs ys, order = xs ++ ys ∧ cs.insertHalf c = .ok cs' ∧ Relinked cs cs' ∧
      cs'.links.Threads (LinePtr.head :: (xs ++ c :: ys) ++ [LinePtr.tail]) := by
  have ht : LinePtr.tail ∉ order := by
    simp only [List.cons_append,List.nodup_cons,List.nodup_append,List.mem_append] at hnd
    grind
  obtain ⟨xs,ys,b,bs,rfl,hb,hscan⟩ := scanHalf_spec order
    (if associativity - cs.freeEntries.length = associativity then associativity/2
      else (associativity - cs.freeEntries.length)/2) h ht
  obtain ⟨cs',hr,hrel,hth⟩ := linkBefore_order h hnd hb
  exact ⟨cs',xs,ys,rfl,by simpa [insertHalf,hscan] using hr,hrel,hth⟩

/-- Policy 2 puts a line behind the lines of higher frequency. -/
lemma insertLFU_order {c : LinePtr}
    (h : cs.links.Threads (LinePtr.head :: order ++ [LinePtr.tail]))
    (hnd : (LinePtr.head :: c :: order ++ [LinePtr.tail]).Nodup)
    (ht : (cs.lines .tail).freq = 0) (hl : order.length ≤ associativity) :
    ∃ cs' xs ys, order = xs ++ ys ∧ cs.insertLFU c = .ok cs' ∧ Relinked cs cs' ∧
      cs'.links.Threads (LinePtr.head :: (xs ++ c :: ys) ++ [LinePtr.tail]) ∧
      (∀ p ∈ xs, (cs.lines c).freq < (cs.lines p).freq) ∧
      ∀ p ∈ ys.head?, (cs.lines p).freq ≤ (cs.lines c).freq := by
  obtain ⟨xs,ys,b,bs,rfl,hb,hscan,hxs,hfb⟩ :=
    scanLFU_spec (c := c) order (associativity+1) h ht (by omega)
  obtain ⟨cs',hr,hrel,hth⟩ := linkBefore_order h hnd hb
  refine ⟨cs',xs,ys,rfl,by simpa [insertLFU,hscan] using hr,hrel,hth,hxs,?_⟩
  intro p hp
  cases ys with
  | nil => simp at hp
  | cons y ys =>
    obtain ⟨rfl,-⟩ : y = b ∧ _ := by simpa using hb
    obtain rfl : y = p := by simpa using hp
    exact hfb

/-- The position at which a line is linked: in front under policy 0, behind the lines of
higher frequency under policy 2. -/
structure Position (cs : CacheSet associativity policy) (c : LinePtr) (xs ys : List LinePtr) :
    Prop where
  front : policy = 0 → xs = []
  above : policy = 2 → ∀ p ∈ xs, (cs.lines c).freq < (cs.lines p).freq
  below : policy = 2 → ∀ p ∈ ys.head?, (cs.lines p).freq ≤ (cs.lines c).freq

lemma Relinked.position {c : LinePtr} {xs ys : List LinePtr} (h : Relinked cs cs')
    (hp : Position cs c xs ys) : Position cs' c xs ys where
  front := hp.front
  above he p hm := by simpa only [h.freq] using hp.above he p hm
  below he p hm := by simpa only [h.freq] using hp.below he p hm

/-- A new line goes between the sentinels. -/
lemma placeNew_spec (cs : CacheSet associativity policy) {c : LinePtr} (hpol : policy ≤ 2)
    (h : cs.links.Threads (LinePtr.head :: order ++ [LinePtr.tail]))
    (hnd : (LinePtr.head :: c :: order ++ [LinePtr.tail]).Nodup)
    (ht : (cs.lines .tail).freq = 0) (hl : order.length ≤ associativity) :
    ∃ cs' xs ys, order = xs ++ ys ∧ cs.placeNew c = .ok cs' ∧ Relinked cs cs' ∧
      cs'.links.Threads (LinePtr.head :: (xs ++ c :: ys) ++ [LinePtr.tail]) ∧
      Position cs c xs ys := by
  obtain rfl | rfl | rfl : policy = 0 ∨ policy = 1 ∨ policy = 2 := by omega
  · obtain ⟨cs',hr,hrel,hth⟩ := insertFront_order h hnd
    exact ⟨cs',[],order,rfl,by simpa [placeNew] using hr,hrel,hth,fun _ => rfl,by omega,by omega⟩
  · obtain ⟨cs',xs,ys,he,hr,hrel,hth⟩ := insertHalf_order h hnd
    exact ⟨cs',xs,ys,he,by simpa [placeNew] using hr,hrel,hth,by omega,by omega,by omega⟩
  · obtain ⟨cs',xs,ys,he,hr,hrel,hth,ha,hb⟩ := insertLFU_order h hnd ht hl
    exact ⟨cs',xs,ys,he,by simpa [placeNew] using hr,hrel,hth,by omega,fun _ => ha,fun _ => hb⟩

/-- The line that a hit has unlinked goes back between the sentinels, under policy 1 only if
it was hit often enough before. -/
lemma relink_spec (cs : CacheSet associativity policy) {c : LinePtr} (hpol : policy ≤ 2)
    (hkeep : policy = 1 → associativity/2 ≤ (cs.lines c).freq)
    (h : cs.links.Threads (LinePtr.head :: order ++ [LinePtr.tail]))
    (hnd : (LinePtr.head :: c :: order ++ [LinePtr.tail]).Nodup)
    (ht : (cs.lines .tail).freq = 0) (hl : order.length ≤ associativity) :
    ∃ cs' xs ys, order = xs ++ ys ∧ cs.relink c = .ok cs' ∧ Relinked cs cs' ∧
      cs'.links.Threads (LinePtr.head :: (xs ++ c :: ys) ++ [LinePtr.tail]) ∧
      Position cs c xs ys := by
  obtain rfl | rfl | rfl : policy = 0 ∨ policy = 1 ∨ policy = 2 := by omega
  · obtain ⟨cs',hr,hrel,hth⟩ := insertFront_order h hnd
    exact ⟨cs',[],order,rfl,by simpa [relink] using hr,hrel,hth,fun _ => rfl,by omega,by omega⟩
  · obtain ⟨cs',hr,hrel,hth⟩ := insertFront_order h hnd
    exact ⟨cs',[],order,rfl,by simpa [relink,hkeep rfl] using hr,hrel,hth,by omega,by omega,
      by omega⟩
  · obtain ⟨cs',xs,ys,he,hr,hrel,hth,ha,hb⟩ := insertLFU_order h hnd ht hl
    exact ⟨cs',xs,ys,he,by simpa [relink] using hr,hrel,hth,by omega,fun _ => ha,fun _ => hb⟩

end CacheSet
end ElasticTranslations.Pcc
