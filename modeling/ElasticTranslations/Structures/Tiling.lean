import Mathlib.Order.Basic
import Mathlib.Data.List.Nodup
import Mathlib.Data.Set.Basic

/-! Half-open intervals that tile an interval, and trees whose every node is tiled by its
children. All leaves of such a tree are at one level, and any point is in one node of a level. -/
namespace ElasticTranslations.Structures
variable {ι β : Type*}

/-- The items, each with the interval from `lo` to `hi`, tile the interval from `l` to `h`. -/
def Tiles [LT β] (lo hi : ι → β) : β → β → List ι → Prop
  | l,h,[] => l = h
  | l,h,c :: cs => lo c = l ∧ l < hi c ∧ Tiles lo hi (hi c) h cs

variable [LinearOrder β] {lo hi lo' hi' : ι → β} {l h x : β} {as bs cs : List ι} {c d : ι}

lemma tiles_append : Tiles lo hi l h (as++bs) ↔ ∃ m,Tiles lo hi l m as ∧ Tiles lo hi m h bs := by
  induction as generalizing l with
  | nil => simp [Tiles]
  | cons a as ih =>
    simp only [List.cons_append,Tiles,ih]
    constructor
    · rintro ⟨hl,hlt,m,hm⟩
      exact ⟨m,⟨hl,hlt,hm.1⟩,hm.2⟩
    · rintro ⟨m,⟨hl,hlt,ha⟩,hb⟩
      exact ⟨hl,hlt,m,ha,hb⟩

namespace Tiles

lemma le (ht : Tiles lo hi l h cs) : l ≤ h := by
  induction cs generalizing l with
  | nil => exact ht.le
  | cons c cs ih => exact ht.2.1.le.trans (ih ht.2.2)

lemma mem (ht : Tiles lo hi l h cs) (hc : c ∈ cs) : l ≤ lo c ∧ lo c < hi c ∧ hi c ≤ h := by
  obtain ⟨as,bs,rfl⟩ := List.append_of_mem hc
  obtain ⟨m,ha,hm,hlt,hb⟩ := tiles_append.mp ht
  exact ⟨hm ▸ ha.le,hm ▸ hlt,hb.le⟩

lemma congr (ht : Tiles lo hi l h cs) (hlo : ∀ c ∈ cs,lo' c = lo c) (hhi : ∀ c ∈ cs,hi' c = hi c) :
    Tiles lo' hi' l h cs := by
  induction cs generalizing l with
  | nil => exact ht
  | cons c cs ih =>
    simp only [List.forall_mem_cons] at hlo hhi
    rw [Tiles,hlo.1,hhi.1]
    exact ⟨ht.1,ht.2.1,ih ht.2.2 hlo.2 hhi.2⟩

lemma pairwise (ht : Tiles lo hi l h cs) : cs.Pairwise fun a b => hi a ≤ lo b := by
  induction cs generalizing l with
  | nil => exact List.Pairwise.nil
  | cons c cs ih => exact List.pairwise_cons.mpr ⟨fun b hb => (ht.2.2.mem hb).1,ih ht.2.2⟩

/-- The left ends are strictly increasing. -/
lemma pairwise_lo (ht : Tiles lo hi l h cs) : (cs.map lo).Pairwise (· < ·) := by
  rw [List.pairwise_map]
  refine ht.pairwise.imp_of_mem ?_
  intro a b ha _ hab
  exact (ht.mem ha).2.1.trans_le hab

lemma nodup (ht : Tiles lo hi l h cs) : cs.Nodup := by
  apply List.Nodup.of_map lo
  exact ht.pairwise_lo.imp fun h => h.ne

lemma exists_mem (ht : Tiles lo hi l h cs) (hl : l ≤ x) (hx : x < h) :
    ∃ c ∈ cs,lo c ≤ x ∧ x < hi c := by
  induction cs generalizing l with
  | nil =>
    subst ht
    exact absurd hx hl.not_gt
  | cons c cs ih =>
    obtain ⟨hlo,-,ht⟩ := ht
    by_cases hc : x < hi c
    · exact ⟨c,by simp,hlo ▸ hl,hc⟩
    · obtain ⟨d,hd,hxd⟩ := ih ht (not_lt.mp hc)
      exact ⟨d,by simp [hd],hxd⟩

/-- A point lies in one of the tiles only. -/
lemma eq_of_mem (ht : Tiles lo hi l h cs) (hc : c ∈ cs) (hd : d ∈ cs) (hxc : lo c ≤ x ∧ x < hi c)
    (hxd : lo d ≤ x ∧ x < hi d) : c = d := by
  induction cs generalizing l with
  | nil => simp at hc
  | cons a as ih =>
    obtain ⟨-,-,ht⟩ := ht
    rcases List.mem_cons.mp hc with rfl | hcs
    · rcases List.mem_cons.mp hd with rfl | hds
      · rfl
      · exact absurd (hxc.2.trans_le ((ht.mem hds).1.trans hxd.1)) (lt_irrefl x)
    · rcases List.mem_cons.mp hd with rfl | hds
      · exact absurd (hxd.2.trans_le ((ht.mem hcs).1.trans hxc.1)) (lt_irrefl x)
      · exact ih ht hcs hds

/-- The tile of a point is the one behind the left ends not above it, the first one's aside. -/
lemma search (ht : Tiles lo hi l h (c :: cs)) (hl : l ≤ x) (hx : x < h) :
    ∃ d,(c :: cs)[((cs.map lo).takeWhile fun k => k ≤ x).length]? = some d ∧
      lo d ≤ x ∧ x < hi d := by
  induction cs generalizing c l with
  | nil =>
    obtain ⟨hlo,-,rfl⟩ := ht
    exact ⟨c,by simp,hlo ▸ hl,hx⟩
  | cons b cs ih =>
    obtain ⟨hlo,-,ht⟩ := ht
    by_cases hb : lo b ≤ x
    · obtain ⟨d,hd,hxd⟩ := ih ht (ht.1 ▸ hb)
      exact ⟨d,by simpa [hb] using hd,hxd⟩
    · refine ⟨c,by simp [hb],hlo ▸ hl,?_⟩
      rw [← ht.1]
      exact not_le.mp hb

/-- One tile gives way to two. -/
lemma split (ht : Tiles lo hi l h (as++c :: bs)) (hlo : ∀ a ∈ as++c :: bs,lo' a = lo a)
    (hhi : ∀ a ∈ as++bs,hi' a = hi a) (hc : lo c < hi' c) (hd : lo' d = hi' c)
    (hdlt : lo' d < hi' d) (hcd : hi' d = hi c) : Tiles lo' hi' l h (as++c :: d :: bs) := by
  obtain ⟨m,ha,hm,-,hb⟩ := tiles_append.mp ht
  refine tiles_append.mpr ⟨m,
    ha.congr (fun a h => hlo a (by simp [h])) fun a h => hhi a (by simp [h]),?_,?_,hd,hd ▸ hdlt,?_⟩
  · rw [hlo c (by simp),hm]
  · rw [← hm]
    exact hc
  · rw [hcd]
    exact hb.congr (fun a h => hlo a (by simp [h])) fun a h => hhi a (by simp [h])

/-- A tile takes in the next one. -/
lemma merge (ht : Tiles lo hi l h (as++c :: d :: bs)) (hlo : ∀ a ∈ as++c :: bs,lo' a = lo a)
    (hhi : ∀ a ∈ as++bs,hi' a = hi a) (hc : hi' c = hi d) : Tiles lo' hi' l h (as++c :: bs) := by
  obtain ⟨m,ha,hm,hlt,hd,hdlt,hb⟩ := tiles_append.mp ht
  refine tiles_append.mpr ⟨m,
    ha.congr (fun a h => hlo a (by simp [h])) fun a h => hhi a (by simp [h]),?_,?_,?_⟩
  · rw [hlo c (by simp),hm]
  · rw [hc]
    exact hlt.trans hdlt
  · rw [hc]
    exact hb.congr (fun a h => hlo a (by simp [h])) fun a h => hhi a (by simp [h])

/-- The border between two tiles moves. -/
lemma move (ht : Tiles lo hi l h (as++c :: d :: bs)) (hlo : ∀ a ∈ as++c :: bs,lo' a = lo a)
    (hhi : ∀ a ∈ as++d :: bs,hi' a = hi a) (hcd : lo' d = hi' c) (hc : lo c < hi' c)
    (hd : hi' c < hi d) : Tiles lo' hi' l h (as++c :: d :: bs) := by
  obtain ⟨m,ha,hm,-,-,-,hb⟩ := tiles_append.mp ht
  refine tiles_append.mpr ⟨m,
    ha.congr (fun a h => hlo a (by simp [h])) fun a h => hhi a (by simp [h]),?_,?_,hcd,?_,?_⟩
  · rw [hlo c (by simp),hm]
  · rwa [← hm]
  · rwa [hhi d (by simp)]
  · rw [hhi d (by simp)]
    exact hb.congr (fun a h => hlo a (by simp [h])) fun a h => hhi a (by simp [h])

/-- Each tile ends where the next one begins. -/
lemma map_hi (ht : Tiles lo hi l h (c :: cs)) : (c :: cs).map hi = cs.map lo++[h] := by
  induction cs generalizing c l with
  | nil =>
    obtain ⟨-,-,rfl⟩ := ht
    rfl
  | cons b cs ih =>
    obtain ⟨-,-,ht⟩ := ht
    rw [List.map_cons,ih ht,List.map_cons,ht.1,List.cons_append]

lemma flatMap {f : ι → List ι} (ht : Tiles lo hi l h cs)
    (hf : ∀ c ∈ cs,Tiles lo hi (lo c) (hi c) (f c)) : Tiles lo hi l h (cs.flatMap f) := by
  induction cs generalizing l with
  | nil => exact ht
  | cons c cs ih =>
    simp only [List.forall_mem_cons] at hf
    obtain ⟨hlo,-,ht⟩ := ht
    exact tiles_append.mpr ⟨hi c,hlo ▸ hf.1,ih ht hf.2⟩

end Tiles

/-- The nodes of a subtree, a node before its children's. -/
def subtreeNodes (kids : ι → List ι) : ℕ → ι → List ι
  | 0,a => [a]
  | n+1,a => a :: (kids a).flatMap (subtreeNodes kids n)

/-- The leaves of a subtree of height `n`, from left to right. -/
def subtreeLeaves (kids : ι → List ι) : ℕ → ι → List ι
  | 0,a => [a]
  | n+1,a => (kids a).flatMap (subtreeLeaves kids n)

/-- Each item links to the next one, the last one to nothing. -/
def Chained (links : ι → Option ι → Prop) : List ι → Prop
  | [] => True
  | a :: l => links a l.head? ∧ Chained links l

lemma Chained.of_append {links : ι → Option ι → Prop} (h : Chained links (as++bs)) :
    Chained links bs := by
  induction as with
  | nil => exact h
  | cons a as ih => exact ih h.2

/-- A tree on a set of nodes: the children of a node are one level below it and tile it. -/
structure TiledTree (ι β : Type*) [LinearOrder β] where
  live : Set ι
  root : ι
  level : ι → ℕ
  lo : ι → β
  hi : ι → β
  kids : ι → List ι
  root_live : root ∈ live
  root_lt : lo root < hi root
  kid_live : ∀ a ∈ live,0 < level a → ∀ c ∈ kids a,c ∈ live ∧ level c+1 = level a
  tiles : ∀ a ∈ live,0 < level a → Tiles lo hi (lo a) (hi a) (kids a)
  up : ∀ a ∈ live,a ≠ root → ∃ p ∈ live,0 < level p ∧ a ∈ kids p
  level_le : ∀ a ∈ live,level a ≤ level root

namespace TiledTree
variable (T : TiledTree ι β) {a b : ι}

lemma level_lt (ha : a ∈ T.live) (hne : a ≠ T.root) : T.level a < T.level T.root := by
  obtain ⟨p,hp,hpos,hap⟩ := T.up a ha hne
  have hkid := T.kid_live p hp hpos a hap
  have hle := T.level_le p hp
  omega

/-- Induction from the root down. -/
lemma down_induction {P : ι → Prop} (hroot : P T.root)
    (hkid : ∀ p ∈ T.live,0 < T.level p → P p → ∀ c ∈ T.kids p,P c) (ha : a ∈ T.live) : P a := by
  induction hn : T.level T.root-T.level a using Nat.strong_induction_on generalizing a with
  | _ n ih =>
    by_cases hne : a = T.root
    · rwa [hne]
    · obtain ⟨p,hp,hpos,hap⟩ := T.up a ha hne
      have hlevel := T.kid_live p hp hpos a hap
      have hle := T.level_le p hp
      exact hkid p hp hpos (ih _ (by omega) hp rfl) a hap

lemma within (ha : a ∈ T.live) :
    T.lo T.root ≤ T.lo a ∧ T.lo a < T.hi a ∧ T.hi a ≤ T.hi T.root := by
  apply T.down_induction ?_ ?_ ha
  · exact ⟨le_rfl,T.root_lt,le_rfl⟩
  · intro p hp hpos hwithin c hc
    have := (T.tiles p hp hpos).mem hc
    exact ⟨hwithin.1.trans this.1,this.2.1,this.2.2.trans hwithin.2.2⟩

/-- A point lies in one node of a level only. -/
lemma eq_of_mem (ha : a ∈ T.live) (hb : b ∈ T.live) (hlevel : T.level a = T.level b)
    (hxa : T.lo a ≤ x ∧ x < T.hi a) (hxb : T.lo b ≤ x ∧ x < T.hi b) : a = b := by
  revert b hxa
  apply T.down_induction ?_ ?_ ha
  · intro b hb hlevel _ _
    by_contra hne
    exact (T.level_lt hb (Ne.symm hne)).ne' hlevel
  · intro p hp hpos ih c hc b hb hlevel hxc hxb
    have hcp := T.kid_live p hp hpos c hc
    have hle := T.level_le p hp
    have hbne : b ≠ T.root := by
      rintro rfl
      omega
    obtain ⟨q,hq,hqpos,hbq⟩ := T.up b hb hbne
    have hbq' := T.kid_live q hq hqpos b hbq
    have hcin := (T.tiles p hp hpos).mem hc
    have hbin := (T.tiles q hq hqpos).mem hbq
    have hpq : p = q := ih hq (by omega) ⟨hcin.1.trans hxc.1,hxc.2.trans_le hcin.2.2⟩
      ⟨hbin.1.trans hxb.1,hxb.2.trans_le hbin.2.2⟩
    subst hpq
    exact (T.tiles p hp hpos).eq_of_mem hc hbq hxc hxb

/-- No two nodes of a level end at the same point. -/
lemma eq_of_hi_eq (ha : a ∈ T.live) (hb : b ∈ T.live) (hlevel : T.level a = T.level b)
    (hhi : T.hi a = T.hi b) : a = b := by
  have halt := (T.within ha).2.1
  have hblt := (T.within hb).2.1
  rcases le_total (T.lo a) (T.lo b) with hab | hba
  · exact T.eq_of_mem ha hb hlevel ⟨hab,hhi ▸ hblt⟩ ⟨le_rfl,hblt⟩
  · exact T.eq_of_mem ha hb hlevel ⟨le_rfl,halt⟩ ⟨hba,hhi ▸ halt⟩

lemma mem_subtreeNodes (ha : a ∈ T.live) (hb : b ∈ subtreeNodes T.kids (T.level a) a) :
    b ∈ T.live ∧ T.level b ≤ T.level a ∧ T.lo a ≤ T.lo b ∧ T.hi b ≤ T.hi a := by
  induction hn : T.level a generalizing a with
  | zero =>
    rw [hn,subtreeNodes,List.mem_singleton] at hb
    subst hb
    exact ⟨ha,hn.le,le_rfl,le_rfl⟩
  | succ n ih =>
    rw [hn,subtreeNodes,List.mem_cons,List.mem_flatMap] at hb
    rcases hb with rfl | ⟨c,hc,hbc⟩
    · exact ⟨ha,hn.le,le_rfl,le_rfl⟩
    · obtain ⟨hclive,hclevel⟩ := T.kid_live a ha (by omega) c hc
      have hcn : T.level c = n := by omega
      obtain ⟨hblive,hblevel,hlo,hhi⟩ := ih hclive (by rwa [hcn]) hcn
      have hcin := (T.tiles a ha (by omega)).mem hc
      exact ⟨hblive,by omega,hcin.1.trans hlo,hhi.trans hcin.2.2⟩

/-- A node has descendants around each of its points, at every level below its own. -/
lemma exists_mem_subtreeNodes (ha : a ∈ T.live) {k : ℕ} (hk : k ≤ T.level a)
    (hx : T.lo a ≤ x ∧ x < T.hi a) :
    ∃ b ∈ subtreeNodes T.kids (T.level a) a,T.level b = k ∧ T.lo b ≤ x ∧ x < T.hi b := by
  induction hn : T.level a generalizing a with
  | zero => exact ⟨a,by simp [subtreeNodes],by omega,hx⟩
  | succ n ih =>
    by_cases hkn : k = n+1
    · exact ⟨a,by simp [subtreeNodes],by omega,hx⟩
    · obtain ⟨c,hc,hxc⟩ := (T.tiles a ha (by omega)).exists_mem hx.1 hx.2
      obtain ⟨hclive,hclevel⟩ := T.kid_live a ha (by omega) c hc
      obtain ⟨b,hb,hbk⟩ := ih hclive (by omega) hxc (by omega)
      exact ⟨b,by simp only [subtreeNodes,List.mem_cons,List.mem_flatMap]; exact .inr ⟨c,hc,hb⟩,hbk⟩

/-- The subtree of the root is the whole tree. -/
lemma mem_subtreeNodes_root :
    b ∈ subtreeNodes T.kids (T.level T.root) T.root ↔ b ∈ T.live := by
  constructor
  · exact fun hb => (T.mem_subtreeNodes T.root_live hb).1
  · intro hb
    obtain ⟨hlo,hlt,hhi⟩ := T.within hb
    obtain ⟨d,hd,hlevel,hxd⟩ := T.exists_mem_subtreeNodes T.root_live (T.level_le b hb)
      ⟨hlo,hlt.trans_le hhi⟩
    have hdb := T.eq_of_mem (T.mem_subtreeNodes T.root_live hd).1 hb hlevel hxd ⟨le_rfl,hlt⟩
    rwa [← hdb]

lemma nodup_subtreeNodes (ha : a ∈ T.live) : (subtreeNodes T.kids (T.level a) a).Nodup := by
  induction hn : T.level a generalizing a with
  | zero => simp [subtreeNodes]
  | succ n ih =>
    have hkid : ∀ c ∈ T.kids a,c ∈ T.live ∧ T.level c = n := by
      intro c hc
      obtain ⟨hclive,hclevel⟩ := T.kid_live a ha (by omega) c hc
      exact ⟨hclive,by omega⟩
    rw [subtreeNodes,List.nodup_cons,List.nodup_flatMap]
    refine ⟨?_,fun c hc => ih (hkid c hc).1 (hkid c hc).2,?_⟩
    · rw [List.mem_flatMap]
      rintro ⟨c,hc,hac⟩
      rw [← (hkid c hc).2] at hac
      have := (T.mem_subtreeNodes (hkid c hc).1 hac).2.1
      have := (hkid c hc).2
      omega
    · refine (T.tiles a ha (by omega)).pairwise.imp_of_mem ?_
      intro c d hc hd hcd b hbc hbd
      rw [← (hkid c hc).2] at hbc
      rw [← (hkid d hd).2] at hbd
      obtain ⟨hblive,-,-,hbhi⟩ := T.mem_subtreeNodes (hkid c hc).1 hbc
      obtain ⟨-,-,hblo,-⟩ := T.mem_subtreeNodes (hkid d hd).1 hbd
      exact ((T.within hblive).2.1.trans_le (hbhi.trans (hcd.trans hblo))).false

/-- The leaves of a subtree tile its root. -/
lemma tiles_subtreeLeaves (ha : a ∈ T.live) :
    Tiles T.lo T.hi (T.lo a) (T.hi a) (subtreeLeaves T.kids (T.level a) a) := by
  induction hn : T.level a generalizing a with
  | zero => exact ⟨rfl,(T.within ha).2.1,rfl⟩
  | succ n ih =>
    apply (T.tiles a ha (by omega)).flatMap
    intro c hc
    obtain ⟨hclive,hclevel⟩ := T.kid_live a ha (by omega) c hc
    exact ih hclive (by omega)

lemma mem_subtreeLeaves (ha : a ∈ T.live) (hb : b ∈ subtreeLeaves T.kids (T.level a) a) :
    b ∈ T.live ∧ T.level b = 0 := by
  induction hn : T.level a generalizing a with
  | zero =>
    rw [hn,subtreeLeaves,List.mem_singleton] at hb
    subst hb
    exact ⟨ha,hn⟩
  | succ n ih =>
    rw [hn,subtreeLeaves,List.mem_flatMap] at hb
    obtain ⟨c,hc,hbc⟩ := hb
    obtain ⟨hclive,hclevel⟩ := T.kid_live a ha (by omega) c hc
    have hcn : T.level c = n := by omega
    exact ih hclive (by rwa [hcn]) hcn

/-- The leaves of the subtree of the root are all leaves. -/
lemma mem_subtreeLeaves_root :
    b ∈ subtreeLeaves T.kids (T.level T.root) T.root ↔ b ∈ T.live ∧ T.level b = 0 := by
  constructor
  · exact fun hb => T.mem_subtreeLeaves T.root_live hb
  · rintro ⟨hb,hlevel⟩
    obtain ⟨hlo,hlt,hhi⟩ := T.within hb
    obtain ⟨d,hd,hxd⟩ := (T.tiles_subtreeLeaves T.root_live).exists_mem hlo (hlt.trans_le hhi)
    obtain ⟨hdlive,hdlevel⟩ := T.mem_subtreeLeaves T.root_live hd
    have hdb := T.eq_of_mem hdlive hb (by omega) hxd ⟨le_rfl,hlt⟩
    rwa [← hdb]

/-- Links from each leaf to a leaf that starts where it ends chain the leaves in order. -/
lemma chained_subtreeLeaves {links : ι → Option ι → Prop}
    (hlinks : ∀ a ∈ T.live,T.level a = 0 → (links a none ∧ T.hi a = T.hi T.root) ∨
      ∃ b ∈ T.live,T.level b = 0 ∧ T.lo b = T.hi a ∧ links a (some b)) :
    Chained links (subtreeLeaves T.kids (T.level T.root) T.root) := by
  have hleaf : ∀ a ∈ subtreeLeaves T.kids (T.level T.root) T.root,a ∈ T.live ∧ T.level a = 0 :=
    fun a ha => T.mem_subtreeLeaves T.root_live ha
  have htiles := T.tiles_subtreeLeaves T.root_live
  revert hleaf htiles
  generalize T.lo T.root = l
  generalize subtreeLeaves T.kids (T.level T.root) T.root = cs
  induction cs generalizing l with
  | nil => exact fun _ _ => trivial
  | cons a cs ih =>
    intro hleaf htiles
    simp only [List.forall_mem_cons] at hleaf
    obtain ⟨-,-,htiles⟩ := htiles
    refine ⟨?_,ih _ hleaf.2 htiles⟩
    rcases hlinks a hleaf.1.1 hleaf.1.2 with ⟨hlink,hend⟩ | ⟨b,hblive,hblevel,hblo,hlink⟩
    · cases cs with
      | nil => exact hlink
      | cons c cs =>
        have hc := htiles.mem (c := c) (by simp)
        exact absurd (hc.1.trans_lt (hc.2.1.trans_le hc.2.2)) (by simp [hend])
    · obtain ⟨-,hblt,hbhi⟩ := T.within hblive
      cases cs with
      | nil =>
        have : T.hi a = T.hi T.root := htiles
        exact absurd (hblt.trans_le hbhi) (by simp [hblo,this])
      | cons c cs =>
        have hc := htiles.mem (c := c) (by simp)
        have hclo : T.lo c = T.hi a := htiles.1
        simp only [List.forall_mem_cons] at hleaf
        have hbc : b = c := T.eq_of_mem hblive hleaf.2.1.1 (hblevel.trans hleaf.2.1.2.symm)
          ⟨le_rfl,hblt⟩ ⟨by rw [hclo,hblo],by rw [hblo,← hclo]; exact hc.2.1⟩
        rwa [List.head?_cons,← hbc]

end TiledTree

end ElasticTranslations.Structures
