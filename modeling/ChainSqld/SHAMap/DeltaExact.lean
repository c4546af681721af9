import ChainSqld.SHAMap.Delta
import ChainSqld.SHAMap.Commitment
import ChainSqld.SHAMap.Refinement

/-!
# `compare` lists exactly the differences

What `compare` records at a pair of subtrees (`cmpEntries`) is exactly their difference (`Exact`):
one entry for each key at which they hold different items, with the two items, and no other. By
induction on the subtrees (`exact_cmpEntries`):

* a walk of a branch against nothing or one item is exact (`exact_walkEntries_none`,
  `exact_walkEntries_some`), the items below a branch having distinct keys;
* the branches of two inner nodes at one depth hold the keys of one nibble each, so the differences
  of the nodes are those of their branches (`Exact.flatMap`); a branch of one hash on both sides
  has none, its leaves being the same unless `sha512Half` collides
  (`SHAMapAbstractNode.leaves_iff_of_getNodeHash_eq`).

With `compare_run`, this gives `compare_exact`: on two version-1 maps, `compare` returns the first
differences, as many as `maxCount` lets it record, of a list that is exactly the difference of
the two maps' contents, and `true` when they all fit.
-/

namespace Ripple

namespace SHAMapAbstractNode

/-- The item a tree holds under a key. -/
def itemAt (t : SHAMapAbstractNode) (k : UInt256) : Option SHAMapItem :=
  (t.leaves.find? fun x => x.1.tag == k).map Prod.fst

/-- Two trees at a key: the two items, where they differ. -/
def diffAt (a b : SHAMapAbstractNode) (k : UInt256) : Option DeltaItem :=
  if a.itemAt k = b.itemAt k then none else some (a.itemAt k, b.itemAt k)

@[simp] theorem itemAt_empty (k : UInt256) : empty.itemAt k = none := rfl

theorem itemAt_leaf (it : SHAMapItem) (ty : TNType) (k : UInt256) :
    (leaf it ty).itemAt k = if it.tag = k then some it else none := by
  by_cases h : it.tag = k <;> simp [itemAt, h]

theorem itemAt_eq_some_iff_leaves {t : SHAMapAbstractNode} (hnd : t.keys.Nodup) {k : UInt256} {it : SHAMapItem} :
    t.itemAt k = some it ↔ (∃ ty, (it, ty) ∈ t.leaves) ∧ it.tag = k := by
  rw [itemAt, Option.map_eq_some_iff]
  constructor
  · rintro ⟨x, hx, rfl⟩
    obtain ⟨hmem, htag⟩ := (SHAMap.find?_tag_eq_some_iff hnd).mp hx
    exact ⟨⟨x.2, hmem⟩, htag⟩
  · rintro ⟨⟨ty, hmem⟩, htag⟩
    exact ⟨(it, ty), (SHAMap.find?_tag_eq_some_iff hnd).mpr ⟨hmem, htag⟩, rfl⟩

/-- The item of a key is the item of that key the walk meets. -/
theorem itemAt_eq_some_iff {t : SHAMapAbstractNode} (hnd : t.keys.Nodup) {k : UInt256} {it : SHAMapItem} :
    t.itemAt k = some it ↔ it ∈ SHAMap.walkOrder t ∧ it.tag = k := by
  rw [itemAt_eq_some_iff_leaves hnd, (SHAMap.walkOrder_perm t).mem_iff, List.mem_map]
  constructor
  · rintro ⟨⟨ty, hmem⟩, htag⟩
    exact ⟨⟨(it, ty), hmem, rfl⟩, htag⟩
  · rintro ⟨⟨x, hmem, rfl⟩, htag⟩
    exact ⟨⟨x.2, hmem⟩, htag⟩

theorem itemAt_eq_none_of_not_mem {t : SHAMapAbstractNode} {k : UInt256} (hk : k ∉ t.keys) : t.itemAt k = none := by
  rw [itemAt, Option.map_eq_none_iff, List.find?_eq_none]
  intro x hx hxk
  exact hk (mem_keys.mpr ⟨x, hx, by simpa using hxk⟩)

/-- Trees of the same leaves hold the same items. -/
theorem itemAt_eq_of_leaves_iff {a b : SHAMapAbstractNode} (hna : a.keys.Nodup) (hnb : b.keys.Nodup)
    (h : ∀ x, x ∈ a.leaves ↔ x ∈ b.leaves) (k : UInt256) : a.itemAt k = b.itemAt k := by
  refine Option.ext fun it => ?_
  rw [itemAt_eq_some_iff_leaves hna, itemAt_eq_some_iff_leaves hnb]
  simp only [h]

theorem diffAt_swap (a b : SHAMapAbstractNode) (k : UInt256) : b.diffAt a k = (a.diffAt b k).map Prod.swap := by
  by_cases h : a.itemAt k = b.itemAt k
  · simp [diffAt, h]
  · simp [diffAt, h, Ne.symm h]

/-- Two trees differ only at keys one of them holds. -/
theorem mem_keys_of_diffAt {a b : SHAMapAbstractNode} {k : UInt256} {v : DeltaItem} (h : a.diffAt b k = some v) :
    k ∈ a.keys ∨ k ∈ b.keys := by
  by_contra hk
  rw [not_or] at hk
  simp [diffAt, itemAt_eq_none_of_not_mem hk.1, itemAt_eq_none_of_not_mem hk.2] at h

end SHAMapAbstractNode

namespace SHAMap

open SHAMapAbstractNode

/-! ## Exact lists of differences -/

/-- A list of differences that is exactly the difference of two trees: one entry for each key at
which they hold different items, holding the two items. -/
structure Exact (L : List (UInt256 × DeltaItem)) (a b : SHAMapAbstractNode) : Prop where
  nodup : (L.map Prod.fst).Nodup
  mem_iff : ∀ k v, (k, v) ∈ L ↔ a.diffAt b k = some v

namespace Exact

variable {L L' : List (UInt256 × DeltaItem)} {a b : SHAMapAbstractNode}

theorem perm (hL : Exact L a b) (h : L.Perm L') : Exact L' a b where
  nodup := (h.map Prod.fst).nodup_iff.mp hL.nodup
  mem_iff k v := by rw [← h.mem_iff, hL.mem_iff]

theorem swap (hL : Exact L a b) : Exact (L.map fun e => (e.1, e.2.swap)) b a where
  nodup := by simpa [List.map_map, Function.comp_def] using hL.nodup
  mem_iff k v := by
    rw [diffAt_swap, Option.map_eq_some_iff, List.mem_map]
    constructor
    · rintro ⟨⟨k', w⟩, he, hev⟩
      simp only [Prod.mk.injEq] at hev
      obtain ⟨rfl, rfl⟩ := hev
      exact ⟨w, (hL.mem_iff k' w).mp he, rfl⟩
    · rintro ⟨w, hw, rfl⟩
      exact ⟨(k, w), (hL.mem_iff k w).mpr hw, rfl⟩

theorem nil (h : ∀ k, a.itemAt k = b.itemAt k) : Exact [] a b where
  nodup := List.nodup_nil
  mem_iff k v := by simp [diffAt, h k]

/-- An entry of an exact list has the key of an item of one of the trees. -/
theorem mem_keys (hL : Exact L a b) {k : UInt256} (hk : k ∈ L.map Prod.fst) : k ∈ a.keys ∨ k ∈ b.keys := by
  obtain ⟨e, he, rfl⟩ := List.mem_map.mp hk
  exact mem_keys_of_diffAt ((hL.mem_iff e.1 e.2).mp he)

end Exact

/-! ## Walks are exact -/

theorem walkEntries_false (o : Option SHAMapItem) (its : List SHAMapItem) :
    walkEntries o false its = (walkEntries o true its).map fun e => (e.1, e.2.swap) := by
  cases o with
  | none => simp [walkEntries, unmatched, deltaRef, Function.comp_def]
  | some other =>
    simp only [walkEntries, List.map_append, List.map_flatMap]
    congr 1
    · refine List.flatMap_congr fun it _ => ?_
      unfold walkEntry
      split_ifs <;> simp [unmatched, deltaRef]
    · split_ifs <;> simp [deltaRef]

theorem mem_walkEntry {other it : SHAMapItem} {f : Bool} {k : UInt256} {v : DeltaItem} :
    (k, v) ∈ walkEntry other f it ↔ it.tag = k ∧
      ((it.tag ≠ other.tag ∧ v = deltaRef f (some it) none) ∨
        (it.tag = other.tag ∧ it.data ≠ other.data ∧ v = deltaRef f (some it) (some other))) := by
  unfold walkEntry
  split_ifs with h1 h2
  · simp [unmatched, h1, eq_comm]
  · rw [not_not] at h1
    simp [h1, h2, eq_comm]
  · simp only [List.not_mem_nil, false_iff]
    simp_all

theorem keys_flatMap_walkEntry_sublist (other : SHAMapItem) (f : Bool) :
    ∀ its : List SHAMapItem, ((its.flatMap (walkEntry other f)).map Prod.fst).Sublist (its.map SHAMapItem.tag)
  | [] => List.Sublist.slnil
  | it :: its => by
    have hit : ((walkEntry other f it).map Prod.fst).Sublist [it.tag] := by
      unfold walkEntry
      split_ifs <;> simp [unmatched]
    rw [List.flatMap_cons, List.map_append, List.map_cons, ← List.singleton_append]
    exact hit.append (keys_flatMap_walkEntry_sublist other f its)

/-- The differences a walk records have distinct keys. -/
theorem nodup_walkEntries {its : List SHAMapItem} (hnd : (its.map SHAMapItem.tag).Nodup) (o : Option SHAMapItem)
    (f : Bool) : ((walkEntries o f its).map Prod.fst).Nodup := by
  cases o with
  | none => simpa [walkEntries, unmatched, Function.comp_def] using hnd
  | some other =>
    have hsub := keys_flatMap_walkEntry_sublist other f its
    simp only [walkEntries, List.map_append]
    refine List.nodup_append.mpr ⟨hsub.nodup hnd, ?_, ?_⟩
    · split_ifs <;> simp
    · -- the other item is recorded only if no item the walk met has its key
      intro k hk k' hk'
      split_ifs at hk' with hmem
      · cases hk'
      · rw [List.mem_singleton.mp hk']
        rintro rfl
        exact hmem (hsub.subset hk)

/-- A walk against nothing records every item below the branch. -/
theorem exact_walkEntries_none {t : SHAMapAbstractNode} (hnd : t.keys.Nodup) :
    Exact (walkEntries none true (walkOrder t)) t .empty where
  nodup := nodup_walkEntries (nodup_walkOrder hnd) none true
  mem_iff k v := by
    simp only [walkEntries, unmatched, deltaRef, if_true, List.mem_map, Prod.mk.injEq, diffAt, itemAt_empty]
    constructor
    · rintro ⟨it, hit, rfl, rfl⟩
      simp [(itemAt_eq_some_iff hnd).mpr ⟨hit, rfl⟩]
    · intro h
      cases hk : t.itemAt k with
      | none => simp [hk] at h
      | some it =>
        obtain ⟨hit, rfl⟩ := (itemAt_eq_some_iff hnd).mp hk
        simp only [hk, reduceCtorEq, ↓reduceIte, Option.some.injEq] at h
        exact ⟨it, hit, rfl, h⟩

theorem itemAt_eq_none_iff {t : SHAMapAbstractNode} {k : UInt256} :
    t.itemAt k = none ↔ k ∉ (walkOrder t).map SHAMapItem.tag := by
  have hkeys : ((walkOrder t).map SHAMapItem.tag).Perm t.keys := by
    simpa [keys, List.map_map, Function.comp_def] using (walkOrder_perm t).map SHAMapItem.tag
  rw [hkeys.mem_iff, itemAt, Option.map_eq_none_iff, List.find?_eq_none, mem_keys]
  simp

/-- An entry of a walk's items has the key of the item it is about. -/
theorem mem_flatMap_walkEntry_iff {t : SHAMapAbstractNode} (hnd : t.keys.Nodup) {other : SHAMapItem} {f : Bool}
    {k : UInt256} {v : DeltaItem} :
    (k, v) ∈ (walkOrder t).flatMap (walkEntry other f) ↔ ∃ it, t.itemAt k = some it ∧ (k, v) ∈ walkEntry other f it := by
  rw [List.mem_flatMap]
  constructor
  · rintro ⟨it, hit, he⟩
    exact ⟨it, (itemAt_eq_some_iff hnd).mpr ⟨hit, (mem_walkEntry.mp he).1⟩, he⟩
  · rintro ⟨it, hk, he⟩
    exact ⟨it, ((itemAt_eq_some_iff hnd).mp hk).1, he⟩

/-- A walk against one item records each item below the branch but that one, that one if its data
differ, and the other item if no item has its key. -/
theorem exact_walkEntries_some {t : SHAMapAbstractNode} (hnd : t.keys.Nodup) (other : SHAMapItem) (ty : TNType) :
    Exact (walkEntries (some other) true (walkOrder t)) t (.leaf other ty) where
  nodup := nodup_walkEntries (nodup_walkOrder hnd) (some other) true
  mem_iff k v := by
    have hend : (k, v) ∈ (if other.tag ∈ (walkOrder t).map SHAMapItem.tag then []
        else [(other.tag, deltaRef true none (some other))]) ↔
        t.itemAt other.tag = none ∧ k = other.tag ∧ v = (none, some other) := by
      rw [itemAt_eq_none_iff]
      split_ifs with h <;> simp [h, deltaRef]
    rw [walkEntries, List.mem_append, mem_flatMap_walkEntry_iff hnd, hend, diffAt, itemAt_leaf]
    cases hF : t.itemAt k with
    | none =>
      -- no item of the key below the branch: only the other item can differ
      by_cases hk : other.tag = k
      · subst hk
        simp [hF, eq_comm]
      · simp [hk, Ne.symm hk]
    | some it =>
      obtain ⟨-, rfl⟩ := (itemAt_eq_some_iff hnd).mp hF
      by_cases hk : other.tag = it.tag
      · -- the other item's key: a difference if the data differ
        have hitem : other = it ↔ other.data = it.data := by
          obtain ⟨tag, data⟩ := it
          obtain ⟨tag', data'⟩ := other
          simp only at hk
          simp [hk]
        simp [mem_walkEntry, hk, hitem, hF, deltaRef, eq_comm]
      · simp [mem_walkEntry, hk, Ne.symm hk, deltaRef, eq_comm]

theorem exact_walkEntries_some_false {t : SHAMapAbstractNode} (hnd : t.keys.Nodup) (other : SHAMapItem) (ty : TNType) :
    Exact (walkEntries (some other) false (walkOrder t)) (.leaf other ty) t := by
  rw [walkEntries_false]
  exact (exact_walkEntries_some hnd other ty).swap

/-- Two leaves differ at one key if they share it, at both keys otherwise. -/
theorem exact_leafPairEntries (x y : SHAMapItem) (tx ty : TNType) :
    Exact (leafPairEntries x y) (.leaf x tx) (.leaf y ty) where
  nodup := by
    unfold leafPairEntries
    split_ifs with h <;> simp [h]
  mem_iff k v := by
    have hxy : x = y ↔ x.tag = y.tag ∧ x.data = y.data := by
      obtain ⟨tag, data⟩ := x
      obtain ⟨tag', data'⟩ := y
      simp
    unfold leafPairEntries
    simp only [diffAt, itemAt_leaf]
    by_cases hk : x.tag = k <;> by_cases hk' : y.tag = k <;> split_ifs <;> simp_all [eq_comm]

/-! ## Inner nodes -/

theorem mem_leaves_iff_of_isInner {t : SHAMapAbstractNode} (ht : t.isInner = true) (x : SHAMapItem × TNType) :
    x ∈ t.leaves ↔ ∃ i, x ∈ (t.getChild i).leaves := by
  cases t with
  | inner ch => exact mem_leaves_inner
  | innerV2 d c ch => exact mem_leaves_innerV2
  | empty | leaf => cases ht

theorem keys_nodup_of_routed {t : SHAMapAbstractNode} {d : Nat} (ht : t.isInner = true) (hr : Routed d t.getChild)
    (hch : ∀ i, (t.getChild i).keys.Nodup) : t.keys.Nodup := by
  have hleaves : t.leaves = (List.finRange 16).flatMap fun i => (t.getChild i).leaves := by
    cases t with
    | inner ch => rfl
    | innerV2 d c ch => rfl
    | empty | leaf => cases ht
  rw [keys, hleaves]
  exact hr.nodup hch

/-- Below an inner node whose branches route by nibble `d`, a key's item is in its nibble's branch. -/
theorem itemAt_of_routed {t : SHAMapAbstractNode} {d : Nat} (ht : t.isInner = true) (hn : t.keys.Nodup)
    (hr : Routed d t.getChild) (k : UInt256) : t.itemAt k = (t.getChild (k.nibble d)).itemAt k := by
  refine Option.ext fun it => ?_
  rw [itemAt_eq_some_iff_leaves hn, itemAt_eq_some_iff_leaves (Nodup.getChild hn _)]
  constructor
  · rintro ⟨⟨ty, hm⟩, rfl⟩
    obtain ⟨i, hi⟩ := (mem_leaves_iff_of_isInner ht _).mp hm
    rw [hr i _ hi]
    exact ⟨⟨ty, hi⟩, rfl⟩
  · rintro ⟨⟨ty, hm⟩, htag⟩
    exact ⟨⟨ty, mem_leaves_of_getChild hm⟩, htag⟩

section Inner

variable {a b : SHAMapAbstractNode} {d : Nat}

/-- **The differences of two inner nodes are those of their branches**, when the branches of both
route by one nibble: each key lies below the branch of its nibble on both sides. -/
theorem Exact.flatMap (ha : a.isInner = true) (hb : b.isInner = true) (hna : a.keys.Nodup) (hnb : b.keys.Nodup)
    (hra : Routed d a.getChild) (hrb : Routed d b.getChild) {E : Fin 16 → List (UInt256 × DeltaItem)}
    (hE : ∀ i, Exact (E i) (a.getChild i) (b.getChild i)) : Exact ((List.finRange 16).flatMap E) a b := by
  -- the keys of branch `i` have nibble `i`
  have hkey : ∀ i k, k ∈ (E i).map Prod.fst → k.nibble d = i := by
    intro i k hk
    rcases (hE i).mem_keys hk with hk | hk <;> obtain ⟨x, hx, rfl⟩ := SHAMapAbstractNode.mem_keys.mp hk
    · exact hra i x hx
    · exact hrb i x hx
  have hdiff : ∀ k, a.diffAt b k = (a.getChild (k.nibble d)).diffAt (b.getChild (k.nibble d)) k := by
    intro k
    simp only [diffAt, itemAt_of_routed ha hna hra k, itemAt_of_routed hb hnb hrb k]
  constructor
  · rw [List.map_flatMap]
    refine List.nodup_flatMap.mpr ⟨fun i _ => (hE i).nodup, (List.nodup_finRange 16).imp ?_⟩
    intro i j hij k hki hkj
    exact hij ((hkey i k hki).symm.trans (hkey j k hkj))
  · intro k v
    rw [List.mem_flatMap, hdiff]
    constructor
    · rintro ⟨i, -, he⟩
      rw [hkey i k (List.mem_map.mpr ⟨(k, v), he, rfl⟩)]
      exact ((hE i).mem_iff k v).mp he
    · intro h
      exact ⟨k.nibble d, List.mem_finRange _, ((hE _).mem_iff k v).mpr h⟩

variable (sha512Half : Blob → UInt256)

/-- What `compare` records at branch `i` of two inner nodes, walked there or pushed, is exact. -/
theorem exact_branch (hnz : ∀ b, sha512Half b ≠ BaseUInt.zero 32) (i : Fin 16)
    (hna : (a.getChild i).keys.Nodup) (hnb : (b.getChild i).keys.Nodup)
    (hla : (a.getChild i).LeavesReadable sha512Half) (hlb : (b.getChild i).LeavesReadable sha512Half)
    (hc : ¬ Collides sha512Half (a.getChild i) (b.getChild i)) {sub : List (UInt256 × DeltaItem)}
    (hsub : branchPushed sha512Half a b i = true → Exact sub (a.getChild i) (b.getChild i)) :
    Exact (branchWalk sha512Half a b i ++ if branchPushed sha512Half a b i then sub else []) (a.getChild i) (b.getChild i) := by
  by_cases hh : (a.getChild i).getNodeHash sha512Half = (b.getChild i).getNodeHash sha512Half
  · -- branches of one hash hold the same leaves
    have hw : branchWalk sha512Half a b i = [] := by simp [branchWalk, hh]
    have hp : branchPushed sha512Half a b i = false := by simp [branchPushed, hh]
    rw [hw, hp]
    exact Exact.nil (itemAt_eq_of_leaves_iff hna hnb (leaves_iff_of_getNodeHash_eq hnz hla hlb hh hc))
  · by_cases ho : b.isEmptyBranch i = true
    · -- only our side has the branch
      have hw : branchWalk sha512Half a b i = walkEntries none true (walkOrder (a.getChild i)) := by
        simp [branchWalk, hh, ho]
      have hp : branchPushed sha512Half a b i = false := by simp [branchPushed, ho]
      simp only [hw, hp, Bool.false_eq_true, ↓reduceIte, List.append_nil]
      rw [isEmptyBranch, SHAMapAbstractNode.isEmpty_iff] at ho
      rw [ho]
      exact exact_walkEntries_none hna
    · by_cases hu : a.isEmptyBranch i = true
      · -- only the other side has the branch
        have hw : branchWalk sha512Half a b i = walkEntries none false (walkOrder (b.getChild i)) := by
          simp [branchWalk, hh, ho, hu]
        have hp : branchPushed sha512Half a b i = false := by simp [branchPushed, hu]
        simp only [hw, hp, Bool.false_eq_true, ↓reduceIte, List.append_nil, walkEntries_false]
        rw [isEmptyBranch, SHAMapAbstractNode.isEmpty_iff] at hu
        rw [hu]
        exact (exact_walkEntries_none hnb).swap
      · -- both sides have the branch: the pair is pushed
        have hw : branchWalk sha512Half a b i = [] := by simp [branchWalk, hh, ho, hu]
        have hp : branchPushed sha512Half a b i = true := by simp_all [branchPushed]
        rw [hw, hp, List.nil_append, if_pos rfl]
        exact hsub hp

theorem flatMap_filter_eq_ite {α β : Type} (l : List α) (p : α → Bool) (g : α → List β) :
    (l.filter p).flatMap g = l.flatMap fun x => if p x then g x else [] := by
  induction l with
  | nil => rfl
  | cons x l ih => cases hp : p x <;> simp [hp, ih]

/-- What `compare` records at two inner nodes is what it records at each branch, in another order. -/
theorem innerEntries_perm (hb : b.isInner = true) (sub : Fin 16 → List (UInt256 × DeltaItem)) :
    (innerEntries sha512Half a b sub).Perm ((List.finRange 16).flatMap fun i =>
      branchWalk sha512Half a b i ++ if branchPushed sha512Half a b i then sub i else []) := by
  have hinner : innerEntries sha512Half a b sub = (List.finRange 16).flatMap (branchWalk sha512Half a b) ++
      ((List.finRange 16).filter (branchPushed sha512Half a b)).reverse.flatMap sub := by
    cases b with
    | inner ch => rfl
    | innerV2 d c ch => rfl
    | empty | leaf => cases hb
  rw [hinner]
  refine List.Perm.trans ?_ (List.flatMap_append_perm _ _ _)
  refine List.Perm.append_left _ ?_
  rw [← flatMap_filter_eq_ite]
  exact (List.reverse_perm _).flatMap_right _

/-- **Two inner nodes.** What `compare` records at two inner nodes at one depth, whose branches are
canonical and route by that depth's nibble, is exact, given that it is at each pair of branches it
pushes. -/
theorem exact_innerEntries (hnz : ∀ b, sha512Half b ≠ BaseUInt.zero 32) (ha : a.isInner = true)
    (hb : b.isInner = true) (hwa : ∀ i, WF1 (d + 1) (a.getChild i)) (hra : Routed d a.getChild)
    (hwb : ∀ i, WF1 (d + 1) (b.getChild i)) (hrb : Routed d b.getChild)
    (hla : a.LeavesReadable sha512Half) (hlb : b.LeavesReadable sha512Half) (hc : ¬ Collides sha512Half a b)
    {sub : Fin 16 → List (UInt256 × DeltaItem)}
    (hsub : ∀ i, branchPushed sha512Half a b i = true → Exact (sub i) (a.getChild i) (b.getChild i)) :
    Exact (innerEntries sha512Half a b sub) a b := by
  refine Exact.perm ?_ (innerEntries_perm sha512Half hb sub).symm
  refine Exact.flatMap ha hb (keys_nodup_of_routed ha hra fun i => (hwa i).nodup)
    (keys_nodup_of_routed hb hrb fun i => (hwb i).nodup) hra hrb fun i => ?_
  exact exact_branch sha512Half hnz i (hwa i).nodup (hwb i).nodup (hla.getChild sha512Half i)
    (hlb.getChild sha512Half i) (fun h => hc h.of_getChild) (hsub i)

end Inner

/-- **What `compare` records at two canonical subtrees at one depth is exactly their difference**,
unless the hashes collide. By induction on our subtree, with a case for each kind of node on the
other side. -/
theorem exact_cmpEntries (sha512Half : Blob → UInt256) (hnz : ∀ b, sha512Half b ≠ BaseUInt.zero 32) :
    ∀ {d : Nat} {a : SHAMapAbstractNode}, WF1 d a → a ≠ .empty → ∀ {b : SHAMapAbstractNode}, WF1 d b → b ≠ .empty →
      a.LeavesReadable sha512Half → b.LeavesReadable sha512Half → ¬ Collides sha512Half a b →
        Exact (cmpEntries sha512Half a b) a b := by
  intro d a ha
  induction ha with
  | empty => intro hne; exact absurd rfl hne
  | @leaf d x tx _ =>
    intro _ b hb hbne _ _ _
    cases hb with
    | empty => exact absurd rfl hbne
    | leaf _ => exact exact_leafPairEntries _ _ tx _
    | inner hchb hrb h2 => exact exact_walkEntries_some_false (WF1.inner hchb hrb h2).nodup x tx
  | @inner d ch hch hr h2 ih =>
    intro _ b hb hbne hla hlb hc
    cases hb with
    | empty => exact absurd rfl hbne
    | @leaf _ y ty _ => exact exact_walkEntries_some (WF1.inner hch hr h2).nodup y ty
    | @inner _ chb hchb hrb h2' =>
      refine exact_innerEntries sha512Half hnz rfl rfl hch hr hchb hrb hla hlb hc fun i hi => ?_
      -- a pushed pair has a node on both sides
      simp only [branchPushed, Bool.and_eq_true, Bool.not_eq_true', isEmptyBranch, isEmpty_eq_false_iff] at hi
      exact ih i hi.2 (hchb i) hi.1.2 (hla.getChild sha512Half i) (hlb.getChild sha512Half i)
        fun h => hc h.of_getChild

/-! ## Recording and the whole comparison -/

/-- **Recording fresh differences.** Recording differences of distinct keys that the table does not
hold appends them until `maxCount` runs out: the first `min |L| (max maxCount 1)` of them, with
`true` when they all fit. -/
theorem recordAll_eq : ∀ (L : List (UInt256 × DeltaItem)) (D : Delta) (c : Int), (L.map Prod.fst).Nodup →
    (∀ k ∈ L.map Prod.fst, k ∉ D.map Prod.fst) →
      recordAll L ⟨D, c⟩ = (decide ((L.length : Int) < c ∨ L = []),
        ⟨D ++ L.take (min L.length (max c 1).toNat), c - (min L.length (max c 1).toNat : Nat)⟩)
  | [], D, c, _, _ => by simp [recordAll]
  | e :: L, D, c, hnd, hfresh => by
    rw [List.map_cons, List.nodup_cons] at hnd
    have he : e.1 ∉ D.map Prod.fst := hfresh e.1 List.mem_cons_self
    simp only [recordAll, record, Delta.insert_of_not_mem he]
    by_cases hc : 0 < c - 1
    · -- room for more: the rest is recorded after `e`
      have hfresh' : ∀ k ∈ L.map Prod.fst, k ∉ (D ++ [e]).map Prod.fst := by
        intro k hk hkD
        rw [List.map_append, List.mem_append, List.map_singleton, List.mem_singleton] at hkD
        rcases hkD with hkD | rfl
        · exact hfresh k (List.mem_cons_of_mem _ hk) hkD
        · exact hnd.1 hk
      have hj : min (L.length + 1) (max c 1).toNat = min L.length (max (c - 1) 1).toNat + 1 := by omega
      rw [decide_eq_true hc, if_pos rfl, recordAll_eq L (D ++ [e]) (c - 1) hnd.2 hfresh', List.length_cons, hj,
        List.take_succ_cons, List.append_assoc, List.singleton_append]
      congr 1
      · -- `L` fits in the room `e` leaves exactly when `e :: L` fits in the room before it
        simp only [decide_eq_decide, List.cons_ne_nil, or_false]
        push_cast
        constructor
        · rintro (h | rfl)
          · omega
          · simp only [List.length_nil, Nat.cast_zero]
            omega
        · intro h
          left
          omega
      · congr 1
        push_cast
        omega
    · -- `e` was the last one there was room for
      have hj : min (L.length + 1) (max c 1).toNat = 1 := by omega
      rw [decide_eq_false hc]
      simp only [Bool.false_eq_true, ↓reduceIte, List.length_cons, hj, List.take_succ_cons, List.take_zero]
      congr 1
      simp only [List.cons_ne_nil, or_false]
      exact (decide_eq_false (by push_cast; omega)).symm

variable (sha512Half : Blob → UInt256)

theorem Invariants.v1 {m : SHAMap} (h : m.Invariants) (hv : m.isV2 = false) :
    ∃ ch, m.root = .inner ch ∧ WF1Inner 0 ch := by
  rcases h with h | ⟨ch, hroot, -⟩
  · exact h
  · simp [isV2, hroot] at hv

/-- The difference of two maps' roots at a key is the difference of their contents. -/
theorem diffAt_root (m m' : SHAMap) (k : UInt256) :
    m.root.diffAt m'.root k = if m.contents k = m'.contents k then none else some (m.contents k, m'.contents k) := rfl

/-- **`compare` on two version-1 maps.** Unless the hashes of the two maps collide, `compare`
returns the first differences, as many as `maxCount` lets it record, of a list that is exactly the
difference of the two maps' contents (`diffAt_root`), and `true` when they all fit: with no limit
reached, every difference and no other. By `compare_run` and `exact_cmpEntries`. -/
theorem compare_exact (hnz : ∀ b, sha512Half b ≠ BaseUInt.zero 32) {m m' : SHAMap}
    (hm : m.Invariants) (hm' : m'.Invariants) (hv : m.isV2 = false) (hv' : m'.isV2 = false)
    (hr : m.root.LeavesReadable sha512Half) (hr' : m'.root.LeavesReadable sha512Half)
    (hc : ¬ Collides sha512Half m.root m'.root) (maxCount : Int) :
    ∃ L, Exact L m.root m'.root ∧
      m.compare sha512Half m' [] maxCount =
        .ok (decide ((L.length : Int) < maxCount ∨ L = []), L.take (min L.length (max maxCount 1).toNat)) := by
  obtain ⟨ch, hroot, hw⟩ := hm.v1 hv
  obtain ⟨ch', hroot', hw'⟩ := hm'.v1 hv'
  by_cases hh : m.getHash sha512Half = m'.getHash sha512Half
  · -- maps of one hash hold the same items
    refine ⟨[], Exact.nil (itemAt_eq_of_leaves_iff hm.nodup hm'.nodup
      (leaves_iff_of_getNodeHash_eq hnz hr hr' hh hc)), ?_⟩
    simp [compare, hh]
  · -- the loop records what `cmpEntries` lists, and that is exact
    have hex : Exact (cmpEntries sha512Half m.root m'.root) m.root m'.root := by
      rw [hroot] at hr
      rw [hroot'] at hr'
      rw [hroot, hroot'] at hc ⊢
      refine exact_innerEntries sha512Half hnz rfl rfl hw.1 hw.2 hw'.1 hw'.2 hr hr' hc fun i hi => ?_
      simp only [branchPushed, Bool.and_eq_true, Bool.not_eq_true', isEmptyBranch, isEmpty_eq_false_iff] at hi
      exact exact_cmpEntries sha512Half hnz (hw.1 i) hi.2 (hw'.1 i) hi.1.2 (hr.getChild sha512Half i)
        (hr'.getChild sha512Half i) fun h => hc h.of_getChild
    refine ⟨_, hex, ?_⟩
    rw [compare, if_neg hh, compare_run sha512Half _ _ (by rw [hroot]; simp) (by rw [hroot']; simp) hm.nodup
      hm'.nodup, recordAll_eq _ [] maxCount hex.nodup (by simp)]
    rfl

/-- A hash for the examples: a one, then the first 31 bytes of the string. It is never zero, and
takes strings that differ in their first 31 bytes to different values. -/
def firstBytesHash (b : Blob) : UInt256 := ⟨1 :: (b ++ List.replicate 31 0).take 31, by simp⟩

theorem firstBytesHash_ne_zero (b : Blob) : firstBytesHash b ≠ BaseUInt.zero 32 := by
  simp [firstBytesHash, BaseUInt.zero, List.replicate_succ]

theorem sixteen_neZero : NeZero 16 := ⟨by decide⟩

/-- Branch `k` of an inner node, for the examples. -/
def slot (k : Nat) : Fin 16 := @Fin.ofNat 16 sixteen_neZero k

/-- An item keyed zero. -/
def zeroKeyItem : SHAMapItem := ⟨BaseUInt.zero 32, [7]⟩

/-- A version-1 map holding `zeroKeyItem`, below branch 0 of its root. -/
def zeroKeyMap : SHAMap :=
  ⟨.inner (Function.update noChildren (slot 0) (.leaf zeroKeyItem .tnACCOUNT_STATE))⟩

theorem zeroKeyMap_invariants : zeroKeyMap.Invariants := by
  refine Or.inl ⟨_, rfl, fun b => ?_, by unfold Routed; decide⟩
  by_cases hb : b = slot 0
  · subst hb
    exact WF1.leaf rfl
  · rw [Function.update_of_ne hb]
    exact WF1.empty

theorem zeroKeyMap_leavesReadable : zeroKeyMap.root.LeavesReadable firstBytesHash := by
  have hl : zeroKeyMap.root.leaves = [(zeroKeyItem, .tnACCOUNT_STATE)] := by decide
  intro x hx
  rw [hl, List.mem_singleton] at hx
  subst hx
  exact ⟨rfl, fun h => nomatch h⟩

theorem compare_exact_zeroKeyMap :
    ∃ L, Exact L (SHAMap.empty false).root zeroKeyMap.root ∧
      (SHAMap.empty false).compare firstBytesHash zeroKeyMap [] 10 =
        .ok (decide ((L.length : Int) < 10 ∨ L = []), L.take (min L.length (max (10 : Int) 1).toNat)) :=
  compare_exact firstBytesHash firstBytesHash_ne_zero (invariants_empty false) zeroKeyMap_invariants rfl rfl
    (fun x hx => by simp [SHAMap.empty, leaves, noChildren] at hx) zeroKeyMap_leavesReadable
    (by unfold Collides; decide) 10

example : (SHAMap.empty false).compare firstBytesHash zeroKeyMap [] 10 =
    .ok (true, [(zeroKeyItem.tag, (none, some zeroKeyItem))]) := by decide

/-! ## Version 2

On version-2 maps `compare` is not exact. It pairs the branches of two inner nodes by slot, but
two v2 inner nodes at one place in the two maps may have different depths, and then slot `i` of one
holds keys of nibble `i` at its depth and slot `i` of the other keys of nibble `i` at another. The
maps below both hold `sharedItem`; it sits below slot 1 of a node of depth 3 in one and below slot 0
of a node of depth 5 in the other, so `compare` records it as held by the second map only, and the
first map's record of it is then dropped by the `std::map`. `RCLTxSet::compare`, the caller of
`compare`, compares version-1 transaction maps. -/

/-- A key whose second and third bytes are given, the rest zero. -/
def keyOf (b1 b2 : UInt8) : UInt256 := ⟨0 :: b1 :: b2 :: List.replicate 29 0, rfl⟩

/-- Nibbles 0, 0, 0, 1, 2, 0. -/
def sharedItem : SHAMapItem := ⟨keyOf 0x01 0x20, [1]⟩

/-- Parts from `sharedItem` at nibble 3. -/
def itemNear : SHAMapItem := ⟨keyOf 0x05 0x00, [2]⟩

/-- Parts from `sharedItem` at nibble 5. -/
def itemFar : SHAMapItem := ⟨keyOf 0x01 0x27, [3]⟩

/-- Slots holding two leaves. -/
def twoLeaves (i j : Fin 16) (x y : SHAMapItem) : Fin 16 → SHAMapAbstractNode :=
  Function.update (Function.update noChildren i (.leaf x .tnACCOUNT_STATE)) j (.leaf y .tnACCOUNT_STATE)

/-- A v2 map of `sharedItem` and `itemNear`, below a node of depth 3. -/
def mapSplitAt3 : SHAMap :=
  ⟨.innerV2 0 (BaseUInt.zero 32) (Function.update noChildren (slot 0)
    (.innerV2 3 (keyPrefix 3 sharedItem.tag) (twoLeaves (slot 1) (slot 5) sharedItem itemNear)))⟩

/-- A v2 map of `sharedItem` and `itemFar`, below a node of depth 5. -/
def mapSplitAt5 : SHAMap :=
  ⟨.innerV2 0 (BaseUInt.zero 32) (Function.update noChildren (slot 0)
    (.innerV2 5 (keyPrefix 5 sharedItem.tag) (twoLeaves (slot 0) (slot 7) sharedItem itemFar)))⟩

theorem wf2_twoLeaves {d : Nat} {i j : Fin 16} {x y : SHAMapItem} (hij : i ≠ j)
    (hr : Routed d (twoLeaves i j x y))
    (hc : ∀ z ∈ (SHAMapAbstractNode.innerV2 d (keyPrefix d x.tag) (twoLeaves i j x y)).leaves,
      keyPrefix d z.1.tag = keyPrefix d x.tag) :
    WF2 (.innerV2 d (keyPrefix d x.tag) (twoLeaves i j x y)) := by
  refine WF2.innerV2 (fun b => ?_) hr hc ?_
  · unfold twoLeaves
    by_cases hbj : b = j
    · subst hbj
      simp only [Function.update_self]
      exact WF2.leaf rfl
    · by_cases hbi : b = i
      · subst hbi
        simp only [Function.update_of_ne hbj, Function.update_self]
        exact WF2.leaf rfl
      · simp only [Function.update_of_ne hbj, Function.update_of_ne hbi, noChildren]
        exact WF2.empty
  · refine one_lt_getBranchCount_iff.mpr ⟨i, j, hij, ?_, ?_⟩ <;> simp [twoLeaves, Function.update_of_ne, hij]

theorem invariants_of_node {n : SHAMapAbstractNode} (hn : WF2 n)
    (hr : Routed 0 (Function.update noChildren (slot 0) n)) :
    SHAMap.Invariants ⟨.innerV2 0 (BaseUInt.zero 32) (Function.update noChildren (slot 0) n)⟩ := by
  refine Or.inr ⟨_, rfl, fun b => ?_, hr⟩
  by_cases hb : b = slot 0
  · subst hb
    simpa using hn
  · rw [Function.update_of_ne hb]
    exact WF2.empty

/-- **`compare` on version-2 maps can record a key both maps hold alike.** Both maps are
well-formed v2 maps holding `sharedItem`, whose hashes do not collide, and `compare` returns
`true` with `sharedItem` recorded as held by the second map only. -/
theorem compare_v2_records_shared_item :
    mapSplitAt3.Invariants ∧ mapSplitAt5.Invariants ∧
      ¬ Collides firstBytesHash mapSplitAt3.root mapSplitAt5.root ∧
      mapSplitAt3.contents sharedItem.tag = some sharedItem ∧ mapSplitAt5.contents sharedItem.tag = some sharedItem ∧
      mapSplitAt3.compare firstBytesHash mapSplitAt5 [] 10 =
        .ok (true, [(sharedItem.tag, (none, some sharedItem)), (itemNear.tag, (some itemNear, none)),
          (itemFar.tag, (none, some itemFar))]) := by
  refine ⟨invariants_of_node (wf2_twoLeaves (by decide) (by unfold Routed; decide) (by decide)) (by unfold Routed; decide),
    invariants_of_node (wf2_twoLeaves (by decide) (by unfold Routed; decide) (by decide)) (by unfold Routed; decide),
    by unfold Collides; decide, by decide, by decide, by decide⟩

end SHAMap

end Ripple
