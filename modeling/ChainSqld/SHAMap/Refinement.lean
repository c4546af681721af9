import ChainSqld.SHAMap.DelItem
import ChainSqld.Lib.KeyedStore

/-!
# The SHAMap refines a keyed store

The items a map holds, read by key, are its contents (`contents`); on a map that keeps its
invariants, `peekItem`, `hasItem` and `findKey` read them. Each update of the map is a command on a
keyed store (`Op.toCmd`): it returns what the command returns on the contents and changes them as
the command does, keeping the invariants and the version (`apply_simulates`). By the simulation
rule of the store the same holds after any sequence of updates from an empty map
(`refines_keyedStore`).

A canonical tree is fixed by its leaves (`root_eq_of_leaves`), so two maps of one version that hold
the same items with the same leaf types are the same tree and have the same hash
(`getHash_history_independent`).
-/

namespace Ripple

open Prefix SHAMapAbstractNode KeyedStore

namespace SHAMap

/-- The items a map holds, by key. -/
def contents (m : SHAMap) (k : UInt256) : Option SHAMapItem := (m.lookup k).map Prod.fst

/-- The command on a keyed store that an update of the map is. -/
def Op.toCmd : Op → Cmd UInt256 SHAMapItem
  | .addItem item _ _ => .insert item.tag item
  | .delItem id => .erase id
  | .updateItem item _ _ => .replace item.tag item

variable {m m' : SHAMap}

theorem contents_eq_some_iff (h : m.Invariants) {k : UInt256} {it : SHAMapItem} :
    m.contents k = some it ↔ it ∈ m.root.items ∧ it.tag = k := by
  simp only [contents, Option.map_eq_some_iff, lookup_eq_some_iff h, mem_items]
  constructor
  · rintro ⟨⟨it', ty⟩, ⟨hx, hk⟩, rfl⟩
    exact ⟨⟨ty, hx⟩, hk⟩
  · rintro ⟨⟨ty, hx⟩, hk⟩
    exact ⟨(it, ty), ⟨hx, hk⟩, rfl⟩

theorem peekItem_eq_contents (h : m.Invariants) (k : UInt256) : m.peekItem k = m.contents k := by
  rw [peekItem, findKey_eq h, contents]

theorem hasItem_eq_contents (h : m.Invariants) (k : UInt256) : m.hasItem k = (m.contents k).isSome := by
  rw [hasItem, findKey_eq h, contents, Option.isSome_map]

theorem contents_eq_none_of_findKey (h : m.Invariants) {k : UInt256} (hk : m.findKey k = none) :
    m.contents k = none := by
  rw [← peekItem_eq_contents h, peekItem, hk, Option.map_none]

theorem contents_isSome_of_findKey (h : m.Invariants) {k : UInt256} {x : SHAMapItem × TNType}
    (hk : m.findKey k = some x) : (m.contents k).isSome = true := by
  rw [← peekItem_eq_contents h, peekItem, hk, Option.map_some, Option.isSome_some]

/-- A replacement changes the contents at its key only. -/
theorem contents_of_replaces (h : m.Invariants) (h' : m'.Invariants) {tag : UInt256}
    {newItem : Option SHAMapItem} {type : TNType} (hrep : Replaces tag newItem type m.root m'.root) :
    m'.contents = Function.update m.contents tag newItem := by
  funext k
  apply Option.ext
  intro it
  rw [contents_eq_some_iff h', hrep.items_iff]
  by_cases hk : k = tag
  · subst hk
    rw [Function.update_self]
    constructor
    · rintro ⟨⟨-, hne⟩ | hnew, hk⟩
      · exact absurd hk hne
      · exact hnew
    · intro hnew
      exact ⟨Or.inr hnew, hrep.tag_eq it hnew⟩
  · rw [Function.update_of_ne hk, contents_eq_some_iff h]
    constructor
    · rintro ⟨⟨hold, -⟩ | hnew, hk'⟩
      · exact ⟨hold, hk'⟩
      · exact absurd (hk'.symm.trans (hrep.tag_eq it hnew)) hk
    · rintro ⟨hold, hk'⟩
      exact ⟨Or.inl ⟨hold, hk' ▸ hk⟩, hk'⟩

/-! ## One update -/

/-- Every update simulates its command on the contents, and keeps the invariants and the
version. -/
theorem apply_simulates (h : m.Invariants) (op : Op) :
    ((m.apply op).2.Invariants ∧ (m.apply op).2.isV2 = m.isV2) ∧
      (m.apply op).1 = (step m.contents op.toCmd).1 ∧ (m.apply op).2.contents = (step m.contents op.toCmd).2 := by
  cases op with
  | addItem item isTransaction hasMeta =>
    cases hk : m.findKey item.tag with
    | some x =>
      simp [apply, addGiveItem_of_findKey hk, Op.toCmd, step, contents_isSome_of_findKey h hk, h]
    | none =>
      obtain ⟨root, heq, hinv, hv, hrep⟩ :=
        addGiveItem_of_findKey_eq_none h hk isTransaction hasMeta
      simp only [apply, heq, Op.toCmd, step, contents_eq_none_of_findKey h hk, Option.isSome_none,
        Bool.false_eq_true, if_false]
      exact ⟨⟨hinv, hv⟩, trivial, contents_of_replaces h hinv hrep⟩
  | delItem id =>
    cases hk : m.findKey id with
    | none =>
      simp [apply, delItem_of_findKey_eq_none hk, Op.toCmd, step, contents_eq_none_of_findKey h hk, h]
    | some x =>
      obtain ⟨root, heq, hinv, hv, hrep⟩ := delItem_of_findKey_eq_some h hk
      simp only [apply, heq, Op.toCmd, step, contents_isSome_of_findKey h hk, if_true]
      exact ⟨⟨hinv, hv⟩, trivial, contents_of_replaces h hinv hrep⟩
  | updateItem item isTransaction hasMeta =>
    cases hk : m.findKey item.tag with
    | none =>
      simp [apply, updateGiveItem_of_findKey_eq_none hk, Op.toCmd, step, contents_eq_none_of_findKey h hk, h]
    | some x =>
      obtain ⟨root, heq, hinv, hv, hrep⟩ :=
        updateGiveItem_of_findKey_eq_some h hk isTransaction hasMeta
      simp only [apply, heq, Op.toCmd, step, contents_isSome_of_findKey h hk, if_true]
      exact ⟨⟨hinv, hv⟩, trivial, contents_of_replaces h hinv hrep⟩

/-- Along any run the map keeps its invariants and version, and its contents are the store's after
the same commands. -/
theorem run_simulates (h : m.Invariants) (ops : List Op) :
    ((m.run ops).Invariants ∧ (m.run ops).isV2 = m.isV2) ∧
      (m.run ops).contents = KeyedStore.run m.contents (ops.map Op.toCmd) :=
  run_simulation apply Op.toCmd contents (fun x => x.Invariants ∧ x.isV2 = m.isV2)
    (fun x o hx => by
      obtain ⟨⟨hinv, hv⟩, hret, hc⟩ := apply_simulates hx.1 o
      exact ⟨⟨hinv, hv.trans hx.2⟩, hret, hc⟩)
    ops m ⟨h, rfl⟩

theorem contents_empty (v2 : Bool) : (empty v2).contents = fun _ => none := by
  funext k
  apply Option.eq_none_iff_forall_ne_some.mpr
  intro it hit
  obtain ⟨ty, hty⟩ := mem_items.mp ((contents_eq_some_iff (invariants_empty v2)).mp hit).1
  cases v2 <;> simp [empty, leaves, noChildren] at hty

theorem isV2_empty (v2 : Bool) : (empty v2).isV2 = v2 := by
  cases v2 <;> rfl

/-- From an empty map of either version, after any updates, the map keeps its invariants and its
version, its lookups read the store that the same commands build from the empty store, and the next
update returns what the store's command returns and changes the contents as it does. -/
theorem refines_keyedStore (v2 : Bool) (ops : List Op) :
    let m := (empty v2).run ops
    let s := KeyedStore.run (fun _ => none) (ops.map Op.toCmd)
    m.Invariants ∧ m.isV2 = v2 ∧
      (∀ k, m.peekItem k = s k ∧ m.hasItem k = (s k).isSome ∧ (m.findKey k).map Prod.fst = s k) ∧
      ∀ op, (m.apply op).1 = (step s op.toCmd).1 ∧ (m.apply op).2.contents = (step s op.toCmd).2 := by
  intro m s
  obtain ⟨⟨hinv, hv⟩, hc⟩ := run_simulates (invariants_empty v2) ops
  have hs : m.contents = s := by rw [hc, contents_empty]
  refine ⟨hinv, hv.trans (isV2_empty v2), fun k => ?_, fun op => ?_⟩
  · have hk : m.contents k = s k := congrFun hs k
    refine ⟨by rw [peekItem_eq_contents hinv, hk], by rw [hasItem_eq_contents hinv, hk], ?_⟩
    rw [findKey_eq hinv]
    exact hk
  · obtain ⟨-, hret, hcon⟩ := apply_simulates hinv op
    rw [← hs]
    exact ⟨hret, hcon⟩

/-! ## The hash depends on the items only -/

/-- Two maps of one version that keep their invariants and hold the same leaves have the same
root. -/
theorem root_eq_of_leaves (h₁ : m.Invariants) (h₂ : m'.Invariants) (hv : m.isV2 = m'.isV2)
    (hl : ∀ x, x ∈ m.root.leaves ↔ x ∈ m'.root.leaves) : m.root = m'.root := by
  rcases h₁ with ⟨ch₁, hr₁, hin₁⟩ | ⟨ch₁, hr₁, hin₁⟩ <;>
    rcases h₂ with ⟨ch₂, hr₂, hin₂⟩ | ⟨ch₂, hr₂, hin₂⟩ <;>
    simp only [isV2, hr₁, hr₂, reduceCtorEq] at hv hl ⊢
  · rw [hin₁.eq_of_leaves hin₂ hl]
  · rw [hin₁.eq_of_leaves hin₂ hl]

/-- Two maps that keep their invariants and find the same leaf for every key hold the same
leaves. -/
theorem mem_leaves_iff_of_findKey (h₁ : m.Invariants) (h₂ : m'.Invariants)
    (hk : ∀ k, m.findKey k = m'.findKey k) (x : SHAMapItem × TNType) :
    x ∈ m.root.leaves ↔ x ∈ m'.root.leaves := by
  have := hk x.1.tag
  rw [findKey_eq h₁, findKey_eq h₂] at this
  constructor
  · intro hx
    exact ((lookup_eq_some_iff h₂).mp (this ▸ (lookup_eq_some_iff h₁).mpr ⟨hx, rfl⟩)).1
  · intro hx
    exact ((lookup_eq_some_iff h₁).mp (this.symm ▸ (lookup_eq_some_iff h₂).mpr ⟨hx, rfl⟩)).1

/-- Adds of one leaf type leave every leaf of that type. -/
theorem leaves_type_run_addItem {type : TNType} {isTransaction hasMeta : Bool}
    (hty : TNType.ofFlags isTransaction hasMeta = type) :
    ∀ (items : List SHAMapItem) (m : SHAMap), m.Invariants → (∀ x ∈ m.root.leaves, x.2 = type) →
      ∀ x ∈ (m.run (items.map fun it => .addItem it isTransaction hasMeta)).root.leaves, x.2 = type := by
  intro items
  induction items with
  | nil => exact fun m _ hm => hm
  | cons it items ih =>
    intro m h hm
    have hrun : m.run ((it :: items).map fun it => .addItem it isTransaction hasMeta) =
        (m.addGiveItem it isTransaction hasMeta).2.run (items.map fun it => .addItem it isTransaction hasMeta) := rfl
    rw [hrun]
    cases hk : m.findKey it.tag with
    | some x =>
      rw [addGiveItem_of_findKey hk]
      exact ih m h hm
    | none =>
      obtain ⟨root, heq, hinv, -, hrep⟩ :=
        addGiveItem_of_findKey_eq_none h hk isTransaction hasMeta
      rw [heq]
      refine ih _ hinv fun x hx => ?_
      rcases hrep.types x hx with hold | hnew
      · exact hm x hold
      · exact hnew.trans hty

/-- The SHAMap hash is history independent: from an empty map of either version, two sequences of
updates that leave the same leaf for every key give the same hash; updates that leave no leaf give
the zero hash; and adding items with distinct keys and one leaf type in any order gives the same
hash. -/
theorem getHash_history_independent (sha512Half : Blob → UInt256) (v2 : Bool) :
    (∀ ops₁ ops₂ : List Op, (∀ k, ((empty v2).run ops₁).findKey k = ((empty v2).run ops₂).findKey k) →
      getHash sha512Half ((empty v2).run ops₁) = getHash sha512Half ((empty v2).run ops₂)) ∧
    (∀ ops : List Op, (∀ k, ((empty v2).run ops).findKey k = none) →
      getHash sha512Half ((empty v2).run ops) = BaseUInt.zero 32) ∧
    (∀ (isTransaction hasMeta : Bool) (items items' : List SHAMapItem), items.Perm items' →
      (items.map SHAMapItem.tag).Nodup →
      getHash sha512Half ((empty v2).run (items.map fun it => .addItem it isTransaction hasMeta)) =
        getHash sha512Half ((empty v2).run (items'.map fun it => .addItem it isTransaction hasMeta))) := by
  have hinv : ∀ ops, ((empty v2).run ops).Invariants ∧ ((empty v2).run ops).isV2 = v2 := fun ops =>
    ⟨(run_simulates (invariants_empty v2) ops).1.1,
      (run_simulates (invariants_empty v2) ops).1.2.trans (isV2_empty v2)⟩
  -- the three parts all go through the canonical root
  have hsame : ∀ ops₁ ops₂ : List Op,
      (∀ x, x ∈ ((empty v2).run ops₁).root.leaves ↔ x ∈ ((empty v2).run ops₂).root.leaves) →
      getHash sha512Half ((empty v2).run ops₁) = getHash sha512Half ((empty v2).run ops₂) :=
    fun ops₁ ops₂ hl => by
      rw [getHash, getHash, root_eq_of_leaves (hinv ops₁).1 (hinv ops₂).1
        ((hinv ops₁).2.trans (hinv ops₂).2.symm) hl]
  refine ⟨fun ops₁ ops₂ hk => hsame ops₁ ops₂
    (mem_leaves_iff_of_findKey (hinv ops₁).1 (hinv ops₂).1 hk), fun ops hk => ?_, fun isT hasM items items' hp hnd => ?_⟩
  · -- no leaf is left: the root is the empty root of its version
    have hk' : ∀ k, ((empty v2).run ops).findKey k = (empty v2).findKey k := fun k => by
      rw [hk, findKey_eq (invariants_empty v2), eq_comm, lookup_eq_none_iff]
      cases v2 <;> simp [empty, keys, leaves, noChildren]
    have hroot := root_eq_of_leaves (hinv ops).1 (invariants_empty v2)
      ((hinv ops).2.trans (isV2_empty v2).symm)
      (mem_leaves_iff_of_findKey (hinv ops).1 (invariants_empty v2) hk')
    rw [getHash, hroot]
    cases v2
    · exact getNodeHash_inner_noChildren sha512Half
    · exact getNodeHash_innerV2_noChildren sha512Half 0 (BaseUInt.zero 32)
  · -- the same contents, and every leaf of the one type
    set T := TNType.ofFlags isT hasM
    have hcmd : ∀ l : List SHAMapItem, (l.map fun it => Op.addItem it isT hasM).map Op.toCmd =
        (l.map fun it => (it.tag, it)).map fun e => Cmd.insert e.1 e.2 := by
      intro l
      simp [Op.toCmd]
    have hc : ((empty v2).run (items.map fun it => .addItem it isT hasM)).contents =
        ((empty v2).run (items'.map fun it => .addItem it isT hasM)).contents := by
      rw [(run_simulates (invariants_empty v2) _).2, (run_simulates (invariants_empty v2) _).2, hcmd, hcmd]
      exact run_insert_perm _ (hp.map _) (by simpa [Function.comp_def] using hnd)
    have hty : ∀ l : List SHAMapItem, ∀ x ∈ ((empty v2).run (l.map fun it => .addItem it isT hasM)).root.leaves,
        x.2 = T := fun l =>
      leaves_type_run_addItem rfl l _ (invariants_empty v2) (by cases v2 <;> simp [empty, leaves, noChildren])
    refine hsame _ _ fun x => ?_
    have hx := congrFun hc x.1.tag
    constructor
    · intro h
      have hs := (contents_eq_some_iff (hinv _).1).mpr ⟨mem_items.mpr ⟨x.2, h⟩, rfl⟩
      obtain ⟨ty, hty'⟩ := mem_items.mp ((contents_eq_some_iff (hinv _).1).mp (hx ▸ hs)).1
      rwa [show x = (x.1, ty) from Prod.ext rfl ((hty _ x h).trans (hty _ _ hty').symm)]
    · intro h
      have hs := (contents_eq_some_iff (hinv _).1).mpr ⟨mem_items.mpr ⟨x.2, h⟩, rfl⟩
      obtain ⟨ty, hty'⟩ := mem_items.mp ((contents_eq_some_iff (hinv _).1).mp (hx.symm ▸ hs)).1
      rwa [show x = (x.1, ty) from Prod.ext rfl ((hty _ x h).trans (hty _ _ hty').symm)]

/-- A checksum standing in for `sha512Half` below: the sum of the bytes, in the last byte. -/
def byteSumHash (b : Blob) : UInt256 := ⟨List.replicate 31 0 ++ [b.foldl (fun s x => s + x) 0], rfl⟩

/-- Two items added in either order, hashed by a checksum. -/
theorem getHash_history_independent_swap :
    [(⟨BaseUInt.zero 32, [5]⟩ : SHAMapItem), ⟨⟨List.replicate 32 1, List.length_replicate⟩, [7]⟩].Perm
        [⟨⟨List.replicate 32 1, List.length_replicate⟩, [7]⟩, ⟨BaseUInt.zero 32, [5]⟩] ∧
      ([(⟨BaseUInt.zero 32, [5]⟩ : SHAMapItem), ⟨⟨List.replicate 32 1, List.length_replicate⟩, [7]⟩].map
        SHAMapItem.tag).Nodup ∧
      getHash byteSumHash ((empty false).run
          ([(⟨BaseUInt.zero 32, [5]⟩ : SHAMapItem), ⟨⟨List.replicate 32 1, List.length_replicate⟩, [7]⟩].map
            fun it => .addItem it true false)) =
        getHash byteSumHash ((empty false).run
          ([(⟨⟨List.replicate 32 1, List.length_replicate⟩, [7]⟩ : SHAMapItem), ⟨BaseUInt.zero 32, [5]⟩].map
            fun it => .addItem it true false)) := by
  have hp : [(⟨BaseUInt.zero 32, [5]⟩ : SHAMapItem), ⟨⟨List.replicate 32 1, List.length_replicate⟩, [7]⟩].Perm
      [⟨⟨List.replicate 32 1, List.length_replicate⟩, [7]⟩, ⟨BaseUInt.zero 32, [5]⟩] := List.Perm.swap _ _ []
  have hnd : ([(⟨BaseUInt.zero 32, [5]⟩ : SHAMapItem), ⟨⟨List.replicate 32 1, List.length_replicate⟩, [7]⟩].map
      SHAMapItem.tag).Nodup := by decide
  exact ⟨hp, hnd, (getHash_history_independent _ false).2.2 true false _ _ hp hnd⟩

end SHAMap

end Ripple
