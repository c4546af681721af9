import ChainSqld.SHAMap.Invariants

/-!
# Replacing the items of one key

Every update of a map changes the items of one key `tag` and leaves the others alone: the new
subtree holds the old items whose key is not `tag`, and the new item if there is one
(`Replaces`). The types of the leaves may change, but only to the type the update was given; the
v1 map gives that type to the leaves it splits or pulls up.

A rebuilt path keeps this relation and the shape level by level: putting a new child in the slot
of `tag` turns a replacement in the slot into a replacement in the node (`Replaces.setChild`), and
keeps the node canonical when the new child is canonical and holds all the old keys
(`WF1.setChild`, `WF1Inner.setChild`, `WF2.setChild`, `WF2Inner.setChild`).
-/

namespace Ripple

open Prefix

namespace SHAMapAbstractNode

/-- The items below a node. -/
def items (t : SHAMapAbstractNode) : List SHAMapItem := t.leaves.map Prod.fst

theorem mem_items {t : SHAMapAbstractNode} {it : SHAMapItem} : it ∈ t.items ↔ ∃ ty, (it, ty) ∈ t.leaves := by
  simp [items]

/-- `new` holds the items of `old` whose key is not `tag`, and `newItem` if it is one; each of its
leaves is a leaf of `old` or has type `type`. -/
structure Replaces (tag : UInt256) (newItem : Option SHAMapItem) (type : TNType)
    (old new : SHAMapAbstractNode) : Prop where
  tag_eq : ∀ it, newItem = some it → it.tag = tag
  items_iff : ∀ it, it ∈ new.items ↔ (it ∈ old.items ∧ it.tag ≠ tag) ∨ newItem = some it
  types : ∀ y ∈ new.leaves, y ∈ old.leaves ∨ y.2 = type

variable {tag : UInt256} {newItem : Option SHAMapItem} {type : TNType}

/-- Replacing the child in the slot of `tag` replaces the items of `tag` in the node. -/
theorem Replaces.setChild {d : Nat} {ch : Fin 16 → SHAMapAbstractNode} {c : SHAMapAbstractNode}
    (hr : Routed d ch) (hrep : Replaces tag newItem type (ch (tag.nibble d)) c) :
    Replaces tag newItem type (inner ch) (inner (Function.update ch (tag.nibble d) c)) := by
  have hother : ∀ i, i ≠ tag.nibble d → ∀ it, it ∈ (ch i).items → it.tag ≠ tag := by
    intro i hi it hit htag
    obtain ⟨ty, hty⟩ := mem_items.mp hit
    exact hi (by rw [← hr i _ hty, htag])
  refine ⟨hrep.tag_eq, fun it => ?_, ?_⟩
  · simp only [mem_items, mem_leaves_inner, mem_leaves_update]
    constructor
    · rintro ⟨ty, hc | ⟨i, hi, hty⟩⟩
      · rcases (hrep.items_iff it).mp (mem_items.mpr ⟨ty, hc⟩) with ⟨hold, hne⟩ | hnew
        · obtain ⟨ty', hty'⟩ := mem_items.mp hold
          exact Or.inl ⟨⟨ty', _, hty'⟩, hne⟩
        · exact Or.inr hnew
      · exact Or.inl ⟨⟨ty, i, hty⟩, hother i hi it (mem_items.mpr ⟨ty, hty⟩)⟩
    · rintro (⟨⟨ty, i, hty⟩, hne⟩ | hnew)
      · by_cases hi : i = tag.nibble d
        · subst hi
          obtain ⟨ty', hty'⟩ := mem_items.mp ((hrep.items_iff it).mpr (Or.inl ⟨mem_items.mpr ⟨ty, hty⟩, hne⟩))
          exact ⟨ty', Or.inl hty'⟩
        · exact ⟨ty, Or.inr ⟨i, hi, hty⟩⟩
      · obtain ⟨ty', hty'⟩ := mem_items.mp ((hrep.items_iff it).mpr (Or.inr hnew))
        exact ⟨ty', Or.inl hty'⟩
  · intro y hy
    rcases mem_leaves_update.mp (mem_leaves_inner.mp hy) with hc | ⟨i, _, hi⟩
    · rcases hrep.types y hc with h | h
      · exact Or.inl (mem_leaves_inner.mpr ⟨_, h⟩)
      · exact Or.inr h
    · exact Or.inl (mem_leaves_inner.mpr ⟨i, hi⟩)

/-- A subtree with the items of a replacement, whose leaves are its leaves or have the update's
type, is a replacement too. -/
theorem Replaces.of_items {old mid new : SHAMapAbstractNode} (hrep : Replaces tag newItem type old mid)
    (hitems : ∀ it, it ∈ new.items ↔ it ∈ mid.items) (htypes : ∀ y ∈ new.leaves, y ∈ mid.leaves ∨ y.2 = type) :
    Replaces tag newItem type old new where
  tag_eq := hrep.tag_eq
  items_iff it := (hitems it).trans (hrep.items_iff it)
  types y hy := by
    rcases htypes y hy with h | h
    · exact hrep.types y h
    · exact Or.inr h

/-- The relation reads only leaves, which a v2 node lists as a v1 node does. -/
theorem Replaces.innerV2 {d d' : Nat} {c c' : UInt256} {ch ch' : Fin 16 → SHAMapAbstractNode}
    (h : Replaces tag newItem type (inner ch) (inner ch')) :
    Replaces tag newItem type (innerV2 d c ch) (innerV2 d' c' ch') :=
  ⟨h.tag_eq, by simpa [items, leaves_innerV2] using h.items_iff, by simpa [leaves_innerV2] using h.types⟩

/-- A key of the new subtree is an old key or the updated one. -/
theorem Replaces.tag_mem {old new : SHAMapAbstractNode} (hrep : Replaces tag newItem type old new)
    {y : SHAMapItem × TNType} (hy : y ∈ new.leaves) : y.1 ∈ old.items ∨ y.1.tag = tag := by
  rcases (hrep.items_iff y.1).mp (mem_items.mpr ⟨y.2, hy⟩) with ⟨h, _⟩ | h
  · exact Or.inl h
  · exact Or.inr (hrep.tag_eq _ h)

/-- An update that puts an item with the key `tag` keeps every old key. -/
theorem Replaces.keys_subset {old new : SHAMapAbstractNode} {it : SHAMapItem}
    (hrep : Replaces tag (some it) type old new) : old.keys ⊆ new.keys := by
  intro k hk
  obtain ⟨x, hx, rfl⟩ := mem_keys.mp hk
  by_cases hxt : x.1.tag = tag
  · obtain ⟨ty, hty⟩ := mem_items.mp ((hrep.items_iff it).mpr (Or.inr rfl))
    exact mem_keys.mpr ⟨(it, ty), hty, (hrep.tag_eq it rfl).trans hxt.symm⟩
  · obtain ⟨ty, hty⟩ := mem_items.mp ((hrep.items_iff x.1).mpr (Or.inl ⟨mem_items.mpr ⟨x.2, hx⟩, hxt⟩))
    exact mem_keys.mpr ⟨(x.1, ty), hty, rfl⟩

/-- A replacement that puts an item leaves a non-empty subtree. -/
theorem Replaces.ne_empty {old new : SHAMapAbstractNode} {it : SHAMapItem}
    (hrep : Replaces tag (some it) type old new) : new ≠ .empty := by
  rintro rfl
  obtain ⟨ty, hty⟩ := mem_items.mp ((hrep.items_iff it).mpr (Or.inr rfl))
  exact List.not_mem_nil hty

/-- Routing survives a new child in the slot of `tag` that holds old keys of that slot and `tag`. -/
theorem Routed.setChild {d : Nat} {ch : Fin 16 → SHAMapAbstractNode} {c : SHAMapAbstractNode}
    (hr : Routed d ch) (hc : ∀ y ∈ c.leaves, y.1 ∈ (ch (tag.nibble d)).items ∨ y.1.tag = tag) :
    Routed d (Function.update ch (tag.nibble d) c) := by
  intro b y hy
  by_cases hb : b = tag.nibble d
  · subst hb
    rw [Function.update_self] at hy
    rcases hc y hy with h | h
    · obtain ⟨ty, hty⟩ := mem_items.mp h
      exact hr _ (y.1, ty) hty
    · rw [h]
  · rw [Function.update_of_ne hb] at hy
    exact hr b y hy

/-- Keys below a node with distinct keys, all kept: at least as many leaves. -/
theorem length_le_of_keys_subset {old new : SHAMapAbstractNode} (hnd : old.keys.Nodup)
    (hsub : old.keys ⊆ new.keys) : old.leaves.length ≤ new.leaves.length := by
  have := (hnd.subperm hsub).length_le
  simpa [keys] using this

/-! ## Canonical shape along a rebuilt path -/

section Shape

variable {d : Nat} {ch : Fin 16 → SHAMapAbstractNode} {c : SHAMapAbstractNode} {it : SHAMapItem}

theorem WF1Inner.setChild (h : WF1Inner d ch) (hc : WF1 (d + 1) c)
    (hrep : Replaces tag newItem type (ch (tag.nibble d)) c) :
    WF1Inner d (Function.update ch (tag.nibble d) c) := by
  refine ⟨fun b => ?_, h.2.setChild fun y hy => hrep.tag_mem hy⟩
  by_cases hb : b = tag.nibble d
  · subst hb; simpa using hc
  · simpa [Function.update_of_ne hb] using h.1 b

theorem WF1.setChild (h : WF1 d (SHAMapAbstractNode.inner ch)) (hc : WF1 (d + 1) c)
    (hrep : Replaces tag (some it) type (ch (tag.nibble d)) c) :
    WF1 d (SHAMapAbstractNode.inner (Function.update ch (tag.nibble d) c)) := by
  cases h with
  | inner hch hr h2 =>
    have hin := WF1Inner.setChild ⟨hch, hr⟩ hc hrep
    refine WF1.inner hin.1 hin.2 (le_trans h2 (length_le_of_keys_subset (WF1Inner.nodup ⟨hch, hr⟩) ?_))
    exact (hrep.setChild hr).keys_subset

variable {c₀ : UInt256}

theorem WF2Inner.setChild (h : WF2Inner d ch) (hc : WF2 c)
    (hrep : Replaces tag newItem type (ch (tag.nibble d)) c) :
    WF2Inner d (Function.update ch (tag.nibble d) c) := by
  refine ⟨fun b => ?_, h.2.setChild fun y hy => hrep.tag_mem hy⟩
  by_cases hb : b = tag.nibble d
  · subst hb; simpa using hc
  · simpa [Function.update_of_ne hb] using h.1 b

/-- A key sharing a v2 node's prefix has the node's prefix as its own. -/
theorem keyPrefix_eq_of_hasCommonPrefix {k : UInt256} {x : SHAMapItem × TNType}
    (hx : keyPrefix d x.1.tag = c₀) (hk : hasCommonPrefix d c₀ k = true) : keyPrefix d k = c₀ := by
  rw [← hx, keyPrefix_eq_iff]
  intro i hi
  rw [← (hasCommonPrefix_iff d c₀ k).mp hk i hi, ← hx, nibble_keyPrefix, if_pos hi]

/-- A v2 node with a new child in the slot of a key that shares its prefix stays canonical if it
keeps two branches. -/
theorem WF2.setChild_of_two_le (h : WF2 (.innerV2 d c₀ ch)) (hc : WF2 c)
    (hrep : Replaces tag newItem type (ch (tag.nibble d)) c) (hpre : hasCommonPrefix d c₀ tag = true)
    (h2 : 2 ≤ (SHAMapAbstractNode.innerV2 d c₀ (Function.update ch (tag.nibble d) c)).getBranchCount) :
    WF2 (.innerV2 d c₀ (Function.update ch (tag.nibble d) c)) := by
  cases h with
  | innerV2 hch hr hcom h2₀ =>
    have hin := WF2Inner.setChild ⟨hch, hr⟩ hc hrep
    obtain ⟨x, hx⟩ := List.exists_mem_of_ne_nil _
      ((WF2.innerV2 hch hr hcom h2₀).leaves_ne_nil (by simp))
    refine WF2.innerV2 hin.1 hin.2 (fun y hy => ?_) h2
    rcases (hrep.setChild hr).tag_mem hy with hold | htag
    · obtain ⟨ty, hty⟩ := mem_items.mp hold
      rw [← leaves_innerV2 d c₀] at hty
      exact hcom (y.1, ty) hty
    · rw [htag]
      exact keyPrefix_eq_of_hasCommonPrefix (hcom x hx) hpre

/-- A v2 node whose child in the slot of a key that shares its prefix stays non-empty stays
canonical. -/
theorem WF2.setChild (h : WF2 (.innerV2 d c₀ ch)) (hc : WF2 c) (hcne : c ≠ .empty)
    (hrep : Replaces tag newItem type (ch (tag.nibble d)) c) (hpre : hasCommonPrefix d c₀ tag = true) :
    WF2 (.innerV2 d c₀ (Function.update ch (tag.nibble d) c)) := by
  refine h.setChild_of_two_le hc hrep hpre ?_
  cases h with
  | innerV2 _ _ _ h2 =>
    refine le_trans h2 (getBranchCount_le_of_forall fun i hi => ?_)
    by_cases hb : i = tag.nibble d
    · subst hb; simpa using hcne
    · simpa [Function.update_of_ne hb] using hi

end Shape

end SHAMapAbstractNode

end Ripple
