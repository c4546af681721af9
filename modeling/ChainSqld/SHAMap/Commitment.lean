import ChainSqld.SHAMap.Sync

/-!
# What a root hash commits to

A map being synchronised holds only nodes that hash to what their parents record (`Linked`). Read
down from the root, these links bind every item the map holds to the map the root hash was taken
of: a node's hash is `sha512Half` of its prefix-format bytes, and those bytes fix its kind, the
hashes of its branches and, for a leaf `make` can return, its item
(`getChildHash_eq_of_prefixBytes_eq`, `leaf_eq_of_prefixBytes_eq`).

So, as for a Merkle proof, an item held by a linked map is an item of every map of the same root
hash whose leaves are well formed, unless `sha512Half` takes two different byte strings, one hashed
in each map, to one value (`mem_leaves_of_linked`). `sha512Half` is any function that never gives
zero, the hash of a slot that holds nothing.
-/

namespace Ripple

open Serializer

/-! ## Prefix bytes determine a node -/

namespace StoredNode

/-- The `HashPrefix` a node's prefix-format bytes start with; zero for a leaf of no leaf type,
which writes none. -/
def kindPrefix : StoredNode → UInt32
  | inner _ _ => HashPrefix.innerNode
  | innerV2 _ _ _ _ => HashPrefix.innerNodeV2
  | leaf _ .tnACCOUNT_STATE => HashPrefix.leafNode
  | leaf _ .tnTRANSACTION_NM => HashPrefix.transactionID
  | leaf _ .tnTRANSACTION_MD => HashPrefix.txNode
  | leaf _ _ => 0

theorem addBitString_inj {k : Nat} {x y : BaseUInt k} (h : addBitString x = addBitString y) : x = y := by
  obtain ⟨dx, hx⟩ := x
  obtain ⟨dy, hy⟩ := y
  cases h
  rfl

theorem add32_append_inj {P Q : UInt32} {X Y : Blob} (h : add32 P ++ X = add32 Q ++ Y) : P = Q ∧ X = Y := by
  have := congrArg SerialIter.get32.run h
  rw [get32_add32, get32_add32] at this
  simpa using this

/-- A node writes nothing in the prefix format, or its kind's prefix and then its body. -/
theorem prefixBytes_cases (n : StoredNode) : n.prefixBytes = [] ∨ ∃ X, n.prefixBytes = add32 n.kindPrefix ++ X := by
  rcases n with _ | _ | ⟨it, _ | _ | _ | _ | _⟩
  all_goals first
    | exact Or.inl rfl
    | exact Or.inr ⟨_, by simp only [prefixBytes, kindPrefix, List.append_assoc]; rfl⟩

theorem kindPrefix_eq_of_prefixBytes_eq {f s : StoredNode} (hne : f.prefixBytes ≠ [])
    (h : f.prefixBytes = s.prefixBytes) : f.kindPrefix = s.kindPrefix := by
  rcases prefixBytes_cases f with hf | ⟨X, hX⟩
  · exact absurd hf hne
  rcases prefixBytes_cases s with hs | ⟨Y, hY⟩
  · rw [← h] at hs
    exact absurd hs hne
  exact (add32_append_inj (hX.symm.trans (h.trans hY))).1

/-- The inner nodes are the nodes of the two inner prefixes. -/
theorem isInner_iff_kindPrefix (n : StoredNode) :
    n.isInner = true ↔ n.kindPrefix = HashPrefix.innerNode ∨ n.kindPrefix = HashPrefix.innerNodeV2 := by
  rcases n with _ | _ | ⟨it, _ | _ | _ | _ | _⟩ <;> simp +decide [isInner, kindPrefix]

/-- The slot hashes an inner node writes after its prefix. -/
theorem prefixBytes_of_isInner {n : StoredNode} (hn : n.isInner = true) :
    ∃ X, n.prefixBytes = add32 n.kindPrefix ++ (hashBytes n.getChildHash ++ X) := by
  cases n with
  | inner b h => exact ⟨[], by simp only [prefixBytes, kindPrefix, List.append_nil]; rfl⟩
  | innerV2 b h d c => exact ⟨depthBytes d c, by simp only [prefixBytes, kindPrefix, List.append_assoc]; rfl⟩
  | leaf it ty => cases hn

theorem hashBytes_inj {h h' : Fin 16 → UInt256} {X Y : Blob} (e : hashBytes h ++ X = hashBytes h' ++ Y) : h = h' := by
  have := congrArg fullInner e
  rw [fullInner_hashBytes, fullInner_hashBytes] at this
  exact (Prod.ext_iff.mp this).2

/-- A node with the prefix bytes of an inner node is an inner node with its slot hashes. -/
theorem getChildHash_eq_of_prefixBytes_eq {f s : StoredNode} (hf : f.isInner = true)
    (h : f.prefixBytes = s.prefixBytes) : s.isInner = true ∧ s.getChildHash = f.getChildHash := by
  obtain ⟨X, hX⟩ := prefixBytes_of_isInner hf
  have hk := kindPrefix_eq_of_prefixBytes_eq (by rw [hX]; simp [add32]) h
  have hs : s.isInner = true := (isInner_iff_kindPrefix s).mpr (hk ▸ (isInner_iff_kindPrefix f).mp hf)
  obtain ⟨Y, hY⟩ := prefixBytes_of_isInner hs
  exact ⟨hs, (hashBytes_inj (add32_append_inj (hX.symm.trans (h.trans hY))).2).symm⟩

/-- Leaves `make` can return with equal prefix bytes are equal. -/
theorem leaf_eq_of_prefixBytes_eq {sha512Half : Blob → UInt256} {it : SHAMapItem} {ty : TNType}
    {s : StoredNode} (hr : (leaf it ty).Readable sha512Half) (hs : s.Readable sha512Half)
    (h : (leaf it ty).prefixBytes = s.prefixBytes) : s = leaf it ty := by
  obtain ⟨hty, hnm⟩ := hr
  cases s with
  | inner b hs' =>
    have := @getChildHash_eq_of_prefixBytes_eq (inner b hs') _ rfl h.symm
    cases this.1
  | innerV2 b hs' d c =>
    have := @getChildHash_eq_of_prefixBytes_eq (innerV2 b hs' d c) _ rfl h.symm
    cases this.1
  | leaf it' ty' =>
    obtain ⟨hty', hnm'⟩ := hs
    obtain ⟨tag, data⟩ := it
    obtain ⟨tag', data'⟩ := it'
    -- the kinds agree, then the bodies: data and key, the key of a transaction without metadata
    -- being the hash of its data
    cases ty <;> cases ty' <;> simp only [TNType.isLeafType, Bool.false_eq_true] at hty hty'
    all_goals simp only [prefixBytes, Serializer.addRaw, List.append_assoc] at h
    all_goals first
      | exact absurd (add32_append_inj h).1 (by decide)
      | skip
    · obtain ⟨-, hb⟩ := add32_append_inj h
      have htag : tag = sha512Half (add32 HashPrefix.transactionID ++ data) := hnm rfl
      have htag' : tag' = sha512Half (add32 HashPrefix.transactionID ++ data') := hnm' rfl
      rw [htag, htag', hb]
    · obtain ⟨-, hb⟩ := add32_append_inj h
      obtain ⟨rfl, htag⟩ := List.append_inj' hb (by rw [length_addBitString, length_addBitString])
      rw [addBitString_inj htag]
    · obtain ⟨-, hb⟩ := add32_append_inj h
      obtain ⟨rfl, htag⟩ := List.append_inj' hb (by rw [length_addBitString, length_addBitString])
      rw [addBitString_inj htag]

/-! ## Hashes of nodes that have something below them -/

variable (sha512Half : Blob → UInt256)

/-- A node hashes to zero or to `sha512Half` of its prefix bytes. -/
theorem getNodeHash_eq_zero_or (n : StoredNode) :
    n.getNodeHash sha512Half = BaseUInt.zero 32 ∨ n.getNodeHash sha512Half = sha512Half n.prefixBytes := by
  cases n with
  | inner b h => simp only [getNodeHash]; split_ifs <;> simp
  | innerV2 b h d c => simp only [getNodeHash]; split_ifs <;> simp
  | leaf it ty => simp only [getNodeHash]; split_ifs <;> simp

theorem isInner_of_isEmptyBranch {n : StoredNode} {i : Fin 16} (h : n.isEmptyBranch i = false) :
    n.isInner = true := by
  cases n with
  | inner b hs => rfl
  | innerV2 b hs d c => rfl
  | leaf it ty => cases h

/-- An inner node with a branch hashes its prefix bytes. -/
theorem getNodeHash_of_isEmptyBranch {n : StoredNode} {i : Fin 16} (h : n.isEmptyBranch i = false) :
    n.getNodeHash sha512Half = sha512Half n.prefixBytes := by
  have hany : ∀ b : Fin 16 → Bool, b i = true → (List.finRange 16).any b = true := fun b hb =>
    List.any_eq_true.mpr ⟨i, List.mem_finRange i, hb⟩
  cases n with
  | inner b hs => simp [getNodeHash, hany b (by simpa [isEmptyBranch] using h)]
  | innerV2 b hs d c => simp [getNodeHash, hany b (by simpa [isEmptyBranch] using h)]
  | leaf it ty => cases h

/-- A leaf `make` can return hashes its prefix bytes. -/
theorem getNodeHash_of_readable {it : SHAMapItem} {ty : TNType} (h : (leaf it ty).Readable sha512Half) :
    (leaf it ty).getNodeHash sha512Half = sha512Half (leaf it ty).prefixBytes := by
  simp [getNodeHash, h.1]

end StoredNode

/-! ## The byte strings each side hashes -/

namespace SyncNode

/-- The byte strings the hashes of the nodes in memory are taken of, root first. -/
def messages : SyncNode → List Blob
  | absent => []
  | present n ch => n.prefixBytes :: (List.finRange 16).flatMap fun i => messages (ch i)

theorem prefixBytes_mem_messages (n : StoredNode) (ch : Fin 16 → SyncNode) :
    n.prefixBytes ∈ (present n ch).messages := List.mem_cons_self

theorem mem_messages_of_child {n : StoredNode} {ch : Fin 16 → SyncNode} {i : Fin 16} {a : Blob}
    (h : a ∈ (ch i).messages) : a ∈ (present n ch).messages :=
  List.mem_cons_of_mem _ (List.mem_flatMap.mpr ⟨i, List.mem_finRange i, h⟩)

/-- An item held below a node is the node's own, or is held below one of its branches. -/
theorem mem_leaves_present {n : StoredNode} {ch : Fin 16 → SyncNode} {x : SHAMapItem × TNType}
    (h : x ∈ (present n ch).leaves) : n = .leaf x.1 x.2 ∨ ∃ i, x ∈ (ch i).leaves := by
  cases n with
  | leaf it ty =>
    simp only [leaves, List.mem_singleton] at h
    exact Or.inl (by rw [h])
  | inner b hs => exact Or.inr (by simpa [leaves] using h)
  | innerV2 b hs d c => exact Or.inr (by simpa [leaves] using h)

theorem ne_absent_of_mem_leaves {t : SyncNode} {x : SHAMapItem × TNType} (h : x ∈ t.leaves) : t ≠ absent := by
  rintro rfl
  cases h

end SyncNode

namespace SHAMapAbstractNode

variable (sha512Half : Blob → UInt256)

/-- The byte strings the hashes of a map's nodes are taken of, root first. -/
def messages : SHAMapAbstractNode → List Blob
  | empty => []
  | inner ch =>
    ((inner ch).toStored sha512Half).toList.map StoredNode.prefixBytes ++
      (List.finRange 16).flatMap fun i => messages (ch i)
  | innerV2 d c ch =>
    ((innerV2 d c ch).toStored sha512Half).toList.map StoredNode.prefixBytes ++
      (List.finRange 16).flatMap fun i => messages (ch i)
  | leaf it ty => ((leaf it ty).toStored sha512Half).toList.map StoredNode.prefixBytes

theorem prefixBytes_mem_messages {t : SHAMapAbstractNode} {s : StoredNode} (h : t.toStored sha512Half = some s) :
    s.prefixBytes ∈ t.messages sha512Half := by
  cases t with
  | empty => cases h
  | inner ch => simp [messages, h]
  | innerV2 d c ch => simp [messages, h]
  | leaf it ty => simp [messages, h]

theorem mem_messages_of_getChild {t : SHAMapAbstractNode} {i : Fin 16} {a : Blob}
    (h : a ∈ (t.getChild i).messages sha512Half) : a ∈ t.messages sha512Half := by
  cases t with
  | empty => cases h
  | leaf it ty => cases h
  | inner ch => exact List.mem_append_right _ (List.mem_flatMap.mpr ⟨i, List.mem_finRange i, h⟩)
  | innerV2 d c ch => exact List.mem_append_right _ (List.mem_flatMap.mpr ⟨i, List.mem_finRange i, h⟩)

/-- Every leaf of the map is one `make` can return: of a leaf type, and keyed by the hash of its
data if it is a transaction without metadata. -/
def LeavesReadable (t : SHAMapAbstractNode) : Prop :=
  ∀ x ∈ t.leaves, (StoredNode.leaf x.1 x.2).Readable sha512Half

theorem LeavesReadable.getChild {t : SHAMapAbstractNode} (ht : t.LeavesReadable sha512Half) (i : Fin 16) :
    (t.getChild i).LeavesReadable sha512Half :=
  fun x hx => ht x (mem_leaves_of_getChild hx)

theorem readable_toStored {t : SHAMapAbstractNode} {s : StoredNode} (ht : t.LeavesReadable sha512Half)
    (h : t.toStored sha512Half = some s) : s.Readable sha512Half := by
  cases t with
  | empty => cases h
  | inner ch => cases h; trivial
  | innerV2 d c ch => cases h; trivial
  | leaf it ty =>
    cases h
    exact ht (it, ty) (List.mem_singleton_self _)

/-- A node with a non-zero hash has fields. -/
theorem toStored_isSome {t : SHAMapAbstractNode} (h : t.getNodeHash sha512Half ≠ BaseUInt.zero 32) :
    ∃ s, t.toStored sha512Half = some s := by
  cases t with
  | empty => exact absurd rfl h
  | inner ch => exact ⟨_, rfl⟩
  | innerV2 d c ch => exact ⟨_, rfl⟩
  | leaf it ty => exact ⟨_, rfl⟩

/-- The fields of an inner node record the hashes of its children. -/
theorem getChildHash_toStored {t : SHAMapAbstractNode} {s : StoredNode} (h : t.toStored sha512Half = some s)
    (i : Fin 16) (hs : s.isInner = true) : s.getChildHash i = (t.getChild i).getNodeHash sha512Half := by
  cases t with
  | empty => cases h
  | inner ch => cases h; rfl
  | innerV2 d c ch => cases h; rfl
  | leaf it ty => cases h; cases hs

theorem eq_leaf_of_toStored {t : SHAMapAbstractNode} {it : SHAMapItem} {ty : TNType}
    (h : t.toStored sha512Half = some (.leaf it ty)) : t = leaf it ty := by
  cases t with
  | empty => cases h
  | inner ch => cases h
  | innerV2 d c ch => cases h
  | leaf it' ty' => cases h; rfl

end SHAMapAbstractNode

/-! ## Binding -/

section Binding

variable (sha512Half : Blob → UInt256)

/-- `sha512Half` takes two different byte strings, one hashed in `p` and one in `t`, to one value. -/
def Collision (p : SyncNode) (t : SHAMapAbstractNode) : Prop :=
  ∃ a ∈ p.messages, ∃ b ∈ t.messages sha512Half, a ≠ b ∧ sha512Half a = sha512Half b

theorem Collision.of_child {n : StoredNode} {ch : Fin 16 → SyncNode} {t : SHAMapAbstractNode} {i : Fin 16}
    (h : Collision sha512Half (ch i) (t.getChild i)) : Collision sha512Half (.present n ch) t := by
  obtain ⟨a, ha, b, hb, hne, heq⟩ := h
  exact ⟨a, SyncNode.mem_messages_of_child ha, b, SHAMapAbstractNode.mem_messages_of_getChild sha512Half hb,
    hne, heq⟩

variable {sha512Half}

/-- A node in memory that hashes its prefix bytes, to the hash of a node of the map: the two have
the same prefix bytes, or their hashes collide. -/
theorem prefixBytes_eq_or_collision (hnz : ∀ b, sha512Half b ≠ BaseUInt.zero 32) {n : StoredNode}
    (ch : Fin 16 → SyncNode) {t : SHAMapAbstractNode} (hn : n.getNodeHash sha512Half = sha512Half n.prefixBytes)
    (hh : n.getNodeHash sha512Half = t.getNodeHash sha512Half) :
    ∃ s, t.toStored sha512Half = some s ∧ (n.prefixBytes = s.prefixBytes ∨ Collision sha512Half (.present n ch) t) := by
  have htnz : t.getNodeHash sha512Half ≠ BaseUInt.zero 32 := by
    rw [← hh, hn]
    exact hnz _
  obtain ⟨s, hs⟩ := SHAMapAbstractNode.toStored_isSome sha512Half htnz
  have hsh : s.getNodeHash sha512Half = t.getNodeHash sha512Half := SHAMapAbstractNode.getNodeHash_toStored sha512Half hs
  -- the map's node hashes its own prefix bytes, the hash being non-zero
  have hs' : s.getNodeHash sha512Half = sha512Half s.prefixBytes := by
    rcases StoredNode.getNodeHash_eq_zero_or sha512Half s with hz | hsha
    · exact absurd (hsh ▸ hz) htnz
    · exact hsha
  refine ⟨s, hs, ?_⟩
  by_cases hb : n.prefixBytes = s.prefixBytes
  · exact Or.inl hb
  · refine Or.inr ⟨_, SyncNode.prefixBytes_mem_messages n ch, _,
      SHAMapAbstractNode.prefixBytes_mem_messages sha512Half hs, hb, ?_⟩
    rw [← hn, hh, ← hsh, hs']

/-- **Binding.** Every item a linked node holds is an item of any map of its hash whose leaves are
well formed, unless the hashes of the two collide. By induction on the links: at a leaf the prefix
bytes fix the item, at an inner node they fix the hash of the branch the item lies below. -/
theorem mem_leaves_of_linked (hnz : ∀ b, sha512Half b ≠ BaseUInt.zero 32) {p : SyncNode}
    (hp : Linked sha512Half p) :
    ∀ t : SHAMapAbstractNode, t.LeavesReadable sha512Half → p.hash sha512Half = t.getNodeHash sha512Half →
      ∀ x ∈ p.leaves, x ∈ t.leaves ∨ Collision sha512Half p t := by
  induction hp with
  | absent =>
    intro t _ _ x hx
    cases hx
  | @present n ch hread hlink hch ih =>
    intro t ht hh x hx
    rcases SyncNode.mem_leaves_present hx with hleaf | ⟨i, hi⟩
    · -- a leaf: its prefix bytes are the map's node's, which is then the same leaf
      subst hleaf
      obtain ⟨s, hs, heq | hcol⟩ :=
        prefixBytes_eq_or_collision hnz ch (StoredNode.getNodeHash_of_readable sha512Half hread) hh
      · have hsl := StoredNode.leaf_eq_of_prefixBytes_eq hread
          (SHAMapAbstractNode.readable_toStored sha512Half ht hs) heq
        rw [hsl] at hs
        rw [SHAMapAbstractNode.eq_leaf_of_toStored sha512Half hs]
        exact Or.inl (List.mem_singleton_self _)
      · exact Or.inr hcol
    · -- below branch `i`: the map's node records the same hash for it
      obtain ⟨hbr, hci⟩ := hlink i (SyncNode.ne_absent_of_mem_leaves hi)
      obtain ⟨s, hs, heq | hcol⟩ :=
        prefixBytes_eq_or_collision hnz ch (StoredNode.getNodeHash_of_isEmptyBranch sha512Half hbr) hh
      · obtain ⟨hsi, hsc⟩ := StoredNode.getChildHash_eq_of_prefixBytes_eq (StoredNode.isInner_of_isEmptyBranch hbr) heq
        have hchild : (ch i).hash sha512Half = (t.getChild i).getNodeHash sha512Half := by
          rw [hci, ← hsc, SHAMapAbstractNode.getChildHash_toStored sha512Half hs i hsi]
        rcases ih i (t.getChild i) (ht.getChild sha512Half i) hchild x hi with hx' | hcol
        · exact Or.inl (SHAMapAbstractNode.mem_leaves_of_getChild hx')
        · exact Or.inr hcol.of_child
      · exact Or.inr hcol

end Binding

/-! ## Two trees of one hash -/

section Trees

variable (sha512Half : Blob → UInt256)

/-- `sha512Half` takes two different byte strings, one hashed in each of two trees, to one value. -/
def Collides (a b : SHAMapAbstractNode) : Prop :=
  ∃ x ∈ a.messages sha512Half, ∃ y ∈ b.messages sha512Half, x ≠ y ∧ sha512Half x = sha512Half y

variable {sha512Half}

theorem Collides.symm {a b : SHAMapAbstractNode} (h : Collides sha512Half a b) : Collides sha512Half b a := by
  obtain ⟨x, hx, y, hy, hne, heq⟩ := h
  exact ⟨y, hy, x, hx, Ne.symm hne, heq.symm⟩

theorem Collides.of_getChild {a b : SHAMapAbstractNode} {i j : Fin 16}
    (h : Collides sha512Half (a.getChild i) (b.getChild j)) : Collides sha512Half a b := by
  obtain ⟨x, hx, y, hy, hne, heq⟩ := h
  exact ⟨x, SHAMapAbstractNode.mem_messages_of_getChild sha512Half hx, y,
    SHAMapAbstractNode.mem_messages_of_getChild sha512Half hy, hne, heq⟩

namespace SHAMapAbstractNode

/-- A tree with a leaf, whose leaves are well formed, does not hash to zero. -/
theorem getNodeHash_ne_zero_of_mem_leaves (hnz : ∀ b, sha512Half b ≠ BaseUInt.zero 32) {t : SHAMapAbstractNode}
    (ht : t.LeavesReadable sha512Half) {x : SHAMapItem × TNType} (hx : x ∈ t.leaves) :
    t.getNodeHash sha512Half ≠ BaseUInt.zero 32 := by
  -- an inner node with a leaf below has a branch, so it hashes its bytes
  have hall : ∀ ch : Fin 16 → SHAMapAbstractNode, (∃ i, x ∈ (ch i).leaves) →
      ((List.finRange 16).all fun i => (ch i).isEmpty) = false := by
    rintro ch ⟨i, hi⟩
    rw [List.all_eq_false]
    refine ⟨i, List.mem_finRange i, ?_⟩
    rw [Bool.not_eq_true, isEmpty_eq_false_iff]
    rintro hci
    rw [hci] at hi
    cases hi
  cases t with
  | empty => cases hx
  | leaf it ty =>
    have hr := ht (it, ty) (List.mem_singleton_self _)
    simp [getNodeHash, hr.1, hnz]
  | inner ch => simp [getNodeHash, hall ch (mem_leaves_inner.mp hx), hnz]
  | innerV2 d c ch => simp [getNodeHash, hall ch (mem_leaves_innerV2.mp hx), hnz]

/-- The fields of a node of non-zero hash hash their prefix bytes. -/
theorem getNodeHash_eq_prefixBytes {t : SHAMapAbstractNode} {s : StoredNode} (hs : t.toStored sha512Half = some s)
    (hne : t.getNodeHash sha512Half ≠ BaseUInt.zero 32) : t.getNodeHash sha512Half = sha512Half s.prefixBytes := by
  rw [← getNodeHash_toStored sha512Half hs]
  rcases StoredNode.getNodeHash_eq_zero_or sha512Half s with hz | h
  · rw [getNodeHash_toStored sha512Half hs] at hz
    exact absurd hz hne
  · exact h

theorem isInner_of_toStored {t : SHAMapAbstractNode} {s : StoredNode} (ht : t.isInner = true)
    (hs : t.toStored sha512Half = some s) : s.isInner = true := by
  cases t <;> cases hs <;> first | rfl | cases ht

/-- Two trees of one non-zero hash have fields of the same prefix bytes, or their hashes collide. -/
theorem toStored_prefixBytes_eq_or_collides {a b : SHAMapAbstractNode} (hne : a.getNodeHash sha512Half ≠ BaseUInt.zero 32)
    (hh : a.getNodeHash sha512Half = b.getNodeHash sha512Half) :
    ∃ sa sb, a.toStored sha512Half = some sa ∧ b.toStored sha512Half = some sb ∧
      (sa.prefixBytes = sb.prefixBytes ∨ Collides sha512Half a b) := by
  have hne' : b.getNodeHash sha512Half ≠ BaseUInt.zero 32 := hh ▸ hne
  obtain ⟨sa, hsa⟩ := toStored_isSome sha512Half hne
  obtain ⟨sb, hsb⟩ := toStored_isSome sha512Half hne'
  refine ⟨sa, sb, hsa, hsb, ?_⟩
  by_cases hp : sa.prefixBytes = sb.prefixBytes
  · exact Or.inl hp
  · refine Or.inr ⟨_, prefixBytes_mem_messages sha512Half hsa, _, prefixBytes_mem_messages sha512Half hsb, hp, ?_⟩
    rw [← getNodeHash_eq_prefixBytes hsa hne, ← getNodeHash_eq_prefixBytes hsb hne', hh]

/-- Below inner nodes of one non-zero hash each branch has one hash, unless the hashes collide. -/
theorem getChild_getNodeHash_eq_or_collides {a b : SHAMapAbstractNode} (ha : a.isInner = true)
    (hne : a.getNodeHash sha512Half ≠ BaseUInt.zero 32) (hh : a.getNodeHash sha512Half = b.getNodeHash sha512Half)
    (i : Fin 16) :
    (a.getChild i).getNodeHash sha512Half = (b.getChild i).getNodeHash sha512Half ∨ Collides sha512Half a b := by
  obtain ⟨sa, sb, hsa, hsb, hp | hcol⟩ := toStored_prefixBytes_eq_or_collides hne hh
  · have hia := isInner_of_toStored ha hsa
    obtain ⟨hib, hc⟩ := StoredNode.getChildHash_eq_of_prefixBytes_eq hia hp
    left
    rw [← getChildHash_toStored sha512Half hsa i hia, ← getChildHash_toStored sha512Half hsb i hib, hc]
  · exact Or.inr hcol

/-- An inner node's step of the binding: a leaf below a branch is below the same branch of the other
tree, given that for the branches. -/
theorem mem_leaves_inner_of_getNodeHash_eq (hnz : ∀ b, sha512Half b ≠ BaseUInt.zero 32) {a : SHAMapAbstractNode}
    (ha : a.isInner = true) (hra : a.LeavesReadable sha512Half)
    (ih : ∀ i, ∀ b : SHAMapAbstractNode, b.LeavesReadable sha512Half →
      (a.getChild i).getNodeHash sha512Half = b.getNodeHash sha512Half →
      ∀ x ∈ (a.getChild i).leaves, x ∈ b.leaves ∨ Collides sha512Half (a.getChild i) b)
    {b : SHAMapAbstractNode} (hrb : b.LeavesReadable sha512Half) (hh : a.getNodeHash sha512Half = b.getNodeHash sha512Half)
    {x : SHAMapItem × TNType} (hx : x ∈ a.leaves) : x ∈ b.leaves ∨ Collides sha512Half a b := by
  have hi : ∃ i, x ∈ (a.getChild i).leaves := by
    cases a with
    | inner ch => exact mem_leaves_inner.mp hx
    | innerV2 d c ch => exact mem_leaves_innerV2.mp hx
    | empty | leaf => cases ha
  obtain ⟨i, hxi⟩ := hi
  rcases getChild_getNodeHash_eq_or_collides ha (getNodeHash_ne_zero_of_mem_leaves hnz hra hx) hh i with hci | hcol
  · rcases ih i (b.getChild i) (hrb.getChild sha512Half i) hci x hxi with hx' | hcol
    · exact Or.inl (mem_leaves_of_getChild hx')
    · exact Or.inr (Collides.of_getChild (j := i) (by simpa using hcol))
  · exact Or.inr hcol

/-- **Binding of two trees.** An item below a tree whose leaves are well formed is below every such
tree of the same hash, unless the hashes of the two collide. By induction on the tree: at a leaf the
prefix bytes fix the item, at an inner node they fix the hash of each branch. -/
theorem mem_leaves_of_getNodeHash_eq (hnz : ∀ b, sha512Half b ≠ BaseUInt.zero 32) :
    ∀ a : SHAMapAbstractNode, a.LeavesReadable sha512Half → ∀ b : SHAMapAbstractNode, b.LeavesReadable sha512Half →
      a.getNodeHash sha512Half = b.getNodeHash sha512Half → ∀ x ∈ a.leaves, x ∈ b.leaves ∨ Collides sha512Half a b := by
  intro a
  induction a with
  | empty =>
    intro _ b _ _ x hx
    cases hx
  | leaf it ty =>
    intro ha b hb hh x hx
    obtain ⟨sa, sb, hsa, hsb, hp | hcol⟩ :=
      toStored_prefixBytes_eq_or_collides (getNodeHash_ne_zero_of_mem_leaves hnz ha hx) hh
    · cases hsa
      have hsbl := StoredNode.leaf_eq_of_prefixBytes_eq (ha (it, ty) (List.mem_singleton_self _))
        (readable_toStored sha512Half hb hsb) hp
      rw [hsbl] at hsb
      rw [eq_leaf_of_toStored sha512Half hsb]
      exact Or.inl hx
    · exact Or.inr hcol
  | inner ch ih =>
    intro ha b hb hh x hx
    exact mem_leaves_inner_of_getNodeHash_eq hnz rfl ha (fun i => ih i (ha.getChild sha512Half i)) hb hh hx
  | innerV2 d c ch ih =>
    intro ha b hb hh x hx
    exact mem_leaves_inner_of_getNodeHash_eq hnz rfl ha (fun i => ih i (ha.getChild sha512Half i)) hb hh hx

/-- Two trees of one hash, whose leaves are well formed and whose hashes do not collide, have the
same leaves. -/
theorem leaves_iff_of_getNodeHash_eq (hnz : ∀ b, sha512Half b ≠ BaseUInt.zero 32) {a b : SHAMapAbstractNode}
    (ha : a.LeavesReadable sha512Half) (hb : b.LeavesReadable sha512Half)
    (hh : a.getNodeHash sha512Half = b.getNodeHash sha512Half) (hc : ¬ Collides sha512Half a b)
    (x : SHAMapItem × TNType) : x ∈ a.leaves ↔ x ∈ b.leaves :=
  ⟨fun hx => (mem_leaves_of_getNodeHash_eq hnz a ha b hb hh x hx).resolve_right hc,
    fun hx => (mem_leaves_of_getNodeHash_eq hnz b hb a ha hh.symm x hx).resolve_right fun h => hc h.symm⟩

end SHAMapAbstractNode

end Trees

/-! ## Runs of the sync calls -/

section Runs

variable (sha512Half : Blob → UInt256) (fetchNodeNT : UInt256 → Option StoredNode)
  (isFullBelow : StoredNode → Bool) (fullBelow : UInt256 → Bool)

end Runs

/-- A hash of all ones, for the runs below. -/
def onesHash : UInt256 := ⟨List.replicate 32 1, rfl⟩

theorem onesHash_ne_zero : onesHash ≠ BaseUInt.zero 32 := by decide

/-- The store of the run below: one inner node, with branch 1 only, under the hash of all ones. -/
def onesStoredInner : StoredNode := .inner (fun i => i == 1) fun _ => onesHash

end Ripple
