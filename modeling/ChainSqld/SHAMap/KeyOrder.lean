import ChainSqld.SHAMap.Invariants

/-!
# The order of keys

`compare` of `base_uint.h` finds the first byte where two values differ (`std::mismatch`) and
orders them by it. Read on nibbles it is the lexicographic order `LexBelow` of `Lib.Prefix`
(`BaseUInt.lt_iff_lexBelow`): among keys that share a node's prefix, a key in an earlier branch is
the smaller (`BaseUInt.lt_of_agreeBelow`). So the leaves of a canonical tree, read branch by
branch, come in increasing key order (`WF1.ascending`, `WF2.ascending`, `Invariants.ascending`).
-/

namespace Ripple

open Prefix

namespace BaseUInt

variable {n : Nat}

/-- `compare` on the bytes from the most significant: the first byte where they differ decides. -/
def compareBytes : List UInt8 → List UInt8 → Ordering
  | x :: xs, y :: ys => if x = y then compareBytes xs ys else if x > y then .gt else .lt
  | _, _ => .eq

/-- `compare (base_uint const&, base_uint const&)`. -/
def compare (a b : BaseUInt n) : Ordering := compareBytes a.data b.data

instance : LT (BaseUInt n) := ⟨fun a b => a.compare b = .lt⟩

instance (a b : BaseUInt n) : Decidable (a < b) := inferInstanceAs (Decidable (a.compare b = .lt))

/-- `compareBytes` returns `lt` when the lists agree up to a byte where the first is smaller. -/
theorem compareBytes_eq_lt : ∀ (xs ys : List UInt8), xs.length = ys.length →
    (compareBytes xs ys = .lt ↔
      ∃ i < xs.length, AgreeBelow i (xs.getD · 0) (ys.getD · 0) ∧ xs.getD i 0 < ys.getD i 0)
  | [], [], _ => by simp [compareBytes]
  | x :: xs, y :: ys, h => by
    have ih := compareBytes_eq_lt xs ys (by simpa using h)
    simp only [compareBytes, List.length_cons]
    by_cases hxy : x = y
    · subst hxy
      rw [if_pos rfl, ih]
      constructor
      · rintro ⟨i, hi, hag, hlt⟩
        refine ⟨i + 1, by omega, fun j hj => ?_, by simpa using hlt⟩
        cases j with
        | zero => rfl
        | succ j => simpa using hag j (by omega)
      · rintro ⟨i, hi, hag, hlt⟩
        cases i with
        | zero => simp at hlt
        | succ i =>
          exact ⟨i, by omega, fun j hj => by simpa using hag (j + 1) (by omega), by simpa using hlt⟩
    · rw [if_neg hxy]
      have hxy' : x.toNat ≠ y.toNat := fun h => hxy (UInt8.toNat_inj.mp h)
      constructor
      · intro hlt
        split_ifs at hlt with hgt
        refine ⟨0, by omega, AgreeBelow.zero _ _, ?_⟩
        simp only [List.getD_cons_zero, UInt8.lt_iff_toNat_lt] at hgt ⊢
        omega
      · rintro ⟨i, -, hag, hlt⟩
        cases i with
        | zero =>
          simp only [List.getD_cons_zero, UInt8.lt_iff_toNat_lt] at hlt
          rw [if_neg (by simp only [gt_iff_lt, UInt8.lt_iff_toNat_lt]; omega)]
        | succ i => exact absurd (by simpa using hag 0 (by omega)) hxy

theorem lt_iff_byteAt {a b : BaseUInt n} :
    a < b ↔ ∃ i < n, AgreeBelow i a.byteAt b.byteAt ∧ a.byteAt i < b.byteAt i := by
  show a.compare b = .lt ↔ _
  rw [compare, compareBytes_eq_lt _ _ (a.size_eq.trans b.size_eq.symm), a.size_eq]
  rfl

/-- Bytes agree below `i` exactly when nibbles agree below `2 * i`. -/
theorem agreeBelow_byteAt_iff {a b : BaseUInt n} {i : Nat} :
    AgreeBelow i a.byteAt b.byteAt ↔ AgreeBelow (2 * i) a.nibble b.nibble := by
  constructor
  · intro h j hj
    obtain ⟨k, rfl | rfl⟩ := Nat.even_or_odd' j
    · exact (byteAt_eq_iff_nibble.mp (h k (by omega))).1
    · exact (byteAt_eq_iff_nibble.mp (h k (by omega))).2
  · intro h j hj
    exact byteAt_eq_iff_nibble.mpr ⟨h _ (by omega), h _ (by omega)⟩

/-- **`compare` is the lexicographic order of the nibbles.** -/
theorem lt_iff_lexBelow {a b : BaseUInt n} : a < b ↔ LexBelow (2 * n) a.nibble b.nibble := by
  rw [lt_iff_byteAt]
  constructor
  · rintro ⟨i, hi, hag, hlt⟩
    have hag' := agreeBelow_byteAt_iff.mp hag
    have hhi := nibble_even a i
    have hhi' := nibble_even b i
    have hlo := nibble_odd a i
    have hlo' := nibble_odd b i
    rw [UInt8.lt_iff_toNat_lt] at hlt
    by_cases hhigh : (a.byteAt i).toNat / 16 < (b.byteAt i).toNat / 16
    · exact ⟨2 * i, by omega, hag', Fin.lt_def.mpr (by omega)⟩
    · -- the high nibbles are equal, so the low ones decide
      have heq : a.nibble (2 * i) = b.nibble (2 * i) := Fin.ext (by omega)
      exact ⟨2 * i + 1, by omega, agreeBelow_succ_iff.mpr ⟨hag', heq⟩, Fin.lt_def.mpr (by omega)⟩
  · rintro ⟨d, hd, hag, hlt⟩
    rw [Fin.lt_def] at hlt
    obtain ⟨k, rfl | rfl⟩ := Nat.even_or_odd' d
    · refine ⟨k, by omega, agreeBelow_byteAt_iff.mpr hag, ?_⟩
      rw [nibble_even, nibble_even] at hlt
      rw [UInt8.lt_iff_toNat_lt]
      omega
    · refine ⟨k, by omega, agreeBelow_byteAt_iff.mpr (hag.mono (by omega)), ?_⟩
      have hhigh := congrArg Fin.val (hag (2 * k) (by omega))
      rw [nibble_even, nibble_even] at hhigh
      rw [nibble_odd, nibble_odd] at hlt
      rw [UInt8.lt_iff_toNat_lt]
      omega

theorem lt_irrefl (a : BaseUInt n) : ¬a < a := by
  rw [lt_iff_lexBelow]
  exact LexBelow.irrefl _

theorem lt_trans {a b c : BaseUInt n} (hab : a < b) (hbc : b < c) : a < c := by
  rw [lt_iff_lexBelow] at *
  exact hab.trans hbc

theorem lt_asymm {a b : BaseUInt n} (hab : a < b) : ¬b < a := fun hba => lt_irrefl a (lt_trans hab hba)

theorem lt_trichotomy (a b : BaseUInt n) : a < b ∨ a = b ∨ b < a := by
  simp only [lt_iff_lexBelow]
  rcases LexBelow.trichotomy (2 * n) a.nibble b.nibble with h | h | h
  · exact Or.inr (Or.inl (eq_of_nibble h))
  · exact Or.inl h
  · exact Or.inr (Or.inr h)

/-- Among keys that agree below `d`, the nibble at `d` decides. -/
theorem lt_of_agreeBelow {x y : UInt256} {d : Nat} (hag : AgreeBelow d x.nibble y.nibble)
    (hlt : x.nibble d < y.nibble d) : x < y := by
  rw [lt_iff_lexBelow]
  refine ⟨d, ?_, hag, hlt⟩
  by_contra hd
  rw [nibble_of_le x (by omega), nibble_of_le y (by omega)] at hlt
  exact absurd hlt (Fin.lt_irrefl 0)

end BaseUInt

namespace SHAMapAbstractNode

/-- Items in strictly increasing key order. -/
def Ascending (l : List (SHAMapItem × TNType)) : Prop := l.Pairwise fun x y => x.1.tag < y.1.tag

/-- An inner node whose leaves share their first `d` nibbles and are routed by nibble `d` lists
them in increasing order if each child does. -/
theorem ascending_of_routed {d : Nat} {ch : Fin 16 → SHAMapAbstractNode} (hr : Routed d ch)
    (hag : ∀ x ∈ (inner ch).leaves, ∀ y ∈ (inner ch).leaves, AgreeBelow d x.1.tag.nibble y.1.tag.nibble)
    (hch : ∀ b, Ascending (ch b).leaves) : Ascending (inner ch).leaves := by
  refine List.pairwise_flatMap.mpr ⟨fun b _ => hch b, (List.pairwise_lt_finRange 16).imp ?_⟩
  intro i j hij x hx y hy
  refine BaseUInt.lt_of_agreeBelow (hag x (mem_leaves_inner.mpr ⟨i, hx⟩) y (mem_leaves_inner.mpr ⟨j, hy⟩)) ?_
  rw [hr i x hx, hr j y hy]
  exact hij

/-- The leaves of a child share one more nibble than those of its parent: the branch. -/
theorem agreeBelow_succ_of_mem {d : Nat} {ch : Fin 16 → SHAMapAbstractNode} (hr : Routed d ch)
    (hag : ∀ x ∈ (inner ch).leaves, ∀ y ∈ (inner ch).leaves, AgreeBelow d x.1.tag.nibble y.1.tag.nibble)
    (b : Fin 16) : ∀ x ∈ (ch b).leaves, ∀ y ∈ (ch b).leaves, AgreeBelow (d + 1) x.1.tag.nibble y.1.tag.nibble :=
  fun x hx y hy => agreeBelow_succ_iff.mpr
    ⟨hag x (mem_leaves_inner.mpr ⟨b, hx⟩) y (mem_leaves_inner.mpr ⟨b, hy⟩), (hr b x hx).trans (hr b y hy).symm⟩

theorem WF1.ascending {d : Nat} {t : SHAMapAbstractNode} (h : WF1 d t)
    (hag : ∀ x ∈ t.leaves, ∀ y ∈ t.leaves, AgreeBelow d x.1.tag.nibble y.1.tag.nibble) :
    Ascending t.leaves := by
  induction h with
  | empty => exact List.Pairwise.nil
  | leaf => exact List.pairwise_singleton _ _
  | inner _ hr _ ih => exact ascending_of_routed hr hag fun b => ih b (agreeBelow_succ_of_mem hr hag b)

theorem WF2.ascending {t : SHAMapAbstractNode} (h : WF2 t) : Ascending t.leaves := by
  induction h with
  | empty => exact List.Pairwise.nil
  | leaf => exact List.pairwise_singleton _ _
  | @innerV2 d c ch _ hr hc _ ih =>
    rw [leaves_innerV2]
    refine ascending_of_routed hr (fun x hx y hy => ?_) ih
    rw [← leaves_innerV2 d c] at hx hy
    exact agreeBelow_of_keyPrefix (hc x hx) (hc y hy)

end SHAMapAbstractNode

namespace SHAMap

open SHAMapAbstractNode

/-- The leaves of a map come in increasing key order. -/
theorem Invariants.ascending {m : SHAMap} (h : m.Invariants) : Ascending m.root.leaves := by
  rcases h with ⟨ch, hroot, hw, hr⟩ | ⟨ch, hroot, hw, hr⟩
  · have hag : ∀ x ∈ (inner ch).leaves, ∀ y ∈ (inner ch).leaves, AgreeBelow 0 x.1.tag.nibble y.1.tag.nibble :=
      fun _ _ _ _ => AgreeBelow.zero _ _
    rw [hroot]
    exact ascending_of_routed hr hag fun b => (hw b).ascending (agreeBelow_succ_of_mem hr hag b)
  · rw [hroot, leaves_innerV2]
    exact ascending_of_routed hr (fun _ _ _ _ => AgreeBelow.zero _ _) fun b => (hw b).ascending

end SHAMap

end Ripple
