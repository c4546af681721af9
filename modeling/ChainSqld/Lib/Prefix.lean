import Mathlib.Order.Lattice

/-!
# Sequences that agree below an index

Digit strings, such as the nibbles of a key read from the most significant end, are modelled as
functions `ℕ → α`. `AgreeBelow n f g` says that `f` and `g` share their first `n` digits.

- the relation is an equivalence for each `n` and shrinks as `n` grows (`AgreeBelow.mono`);
- one more shared digit extends it (`agreeBelow_succ_iff`);
- agreement stops at the first difference (`AgreeBelow.le_of_ne`), which is what makes the depth of
  a compressed trie node a function of the keys below it;
- `LexBelow n f g`, the lexicographic order on the first `n` digits, is a strict order
  (`LexBelow.irrefl`, `LexBelow.trans`) in which any two strings are equal up to `n` or ordered
  (`LexBelow.trichotomy`), and it is decided at the first difference (`LexBelow.of_not_agree`).
-/

namespace Prefix

variable {α : Type*}

/-- `f` and `g` agree on every index below `n`. -/
def AgreeBelow (n : ℕ) (f g : ℕ → α) : Prop := ∀ i < n, f i = g i

instance [DecidableEq α] (n : ℕ) (f g : ℕ → α) : Decidable (AgreeBelow n f g) :=
  inferInstanceAs (Decidable (∀ i < n, f i = g i))

namespace AgreeBelow

variable {n m : ℕ} {f g h : ℕ → α}

@[refl] theorem refl (n : ℕ) (f : ℕ → α) : AgreeBelow n f f := fun _ _ => rfl

@[symm] theorem symm (hfg : AgreeBelow n f g) : AgreeBelow n g f := fun i hi => (hfg i hi).symm

@[trans] theorem trans (hfg : AgreeBelow n f g) (hgh : AgreeBelow n g h) : AgreeBelow n f h :=
  fun i hi => (hfg i hi).trans (hgh i hi)

theorem mono (hmn : m ≤ n) (hfg : AgreeBelow n f g) : AgreeBelow m f g :=
  fun i hi => hfg i (Nat.lt_of_lt_of_le hi hmn)

theorem zero (f g : ℕ → α) : AgreeBelow 0 f g := fun _ hi => absurd hi (Nat.not_lt_zero _)

/-- Agreement stops at the first difference. -/
theorem le_of_ne (hm : AgreeBelow m f g) (hne : f n ≠ g n) : m ≤ n :=
  Nat.le_of_not_lt fun hlt => hne (hm n hlt)

end AgreeBelow

theorem agreeBelow_succ_iff {n : ℕ} {f g : ℕ → α} :
    AgreeBelow (n + 1) f g ↔ AgreeBelow n f g ∧ f n = g n := by
  constructor
  · intro h
    exact ⟨h.mono (Nat.le_succ n), h n (Nat.lt_succ_self n)⟩
  · rintro ⟨h, hn⟩ i hi
    rcases Nat.lt_succ_iff_lt_or_eq.mp hi with hi | rfl
    · exact h i hi
    · exact hn

/-! ## The lexicographic order -/

/-- `f` comes before `g` in the first `n` digits: they agree below some `d < n`, where `f` is
smaller. -/
def LexBelow [LT α] (n : ℕ) (f g : ℕ → α) : Prop := ∃ d < n, AgreeBelow d f g ∧ f d < g d

namespace LexBelow

variable [LinearOrder α] {n m : ℕ} {f g h : ℕ → α}

theorem irrefl (f : ℕ → α) : ¬LexBelow n f f := fun ⟨_, _, _, hlt⟩ => lt_irrefl _ hlt

theorem trans (hfg : LexBelow n f g) (hgh : LexBelow n g h) : LexBelow n f h := by
  obtain ⟨d, hd, hag, hlt⟩ := hfg
  obtain ⟨e, he, hag', hlt'⟩ := hgh
  rcases Nat.lt_trichotomy d e with hde | rfl | hed
  · exact ⟨d, hd, hag.trans (hag'.mono (Nat.le_of_lt hde)), hlt.trans_eq (hag' d hde)⟩
  · exact ⟨d, hd, hag.trans hag', hlt.trans hlt'⟩
  · exact ⟨e, he, (hag.mono (Nat.le_of_lt hed)).trans hag', (hag e hed).trans_lt hlt'⟩

theorem mono (hmn : m ≤ n) (hfg : LexBelow m f g) : LexBelow n f g :=
  let ⟨d, hd, hag, hlt⟩ := hfg
  ⟨d, Nat.lt_of_lt_of_le hd hmn, hag, hlt⟩

/-- Two strings share their first `n` digits, or one of them comes first. -/
theorem trichotomy (n : ℕ) (f g : ℕ → α) : AgreeBelow n f g ∨ LexBelow n f g ∨ LexBelow n g f := by
  induction n with
  | zero => exact Or.inl (AgreeBelow.zero f g)
  | succ n ih =>
    rcases ih with hag | hfg | hgf
    · rcases lt_trichotomy (f n) (g n) with hlt | heq | hgt
      · exact Or.inr (Or.inl ⟨n, Nat.lt_succ_self n, hag, hlt⟩)
      · exact Or.inl (agreeBelow_succ_iff.mpr ⟨hag, heq⟩)
      · exact Or.inr (Or.inr ⟨n, Nat.lt_succ_self n, hag.symm, hgt⟩)
    · exact Or.inr (Or.inl (hfg.mono (Nat.le_succ n)))
    · exact Or.inr (Or.inr (hgf.mono (Nat.le_succ n)))

/-- Strings that part before `m` are ordered by their first `m` digits. -/
theorem of_not_agree (hmn : m ≤ n) (hne : ¬AgreeBelow m f g) : LexBelow n f g ↔ LexBelow m f g := by
  refine ⟨fun ⟨d, hd, hag, hlt⟩ => ?_, mono hmn⟩
  by_cases hdm : d < m
  · exact ⟨d, hdm, hag, hlt⟩
  · exact absurd (hag.mono (Nat.le_of_not_lt hdm)) hne

/-- The order of the first `m` digits depends only on them. -/
theorem congr_right (hgh : AgreeBelow m g h) (hfg : LexBelow m f g) : LexBelow m f h :=
  let ⟨d, hd, hag, hlt⟩ := hfg
  ⟨d, hd, hag.trans (hgh.mono (Nat.le_of_lt hd)), hlt.trans_eq (hgh d hd)⟩

end LexBelow

end Prefix
