import Mathlib.Logic.Function.Basic
import Mathlib.Data.List.Basic

/-!
# Fixed-size records in a string

A table of equally long records written end to end, as a serializer writes an array of
fixed-width values: the record at index `i` starts `i * k` into the string
(`drop_flatMap_mul`, `drop_flatMap_getElem`), so a reader that seeks there finds it.

A reader that fills a table by updating one slot per record it reads, starting from a table of
defaults, leaves each slot named by some record at that record's value and every other slot at its
default (`foldl_update_apply`); when it fills two tables at once, each is the fold of its own
updates (`foldl_prodMk`). Reading record `i` for each `i` below the record count visits the records
in order (`foldl_range_getD`).
-/

namespace Records

variable {α β γ : Type*}

/-! ## Offsets -/

/-- Records of length `k` laid end to end take `k` bytes each. -/
theorem length_flatMap_of_length (f : α → List β) {k : Nat} :
    ∀ xs : List α, (∀ x ∈ xs, (f x).length = k) → (xs.flatMap f).length = xs.length * k
  | [], _ => by simp
  | x :: xs, h => by
    have hx : (f x).length = k := h x List.mem_cons_self
    rw [List.flatMap_cons, List.length_append, hx,
      length_flatMap_of_length f xs fun y hy => h y (List.mem_cons_of_mem x hy), List.length_cons,
      Nat.add_mul, Nat.one_mul, Nat.add_comm]

/-- The records from index `i` on start `i * k` into the string. -/
theorem drop_flatMap_mul (f : α → List β) {k : Nat} :
    ∀ xs : List α, (∀ x ∈ xs, (f x).length = k) → ∀ i, (xs.flatMap f).drop (i * k) = (xs.drop i).flatMap f
  | [], _, i => by simp
  | x :: xs, _, 0 => by simp
  | x :: xs, h, i + 1 => by
    have hx : (f x).length = k := h x List.mem_cons_self
    -- skip the first record whole, then the next `i`
    have hoff : (i + 1) * k = (f x).length + i * k := by rw [hx, Nat.add_mul, Nat.one_mul, Nat.add_comm]
    rw [List.flatMap_cons, hoff, ← List.drop_drop, List.drop_left, List.drop_succ_cons]
    exact drop_flatMap_mul f xs (fun y hy => h y (List.mem_cons_of_mem x hy)) i

/-- Record `i` starts `i * k` into the string, the records after it follow. -/
theorem drop_flatMap_getElem (f : α → List β) {k : Nat} {xs : List α} (h : ∀ x ∈ xs, (f x).length = k)
    {i : Nat} (hi : i < xs.length) :
    (xs.flatMap f).drop (i * k) = f xs[i] ++ (xs.drop (i + 1)).flatMap f := by
  rw [drop_flatMap_mul f xs h i, List.drop_eq_getElem_cons hi, List.flatMap_cons]

/-! ## Filling a table -/

/-- After updating slot `i` to `g i` for each `i` of a list, a slot holds `g` of it if the list
names it, and its starting value otherwise. -/
theorem foldl_update_apply [DecidableEq α] (g : α → β) :
    ∀ (l : List α) (z : α → β) (a : α),
      l.foldl (fun f i => Function.update f i (g i)) z a = if a ∈ l then g a else z a
  | [], z, a => by simp
  | b :: l, z, a => by
    rw [List.foldl_cons, foldl_update_apply g l]
    by_cases hl : a ∈ l
    · simp [hl]
    · by_cases hab : a = b
      · subst hab
        simp
      · simp [hl, hab]

/-- A fold that updates two tables at once is the pair of the folds of each. -/
theorem foldl_prodMk (F : β → α → β) (G : γ → α → γ) :
    ∀ (l : List α) (z : β × γ), l.foldl (fun acc a => (F acc.1 a, G acc.2 a)) z = (l.foldl F z.1, l.foldl G z.2)
  | [], _ => rfl
  | a :: l, z => foldl_prodMk F G l (F z.1 a, G z.2 a)

/-- Reading record `i` for each `i` below the count visits the records in order. -/
theorem foldl_range_getD (g : β → α → β) (d : α) (xs : List α) (z : β) :
    (List.range xs.length).foldl (fun acc i => g acc (xs.getD i d)) z = xs.foldl g z := by
  have hmap : (List.range xs.length).map (fun i => xs.getD i d) = xs := by
    apply List.ext_getElem (by simp)
    intro i h₁ h₂
    simp [List.getElem?_eq_getElem h₂]
  conv_rhs => rw [← hmap]
  rw [List.foldl_map]

end Records
