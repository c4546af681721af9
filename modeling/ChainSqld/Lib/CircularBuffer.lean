import Mathlib.Data.List.Basic

/-!
# Bounded histories

A circular buffer of fixed capacity keeps the last items pushed: pushing onto a full buffer drops
the oldest item, and a buffer of capacity zero stays empty (`boost::circular_buffer`). The items
are listed oldest first.

* `mem_pushBack`: an item of a buffer after a push was there before or is the one pushed;
* `mem_pushBack_self`: with room for one item the item pushed is kept.
-/

set_option autoImplicit false

/-- A buffer of at most `capacity` items, oldest first. -/
structure CircularBuffer (α : Type) where
  capacity : Nat
  items : List α
  length_le : items.length ≤ capacity

namespace CircularBuffer

variable {α : Type}

/-- An empty buffer of the given capacity. -/
def new (capacity : Nat) : CircularBuffer α := ⟨capacity, [], Nat.zero_le _⟩

/-- The buffer emptied, its capacity kept. -/
def clear (b : CircularBuffer α) : CircularBuffer α := new b.capacity

/-- `push_back`: append, dropping the oldest item when full; nothing happens at capacity zero. -/
def pushBack (b : CircularBuffer α) (x : α) : CircularBuffer α :=
  if h : b.items.length < b.capacity then
    ⟨b.capacity, b.items ++ [x], by simp only [List.length_append, List.length_singleton]; omega⟩
  else if hc : b.capacity = 0 then b
  else
    ⟨b.capacity, b.items.tail ++ [x], by
      have := b.length_le
      simp only [List.length_append, List.length_tail, List.length_singleton]
      omega⟩

@[simp] theorem capacity_pushBack (b : CircularBuffer α) (x : α) : (b.pushBack x).capacity = b.capacity := by
  unfold pushBack
  split
  · rfl
  · split <;> rfl

@[simp] theorem capacity_clear (b : CircularBuffer α) : b.clear.capacity = b.capacity := rfl

@[simp] theorem items_clear (b : CircularBuffer α) : b.clear.items = [] := rfl

theorem mem_pushBack {b : CircularBuffer α} {x y : α} (h : y ∈ (b.pushBack x).items) : y ∈ b.items ∨ y = x := by
  unfold pushBack at h
  split at h
  · simpa using h
  · split at h
    · exact Or.inl h
    · rcases List.mem_append.mp h with h | h
      · exact Or.inl (List.mem_of_mem_tail h)
      · exact Or.inr (List.mem_singleton.mp h)

theorem mem_pushBack_self (b : CircularBuffer α) (x : α) (hc : 0 < b.capacity) : x ∈ (b.pushBack x).items := by
  unfold pushBack
  split
  · simp
  · rw [dif_neg (Nat.pos_iff_ne_zero.mp hc)]
    simp

end CircularBuffer
