import Mathlib.Data.List.Nodup

/-!
# Successors in a list read as a ring

`nextIn d l x` is the element after `x` in `l`, and `d` when `x` is the last element (or missing).
A ring of distinct elements `h :: t` read with `d := h` wraps from its last element back to `h`.

A doubly linked ring kept in a heap is described by it: each cell's `next` is `nextIn` of its
name, and each cell's successor names it as `prev`. Unlinking an element `p` that follows `a`
changes the successor of `a` alone (`nextIn_splice`), and appending an element changes the
successor of the old last element alone (the same lemma read from right to left).
-/

set_option autoImplicit false

namespace List

variable {ι : Type*} [DecidableEq ι]

/-- The element after the first `x` in `l`, or `d` when `x` is last or missing. -/
def nextIn (d : ι) : List ι → ι → ι
  | [], _ => d
  | y :: ys, x => if x = y then ys.headD d else nextIn d ys x

@[simp] theorem nextIn_nil (d x : ι) : nextIn d [] x = d := rfl

theorem nextIn_cons_self (d y : ι) (ys : List ι) : nextIn d (y :: ys) y = ys.headD d := by
  simp [nextIn]

theorem nextIn_cons_of_ne {d y x : ι} (ys : List ι) (h : x ≠ y) : nextIn d (y :: ys) x = nextIn d ys x := by
  simp [nextIn, h]

/-- The successor is an element of the list, or the default. -/
theorem nextIn_mem (d : ι) : ∀ (l : List ι) (x : ι), nextIn d l x ∈ l ∨ nextIn d l x = d
  | [], _ => .inr rfl
  | y :: ys, x => by
    by_cases h : x = y
    · subst h
      rw [nextIn_cons_self]
      cases ys with
      | nil => exact .inr rfl
      | cons z zs => exact .inl (by simp)
    · rw [nextIn_cons_of_ne ys h]
      rcases nextIn_mem d ys x with hm | hd
      · exact .inl (mem_cons_of_mem y hm)
      · exact .inr hd

/-- In a list of distinct elements, the successor of `n` is what follows it. -/
theorem nextIn_append_cons (d : ι) {n : ι} :
    ∀ (l₁ l₂ : List ι), (l₁ ++ n :: l₂).Nodup → nextIn d (l₁ ++ n :: l₂) n = l₂.headD d
  | [], l₂, _ => nextIn_cons_self d n l₂
  | y :: l₁, l₂, hnd => by
    have hny : n ≠ y := by
      intro h
      subst h
      exact (nodup_cons.mp hnd).1 (by simp)
    rw [cons_append, nextIn_cons_of_ne _ hny]
    exact nextIn_append_cons d l₁ l₂ (nodup_cons.mp hnd).2

omit [DecidableEq ι] in
/-- An element spliced in after `a` is in no other place of the list. -/
theorem not_mem_of_nodup_splice {a p : ι} {l₁ l₂ : List ι} (h : (l₁ ++ a :: p :: l₂).Nodup) :
    p ∉ l₁ ++ a :: l₂ := by
  have h' : (p :: ((l₁ ++ [a]) ++ l₂)).Nodup := by
    rw [← nodup_middle]
    simpa using h
  simpa using (nodup_cons.mp h').1

/-- Removing `p` from after `a` changes the successor of `a` alone. -/
theorem nextIn_splice (d : ι) {a p x : ι} :
    ∀ (l₁ l₂ : List ι), (l₁ ++ a :: p :: l₂).Nodup → x ∈ l₁ ++ a :: l₂ → x ≠ a →
      nextIn d (l₁ ++ a :: p :: l₂) x = nextIn d (l₁ ++ a :: l₂) x
  | [], l₂, hnd, hx, hxa => by
    -- past `a`, the two lists differ by `p`, which `x` is not
    have hxp : x ≠ p := by
      rintro rfl
      have hx' : x ∈ l₂ := by simpa [hxa] using hx
      simp_all
    simp only [nil_append]
    rw [nextIn_cons_of_ne _ hxa, nextIn_cons_of_ne _ hxa, nextIn_cons_of_ne _ hxp]
  | y :: l₁, l₂, hnd, hx, hxa => by
    simp only [cons_append] at hnd hx ⊢
    by_cases hxy : x = y
    · subst hxy
      rw [nextIn_cons_self, nextIn_cons_self]
      cases l₁ <;> rfl
    · rw [nextIn_cons_of_ne _ hxy, nextIn_cons_of_ne _ hxy]
      exact nextIn_splice d l₁ l₂ (nodup_cons.mp hnd).2 ((mem_cons.mp hx).resolve_left hxy) hxa

end List
