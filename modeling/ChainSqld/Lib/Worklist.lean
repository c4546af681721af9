import Mathlib
import ChainSqld.Lib.StateExcept

/-!
# Worklist loops

A loop that keeps a stack of items: it pops the top item and handles it, and the handling either
stops the loop or gives the items to push, which are all handled before the rest of the stack.
Such a loop has no bound but its stack; here it is run on a number of passes, and a size of items
that what an item pushes has less of than the item shows that the size of the stack is enough
(`loop_fuel`). Handling a stack is then handling its first item, with all it pushes, and then the
rest (`run_cons`, `run_singleton`): the loop is a recursion over the items.
-/

set_option autoImplicit false

namespace Worklist

variable {α σ ε : Type} (step : α → σ → Except ε (Bool × σ × List α))

/-- The loop, given the passes left: pop the top item and handle it; stop when the handling says
so, and otherwise push what it found and go on. -/
def loop : Nat → List α → σ → Except ε (Bool × σ)
  | 0, _, s => .ok (true, s)
  | _ + 1, [], s => .ok (true, s)
  | fuel + 1, x :: stack, s => do
    let (ok, s', pushed) ← step x s
    if ok then loop fuel (pushed ++ stack) s' else pure (false, s')

/-- The result of a loop, then the loop over `rest` if it went on. -/
def andThen (rest : σ → Except ε (Bool × σ)) (r : Except ε (Bool × σ)) : Except ε (Bool × σ) :=
  r >>= fun r => if r.1 then rest r.2 else pure r

variable (size : α → Nat)

/-- Every handling that goes on pushes less than the item it handled. -/
def Shrinks : Prop :=
  ∀ x s s' pushed, step x s = .ok (true, s', pushed) → (pushed.map size).sum < size x

/-- The loop given as many passes as the size of its stack. -/
def run (stack : List α) (s : σ) : Except ε (Bool × σ) := loop step (stack.map size).sum stack s

variable {step size}

theorem loop_cons (fuel : Nat) (x : α) (stack : List α) (s : σ) :
    loop step (fuel + 1) (x :: stack) s =
      step x s >>= fun r => if r.1 then loop step fuel (r.2.2 ++ stack) r.2.1 else pure (false, r.2.1) := by
  simp only [loop]

theorem andThen_ok_true {rest : σ → Except ε (Bool × σ)} (s : σ) : andThen rest (.ok (true, s)) = rest s := rfl

theorem andThen_ok_false {rest : σ → Except ε (Bool × σ)} (s : σ) :
    andThen rest (.ok (false, s)) = .ok (false, s) := rfl

theorem run_nil (s : σ) : run step size [] s = .ok (true, s) := rfl

section Fuel

variable (hs : Shrinks step size) (hpos : ∀ x, 0 < size x)
include hs hpos

/-- **Enough passes.** Any number of passes not below the size of the stack gives one result. -/
theorem loop_fuel : ∀ (f f' : Nat) (stack : List α) (s : σ), (stack.map size).sum ≤ f →
    (stack.map size).sum ≤ f' → loop step f stack s = loop step f' stack s
  | f, f', [], s, _, _ => by cases f <;> cases f' <;> rfl
  | f, f', x :: stack, s, hf, hf' => by
    have hx := hpos x
    rw [List.map_cons, List.sum_cons] at hf hf'
    obtain ⟨g, rfl⟩ : ∃ g, f = g + 1 := ⟨f - 1, by omega⟩
    obtain ⟨g', rfl⟩ : ∃ g', f' = g' + 1 := ⟨f' - 1, by omega⟩
    rw [loop_cons, loop_cons]
    cases hstep : step x s with
    | error e => rfl
    | ok r =>
      obtain ⟨ok, s', pushed⟩ := r
      cases ok with
      | false => rfl
      | true =>
        -- what the item pushed is smaller than the item, so the passes left still suffice
        have hlt := hs x s s' pushed hstep
        have hsum : ((pushed ++ stack).map size).sum = (pushed.map size).sum + (stack.map size).sum := by
          rw [List.map_append, List.sum_append]
        exact loop_fuel g g' (pushed ++ stack) s' (by omega) (by omega)

/-- **A stack is its parts in order.** With enough passes, the loop over `l₁ ++ l₂` is the loop
over `l₁`, and then, if that went on, the loop over `l₂`. By induction on the passes: the first
item of `l₁` pushes onto `l₁`, so what it pushes is handled before `l₂`. -/
theorem loop_append : ∀ (f : Nat) (l₁ l₂ : List α) (s : σ), ((l₁ ++ l₂).map size).sum ≤ f →
    loop step f (l₁ ++ l₂) s = andThen (loop step f l₂) (loop step f l₁ s)
  | f, [], l₂, s, _ => by cases f <;> rfl
  | 0, x :: l₁, l₂, s, hf => by
    have hx := hpos x
    simp only [List.cons_append, List.map_cons, List.sum_cons] at hf
    omega
  | f + 1, x :: l₁, l₂, s, hf => by
    have hsum : ((x :: l₁ ++ l₂).map size).sum =
        size x + (l₁.map size).sum + (l₂.map size).sum := by
      simp only [List.cons_append, List.map_cons, List.sum_cons, List.map_append, List.sum_append]
      omega
    rw [List.cons_append, loop_cons, loop_cons]
    cases hstep : step x s with
    | error e => rfl
    | ok r =>
      obtain ⟨ok, s', pushed⟩ := r
      cases ok with
      | false => rfl
      | true =>
        have hlt := hs x s s' pushed hstep
        have hpush : ((pushed ++ l₁ ++ l₂).map size).sum =
            (pushed.map size).sum + (l₁.map size).sum + (l₂.map size).sum := by
          simp only [List.map_append, List.sum_append]
        show loop step f (pushed ++ (l₁ ++ l₂)) s' = andThen (loop step (f + 1) l₂) (loop step f (pushed ++ l₁) s')
        rw [← List.append_assoc, loop_append f (pushed ++ l₁) l₂ s' (by omega)]
        -- the rest is run with one pass more, which changes nothing
        have hrest : loop step f l₂ = loop step (f + 1) l₂ := by
          funext s''
          exact loop_fuel hs hpos f (f + 1) l₂ s'' (by omega) (by omega)
        rw [hrest]

/-- Running a stack runs its first item, and then, if that went on, the rest. -/
theorem run_cons (x : α) (stack : List α) (s : σ) :
    run step size (x :: stack) s = andThen (run step size stack) (run step size [x] s) := by
  unfold run
  have hx : ((x :: stack).map size).sum = size x + (stack.map size).sum := by simp
  rw [← List.singleton_append, loop_append hs hpos _ [x] stack s (Nat.le_refl _), List.singleton_append]
  have hrest : loop step ((x :: stack).map size).sum stack = loop step (stack.map size).sum stack := by
    funext s'
    exact loop_fuel hs hpos _ _ stack s' (by omega) (Nat.le_refl _)
  have hfirst : loop step ((x :: stack).map size).sum [x] s = loop step ([x].map size).sum [x] s :=
    loop_fuel hs hpos _ _ [x] s (by simp) (Nat.le_refl _)
  rw [hrest, hfirst]

/-- Running one item handles it, and then, if it went on, runs what it pushed. -/
theorem run_singleton (x : α) (s : σ) :
    run step size [x] s = step x s >>= fun r => if r.1 then run step size r.2.2 r.2.1 else pure (false, r.2.1) := by
  unfold run
  have hx := hpos x
  obtain ⟨g, hg⟩ : ∃ g, ([x].map size).sum = g + 1 := ⟨size x - 1, by simp; omega⟩
  rw [hg, loop_cons]
  cases hstep : step x s with
  | error e => rfl
  | ok r =>
    obtain ⟨ok, s', pushed⟩ := r
    cases ok with
    | false => rfl
    | true =>
      have hlt := hs x s s' pushed hstep
      simp only [List.map_cons, List.map_nil, List.sum_cons, List.sum_nil, Nat.add_zero] at hg
      show loop step g (pushed ++ []) s' = loop step (pushed.map size).sum pushed s'
      rw [List.append_nil]
      exact loop_fuel hs hpos _ _ pushed s' (by omega) (Nat.le_refl _)

end Fuel

end Worklist
