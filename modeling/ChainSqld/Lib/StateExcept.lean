import Mathlib.Control.Monad.Basic
import Mathlib.Data.List.Forall2

/-!
# Running `Except` and `StateT σ (Except ε)` computations

Readers that consume input and may fail are `StateT σ (Except ε)` computations. A proof about
one runs it step by step: once a step is known to succeed on the current state (`run_bind_ok`) the
rest continues from the state it leaves, and a failing step ends the run (`run_bind_error`).
-/

set_option autoImplicit false

namespace List

/-- An element on the right of a pointwise relation is related to one on the left. -/
theorem Forall₂.exists_of_mem_right {α β : Type _} {R : α → β → Prop} {l : List α} {l' : List β} {b : β}
    (h : Forall₂ R l l') (hb : b ∈ l') : ∃ a ∈ l, R a b := by
  induction h with
  | nil => simp at hb
  | @cons a b' l l' ha _ ih =>
    rcases mem_cons.mp hb with rfl | hb
    · exact ⟨a, mem_cons_self, ha⟩
    · obtain ⟨a', ha', hr⟩ := ih hb
      exact ⟨a', mem_cons_of_mem a ha', hr⟩

end List

namespace Except

variable {ε α β : Type}

@[simp] theorem pure_eq_ok (a : α) : (pure a : Except ε α) = .ok a := rfl

@[simp] theorem ok_bind (a : α) (f : α → Except ε β) : (Except.ok a >>= f) = f a := rfl

@[simp] theorem error_bind (e : ε) (f : α → Except ε β) : (Except.error e >>= f) = .error e := rfl

@[simp] theorem toOption_ok (a : α) : (Except.ok a : Except ε α).toOption = some a := rfl

@[simp] theorem toOption_error (e : ε) : (Except.error e : Except ε α).toOption = none := rfl

theorem toOption_eq_some {x : Except ε α} {a : α} : x.toOption = some a ↔ x = .ok a := by
  cases x <;> simp

theorem toOption_eq_none {x : Except ε α} : x.toOption = none ↔ ∃ e, x = .error e := by
  cases x <;> simp

/-- Forgetting the error of a sequence forgets it at the step that failed. -/
theorem toOption_bind (x : Except ε α) (f : α → Except ε β) :
    (x >>= f).toOption = x.toOption.bind fun a => (f a).toOption := by
  cases x <;> rfl

theorem bind_eq_ok {x : Except ε α} {f : α → Except ε β} {b : β} (h : (x >>= f) = .ok b) :
    ∃ a, x = .ok a ∧ f a = .ok b := by
  cases x with
  | error e => cases h
  | ok a => exact ⟨a, rfl, h⟩

/-- A fold whose every step succeeds is the plain fold of what the steps return. -/
theorem foldlM_eq_ok {f : β → α → Except ε β} {g : β → α → β} :
    ∀ {l : List α}, (∀ b, ∀ a ∈ l, f b a = .ok (g b a)) → ∀ z, l.foldlM f z = .ok (l.foldl g z)
  | [], _, _ => rfl
  | a :: l, h, z => by
    rw [List.foldlM_cons, h z a List.mem_cons_self, ok_bind]
    exact foldlM_eq_ok (fun b a' ha' => h b a' (List.mem_cons_of_mem a ha')) (g z a)

@[simp] theorem throw_bind (e : ε) (f : α → Except ε β) : (throw e >>= f) = .error e := rfl

/-- A check that throws when `c` holds passes exactly when `c` fails. -/
@[simp] theorem throw_if_eq_ok {c : Bool} {e : ε} :
    ((if c = true then throw e else pure ()) : Except ε Unit) = .ok () ↔ c = false := by
  cases c <;> simp [throw, throwThe, MonadExceptOf.throw, pure, Except.pure]

/-- A `mapM` that succeeds succeeded on each element, in order. -/
theorem mapM_eq_ok {f : α → Except ε β} :
    ∀ {l : List α} {l' : List β}, l.mapM f = .ok l' → List.Forall₂ (fun a b => f a = .ok b) l l'
  | [], l', h => by
    simp only [List.mapM_nil] at h
    cases h
    exact .nil
  | a :: l, l', h => by
    rw [List.mapM_cons] at h
    obtain ⟨b, hb, h⟩ := bind_eq_ok h
    obtain ⟨bs, hbs, h⟩ := bind_eq_ok h
    cases h
    exact .cons hb (mapM_eq_ok hbs)

/-- A `mapM` whose every step succeeds succeeds. -/
theorem exists_mapM_eq_ok {f : α → Except ε β} :
    ∀ {l : List α}, (∀ a ∈ l, ∃ b, f a = .ok b) → ∃ l', l.mapM f = .ok l'
  | [], _ => ⟨[], rfl⟩
  | a :: l, h => by
    obtain ⟨b, hb⟩ := h a List.mem_cons_self
    obtain ⟨l', hl'⟩ := exists_mapM_eq_ok fun x hx => h x (List.mem_cons_of_mem a hx)
    refine ⟨b :: l', ?_⟩
    rw [List.mapM_cons, hb, ok_bind, hl', ok_bind]
    rfl

/-- Every result of a successful `mapM` comes from an element of the input. -/
theorem mem_of_mapM_eq_ok {f : α → Except ε β} {l : List α} {l' : List β} {b : β}
    (h : l.mapM f = .ok l') (hb : b ∈ l') : ∃ a ∈ l, f a = .ok b :=
  (mapM_eq_ok h).exists_of_mem_right hb

/-- A table built by `mapM` pairs each key with what the step returned for it. -/
theorem lookup_mapM_pair [BEq α] [LawfulBEq α] {g : α → Except ε β} {ks : List α} {l : List (α × β)}
    (h : ks.mapM (fun k => do pure (k, ← g k)) = .ok l) {k : α} {b : β} (hk : l.lookup k = some b) :
    k ∈ ks ∧ g k = .ok b := by
  have hall := mapM_eq_ok h
  clear h
  induction hall with
  | nil => simp at hk
  | @cons k' p ks ps hp _ ih =>
    obtain ⟨b', hb', hp⟩ := bind_eq_ok hp
    cases hp
    by_cases hkk : k = k'
    · subst hkk
      simp only [List.lookup_cons_self, Option.some.injEq] at hk
      exact ⟨List.mem_cons_self, hk ▸ hb'⟩
    · rw [List.lookup_cons, beq_false_of_ne hkk] at hk
      exact ⟨List.mem_cons_of_mem k' (ih hk).1, (ih hk).2⟩

/-- The keys of a table built by `mapM` are the keys it was built from. -/
theorem keys_mapM_pair {g : α → Except ε β} {ks : List α} {l : List (α × β)}
    (h : ks.mapM (fun k => do pure (k, ← g k)) = .ok l) : l.map Prod.fst = ks := by
  have hall := mapM_eq_ok h
  clear h
  induction hall with
  | nil => rfl
  | @cons k' p ks ps hp _ ih =>
    obtain ⟨b', _, hp⟩ := bind_eq_ok hp
    cases hp
    simp [ih]

/-- A `forM` that succeeds succeeded on each element. -/
theorem forM_eq_ok {f : α → Except ε PUnit} :
    ∀ {l : List α}, l.forM f = .ok () → ∀ a ∈ l, f a = .ok ()
  | [], _, a, ha => absurd ha List.not_mem_nil
  | b :: l, h, a, ha => by
    obtain ⟨u, hb, h⟩ := bind_eq_ok (show (f b >>= fun _ => l.forM f) = .ok () from h)
    rcases List.mem_cons.mp ha with rfl | ha
    · exact hb
    · exact forM_eq_ok h a ha

/-! ## Runs of a fallible step -/

section Runs

variable {μ : Type} (f : β → α → Except ε β)

/-- Each call of a run is made within its contract `E`, from the state the calls before it left. -/
def ValidFold (E : β → α → Prop) : β → List α → Prop
  | _, [] => True
  | b, a :: l => E b a ∧ ∀ b', f b a = .ok b' → ValidFold E b' l

variable {f}

/-- **Forward simulation.** If every call within its contract succeeds and keeps the states
related, a run of such calls succeeds, ending related to the pure run of the same calls. -/
theorem foldlM_simulate {E : β → α → Prop} {R : β → μ → Prop} {g : μ → α → μ}
    (hstep : ∀ b c a, R b c → E b a → ∃ b', f b a = .ok b' ∧ R b' (g c a)) :
    ∀ (l : List α) (b : β) (c : μ), R b c → ValidFold f E b l → ∃ b', l.foldlM f b = .ok b' ∧ R b' (l.foldl g c)
  | [], b, _, hr, _ => ⟨b, rfl, hr⟩
  | a :: l, b, c, hr, ⟨he, hv⟩ => by
    obtain ⟨b', hb', hr'⟩ := hstep b c a hr he
    rw [List.foldlM_cons, hb', ok_bind]
    exact foldlM_simulate hstep l b' (g c a) hr' (hv b' hb')

end Runs

end Except

namespace StateT

variable {σ ε α β : Type} {x : StateT σ (Except ε) α} {f : α → StateT σ (Except ε) β} {s s' : σ}

theorem run_bind_ok {a : α} (h : x.run s = .ok (a, s')) : (x >>= f).run s = (f a).run s' := by
  simp only [StateT.run_bind, h]
  rfl

theorem run_bind_error {e : ε} (h : x.run s = .error e) : (x >>= f).run s = .error e := by
  simp only [StateT.run_bind, h]
  rfl

/-- A run that succeeds went through a successful first step. -/
theorem run_bind_eq_ok {b : β} {s'' : σ} (h : (x >>= f).run s = .ok (b, s'')) :
    ∃ a s', x.run s = .ok (a, s') ∧ (f a).run s' = .ok (b, s'') := by
  rw [StateT.run_bind] at h
  obtain ⟨⟨a, s'⟩, hx, hf⟩ := Except.bind_eq_ok h
  exact ⟨a, s', hx, hf⟩

@[simp] theorem run_pure_except (a : α) : (pure a : StateT σ (Except ε) α).run s = .ok (a, s) := rfl

@[simp] theorem run_lift_ok (a : α) :
    (liftM (Except.ok a : Except ε α) : StateT σ (Except ε) α).run s = .ok (a, s) := rfl

@[simp] theorem run_lift_error (e : ε) :
    (liftM (Except.error e : Except ε α) : StateT σ (Except ε) α).run s = .error e := rfl

theorem run_lift_eq_ok {e : Except ε α} {a : α} (h : (liftM e : StateT σ (Except ε) α).run s = .ok (a, s')) :
    e = .ok a ∧ s' = s := by
  cases e with
  | error e => cases h
  | ok b =>
    simp only [run_lift_ok, Except.ok.injEq, Prod.mk.injEq] at h
    obtain ⟨rfl, rfl⟩ := h
    exact ⟨rfl, rfl⟩

@[simp] theorem run_throw_except (e : ε) : (throw e : StateT σ (Except ε) α).run s = .error e := rfl

end StateT
