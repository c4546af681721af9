import Mathlib.Data.List.Nodup
import Mathlib.Data.List.Perm.Basic
import Mathlib.Logic.Function.Basic

/-!
# Keyed stores

The abstract model of a map that takes three commands, each of which reports whether it did
anything: `insert` adds a value under a key the store lacks, `erase` removes the value of a key it
holds, `replace` changes the value of a key it holds. A store is a function from keys to optional
values; a command that does not apply leaves it as it is.

A concrete system refines the store when each of its steps keeps an invariant and does to the
abstraction of its state what the corresponding command does to the store, returning what the
command returns (`run_simulation`). Inserts of distinct keys commute, so inserting a list of
entries with distinct keys gives the same store in any order (`run_insert_perm`).
-/

namespace KeyedStore

variable {κ ν : Type*} [DecidableEq κ]

/-- A command on a keyed store. -/
inductive Cmd (κ ν : Type*) where
  | insert (k : κ) (v : ν)
  | erase (k : κ)
  | replace (k : κ) (v : ν)

/-- What a command does: whether it applied, and the store after it. -/
def step (s : κ → Option ν) : Cmd κ ν → Bool × (κ → Option ν)
  | .insert k v => if (s k).isSome then (false, s) else (true, Function.update s k (some v))
  | .erase k => if (s k).isSome then (true, Function.update s k none) else (false, s)
  | .replace k v => if (s k).isSome then (true, Function.update s k (some v)) else (false, s)

/-- The store after a sequence of commands. -/
def run (s : κ → Option ν) (cmds : List (Cmd κ ν)) : κ → Option ν :=
  cmds.foldl (fun s c => (step s c).2) s

@[simp] theorem run_nil (s : κ → Option ν) : run s [] = s := rfl

@[simp] theorem run_cons (s : κ → Option ν) (c : Cmd κ ν) (cmds : List (Cmd κ ν)) :
    run s (c :: cmds) = run (step s c).2 cmds := rfl

/-- Inserts of two different keys commute. -/
theorem step_insert_comm (s : κ → Option ν) {k k' : κ} (hk : k ≠ k') (v v' : ν) :
    (step (step s (.insert k v)).2 (.insert k' v')).2 = (step (step s (.insert k' v')).2 (.insert k v)).2 := by
  by_cases h : (s k).isSome <;> by_cases h' : (s k').isSome <;>
    simp [step, h, h', Function.update_of_ne hk, Function.update_of_ne hk.symm, Function.update_comm hk]

/-- Inserting entries with distinct keys gives the same store in any order. -/
theorem run_insert_perm (s : κ → Option ν) {l l' : List (κ × ν)} (hp : l.Perm l')
    (hnd : (l.map Prod.fst).Nodup) :
    run s (l.map fun e => .insert e.1 e.2) = run s (l'.map fun e => .insert e.1 e.2) := by
  simp only [run, List.foldl_map]
  refine hp.foldl_eq' (fun x hx y hy z => ?_) s
  by_cases hxy : x.1 = y.1
  · -- two entries with one key are one entry
    rw [List.inj_on_of_nodup_map hnd hx hy hxy]
  · exact step_insert_comm z hxy x.2 y.2

/-- Forward simulation: a system whose every step, from a state that keeps `Inv`, keeps `Inv`,
returns what the command of the step returns on the abstraction of the state, and takes the
abstraction where the command takes it, keeps `Inv` along every run and is abstracted to the run
of the commands. -/
theorem run_simulation {σ ω : Type*} (apply : σ → ω → Bool × σ) (toCmd : ω → Cmd κ ν)
    (abs : σ → κ → Option ν) (Inv : σ → Prop)
    (hstep : ∀ x o, Inv x → Inv (apply x o).2 ∧ (apply x o).1 = (step (abs x) (toCmd o)).1 ∧
      abs (apply x o).2 = (step (abs x) (toCmd o)).2) :
    ∀ (ops : List ω) (x : σ), Inv x →
      Inv (ops.foldl (fun x o => (apply x o).2) x) ∧
        abs (ops.foldl (fun x o => (apply x o).2) x) = run (abs x) (ops.map toCmd) := by
  intro ops
  induction ops with
  | nil => exact fun x hx => ⟨hx, rfl⟩
  | cons o ops ih =>
    intro x hx
    obtain ⟨hinv, -, habs⟩ := hstep x o hx
    obtain ⟨hinv', habs'⟩ := ih _ hinv
    refine ⟨hinv', ?_⟩
    rw [List.foldl_cons, habs', habs]
    rfl

end KeyedStore
