import Mathlib.Data.Nat.Basic
import ChainSqld.Lib.StateExcept
import ChainSqld.Ledger.StateTableSles

/-!
# Runs of the state tables refine a map

A table over a ledger shows a map from keys to entries (`view`). Started empty over a base whose
entries are under their own keys, a run of calls each made within its contract succeeds, and the
table then shows the base's map with the same changes made (`runMap`). Reads, `succ`, `apply` and
the `sles` iteration see that map, and so does `exists` for a keylet that accepts the entry there
(`ApplyStateTable.Shows`, `RawStateTable.Shows`). For a keylet of another type `exists` answers
from the table's history, not from the map.
-/

set_option autoImplicit false

namespace Ripple

open Except

variable {K D : Type} [LinearOrder K]

/-- The map a table refines. -/
abbrev EntryMap (K D : Type) := K → Option (SLE K D)

/-! ## `ApplyStateTable` -/

/-- A call on an `ApplyView`'s table. -/
inductive ApplyOp (K D : Type) where
  | peek (k : Keylet K D)
  | insert (sle : SLE K D)
  | update (sle : SLE K D)
  | erase (sle : SLE K D)
  | replace (sle : SLE K D)
  | rawErase (sle : SLE K D)

namespace ApplyOp

/-- The call, on the table over `base`. -/
def apply (base : ReadView K D) (t : ApplyStateTable K D) : ApplyOp K D → Except String (ApplyStateTable K D)
  | peek k => .ok (t.peek base k).2
  | insert sle => t.insert sle
  | update sle => t.update sle
  | erase sle => t.erase sle
  | replace sle => t.replace sle
  | rawErase sle => t.rawErase sle

/-- The call's contract: `insert` a key the map has not, `update` or `erase` the entry `peek` gave,
`replace` or `rawErase` a key the map has. -/
def Enabled (base : ReadView K D) (t : ApplyStateTable K D) : ApplyOp K D → Prop
  | peek _ => True
  | insert sle => t.view base sle.key = none
  | update sle => t.Peeked sle.key
  | erase sle => t.Peeked sle.key
  | replace sle => (t.view base sle.key).isSome
  | rawErase sle => (t.view base sle.key).isSome

/-- What the call does to the map. -/
def onMap (M : EntryMap K D) : ApplyOp K D → EntryMap K D
  | peek _ => M
  | insert sle => Function.update M sle.key (some sle)
  | update sle => Function.update M sle.key (some sle)
  | erase sle => Function.update M sle.key none
  | replace sle => Function.update M sle.key (some sle)
  | rawErase sle => Function.update M sle.key none

/-- A run of calls on a table. -/
def run (base : ReadView K D) (t : ApplyStateTable K D) (ops : List (ApplyOp K D)) :
    Except String (ApplyStateTable K D) :=
  ops.foldlM (apply base) t

/-- The map after the run's changes. -/
def runMap (M : EntryMap K D) (ops : List (ApplyOp K D)) : EntryMap K D :=
  ops.foldl onMap M

variable {base : ReadView K D} {t : ApplyStateTable K D}

/-- A call within its contract succeeds and makes its change to the map. -/
theorem apply_spec (hc : t.Consistent base) (hbase : base.Keyed) {op : ApplyOp K D} (he : op.Enabled base t) :
    ∃ t', op.apply base t = .ok t' ∧ t.Leaves base (op.onMap (t.view base)) t' := by
  cases op with
  | peek k => exact ⟨_, rfl, (ApplyStateTable.peek_spec hc hbase k).2⟩
  | insert sle => exact ApplyStateTable.insert_spec hc he
  | update sle => exact ApplyStateTable.update_spec hc he
  | erase sle => exact ApplyStateTable.erase_spec hc he
  | replace sle => exact ApplyStateTable.replace_spec hc he
  | rawErase sle => exact ApplyStateTable.rawErase_spec hc he

/-- A run within the contracts succeeds and shows the changed map. -/
theorem run_spec (hbase : base.Keyed) (ops : List (ApplyOp K D)) (hc : t.Consistent base)
    (hv : ValidFold (apply base) (Enabled base) t ops) :
    ∃ t', run base t ops = .ok t' ∧ t'.Consistent base ∧ t'.view base = runMap (t.view base) ops := by
  have hstep : ∀ (t : ApplyStateTable K D) (M : EntryMap K D) (op : ApplyOp K D),
      (t.Consistent base ∧ t.view base = M) → op.Enabled base t →
      ∃ t', op.apply base t = .ok t' ∧ (t'.Consistent base ∧ t'.view base = op.onMap M) := by
    rintro t M op ⟨hc, rfl⟩ he
    obtain ⟨t', ht', hc', hv', -⟩ := apply_spec hc hbase he
    exact ⟨t', ht', hc', hv'⟩
  exact foldlM_simulate hstep ops t _ ⟨hc, rfl⟩ hv

end ApplyOp

namespace ApplyStateTable

variable {t : ApplyStateTable K D} {base : ReadView K D}

/-- What a table shows of the map `M`: reads, `exists` for a keylet accepting the entry there,
`succ`, and the state `apply` leaves on a view holding the base. -/
structure Shows (t : ApplyStateTable K D) (base : ReadView K D) (M : EntryMap K D) : Prop where
  read_eq : ∀ k, t.read base k = (M k.key).filter k.check
  exists_eq : ∀ k : Keylet K D, (∀ s, M k.key = some s → k.check s = true) → t.exists base k = (M k.key).isSome
  succ_isSucc : ∀ key last, IsSucc (fun k => (M k).isSome) key last (t.succ base key last)
  apply_state : ∀ v : RawView K D, v.state = base.find? → (t.apply v).state = M

theorem shows_view (hc : t.Consistent base) : t.Shows base (t.view base) where
  read_eq k := overlayRead_eq k
  exists_eq k hk := overlayExists_eq k hk
  succ_isSucc key last := overlaySucc_isSucc key last
  apply_state v hv := (apply_view hc v hv).1

end ApplyStateTable

/-! ## `RawStateTable` -/

/-- A call on an open view's table. -/
inductive RawOp (K D : Type) where
  | insert (sle : SLE K D)
  | replace (sle : SLE K D)
  | erase (sle : SLE K D)
deriving DecidableEq, Repr

namespace RawOp

def apply (t : RawStateTable K D) : RawOp K D → Except String (RawStateTable K D)
  | insert sle => t.insert sle
  | replace sle => t.replace sle
  | erase sle => t.erase sle

/-- The call's contract: `insert` a key the map has not, `replace` or `erase` a key it has. -/
def Enabled (base : ReadView K D) (t : RawStateTable K D) : RawOp K D → Prop
  | insert sle => t.view base sle.key = none
  | replace sle => (t.view base sle.key).isSome
  | erase sle => (t.view base sle.key).isSome

def onMap (M : EntryMap K D) : RawOp K D → EntryMap K D
  | insert sle => Function.update M sle.key (some sle)
  | replace sle => Function.update M sle.key (some sle)
  | erase sle => Function.update M sle.key none

def run (t : RawStateTable K D) (ops : List (RawOp K D)) : Except String (RawStateTable K D) :=
  ops.foldlM apply t

def runMap (M : EntryMap K D) (ops : List (RawOp K D)) : EntryMap K D :=
  ops.foldl onMap M

variable {base : ReadView K D} {t : RawStateTable K D}

theorem apply_spec (hc : t.Consistent base) {op : RawOp K D} (he : op.Enabled base t) :
    ∃ t', op.apply t = .ok t' ∧ t.Leaves base (op.onMap (t.view base)) t' := by
  cases op with
  | insert sle => exact RawStateTable.insert_spec hc he
  | replace sle => exact RawStateTable.replace_spec hc he
  | erase sle => exact RawStateTable.erase_spec hc he

theorem run_spec (ops : List (RawOp K D)) (hc : t.Consistent base) (hv : ValidFold apply (Enabled base) t ops) :
    ∃ t', run t ops = .ok t' ∧ t'.Consistent base ∧ t'.view base = runMap (t.view base) ops := by
  have hstep : ∀ (t : RawStateTable K D) (M : EntryMap K D) (op : RawOp K D),
      (t.Consistent base ∧ t.view base = M) → op.Enabled base t →
      ∃ t', op.apply t = .ok t' ∧ (t'.Consistent base ∧ t'.view base = op.onMap M) := by
    rintro t M op ⟨hc, rfl⟩ he
    obtain ⟨t', ht', hc', hv', -⟩ := apply_spec hc he
    exact ⟨t', ht', hc', hv'⟩
  exact foldlM_simulate hstep ops t _ ⟨hc, rfl⟩ hv

end RawOp

namespace RawStateTable

variable {t : RawStateTable K D} {base : ReadView K D}

/-- What a table shows of the map `M`: as for `ApplyStateTable`, and the `sles` iteration from the
start and from above a key, given the fuel for the entries of the base and the table. -/
structure Shows (t : RawStateTable K D) (base : ReadView K D) (M : EntryMap K D) : Prop where
  read_eq : ∀ k, t.read base k = (M k.key).filter k.check
  exists_eq : ∀ k : Keylet K D, (∀ s, M k.key = some s → k.check s = true) → t.exists base k = (M k.key).isSome
  succ_isSucc : ∀ key last, IsSucc (fun k => (M k).isSome) key last (t.succ base key last)
  apply_state : ∀ v : RawView K D, v.state = base.find? → (t.apply v).state = M
  slesBegin : ∀ fuel, base.entries.length + t.items.entries.length ≤ fuel →
    ((t.slesBegin base).toList fuel).Pairwise (fun s s' => s.key < s'.key) ∧
      ∀ x, x ∈ (t.slesBegin base).toList fuel ↔ M x.key = some x
  slesUpperBound : ∀ key fuel, base.entries.length + t.items.entries.length ≤ fuel →
    ((t.slesUpperBound base key).toList fuel).Pairwise (fun s s' => s.key < s'.key) ∧
      ∀ x, x ∈ (t.slesUpperBound base key).toList fuel ↔ key < x.key ∧ M x.key = some x

theorem shows_view (hbase : base.Keyed) (hc : t.Consistent base) : t.Shows base (t.view base) where
  read_eq k := overlayRead_eq k
  exists_eq k hk := overlayExists_eq k hk
  succ_isSucc key last := overlaySucc_isSucc key last
  apply_state v hv := (apply_view hc v hv).1
  slesBegin _ hf := slesBegin_toList hbase hc hf
  slesUpperBound key _ hf := slesUpperBound_toList hbase hc key hf

end RawStateTable

/-! ## Runs from an empty table -/

/-- **Both tables refine the map.** Over a base whose entries are under their own keys, a run of
calls on a new table, each within its contract, succeeds, and the table shows the base's map with
the run's changes made. -/
theorem stateTables_refine_map (base : ReadView K D) (hbase : base.Keyed) :
    (∀ ops : List (ApplyOp K D), ValidFold (ApplyOp.apply base) (ApplyOp.Enabled base) ApplyStateTable.empty ops →
      ∃ t, ApplyOp.run base .empty ops = .ok t ∧ t.Shows base (ApplyOp.runMap base.find? ops)) ∧
    (∀ ops : List (RawOp K D), ValidFold RawOp.apply (RawOp.Enabled base) RawStateTable.empty ops →
      ∃ t, RawOp.run .empty ops = .ok t ∧ t.Shows base (RawOp.runMap base.find? ops)) := by
  constructor
  · intro ops hv
    obtain ⟨t, ht, hc, hview⟩ := ApplyOp.run_spec hbase ops ApplyStateTable.consistent_empty hv
    rw [ApplyStateTable.view_empty] at hview
    exact ⟨t, ht, hview ▸ ApplyStateTable.shows_view hc⟩
  · intro ops hv
    obtain ⟨t, ht, hc, hview⟩ := RawOp.run_spec ops RawStateTable.consistent_empty hv
    rw [RawStateTable.view_empty] at hview
    exact ⟨t, ht, hview ▸ RawStateTable.shows_view hbase hc⟩

theorem stateTables_refine_map_ledger :
    let base : ReadView Nat Bool := ⟨[(1, ⟨1, true⟩), (4, ⟨4, false⟩)], by decide⟩
    base.Keyed ∧
      (∀ ops : List (ApplyOp Nat Bool), ValidFold (ApplyOp.apply base) (ApplyOp.Enabled base) ApplyStateTable.empty ops →
        ∃ t, ApplyOp.run base .empty ops = .ok t ∧ t.Shows base (ApplyOp.runMap base.find? ops)) ∧
      (∀ ops : List (RawOp Nat Bool), ValidFold RawOp.apply (RawOp.Enabled base) RawStateTable.empty ops →
        ∃ t, RawOp.run .empty ops = .ok t ∧ t.Shows base (RawOp.runMap base.find? ops)) := by
  intro base
  have hk : base.Keyed := by
    intro k s h
    have hmem := OrdMap.mem_of_lookup h
    simp only [base, List.mem_cons, Prod.mk.injEq, List.not_mem_nil, or_false] at hmem
    rcases hmem with ⟨rfl, rfl⟩ | ⟨rfl, rfl⟩ <;> rfl
  exact ⟨hk, stateTables_refine_map base hk⟩

/-- **`exists` is not a function of the map.** On any base, take an entry and two keylets of its key,
one whose type check accepts the entry and one whose check rejects it. On a new table, `exists`
with the second finds the key, as `Ledger::exists` does whatever the type. Once `peek` with the
first has cached the entry, which leaves the map as it was, `exists` with the second checks the
type and is false. -/
theorem applyRun_exists_of_other_type {base : ReadView K D} {sle : SLE K D} (hsle : base.find? sle.key = some sle)
    (own other : Keylet K D) (hown : own.key = sle.key) (hother : other.key = sle.key)
    (haccept : own.check sle = true) (hreject : other.check sle = false) :
    ValidFold (ApplyOp.apply base) (ApplyOp.Enabled base) ApplyStateTable.empty [.peek own] ∧
      ApplyStateTable.empty.exists base other = true ∧
      ∃ t, ApplyOp.run base .empty [.peek own] = .ok t ∧ t.exists base other = false ∧
        ApplyOp.runMap base.find? [.peek own] = base.find? := by
  -- the base's read through the accepting keylet is the entry, which `peek` caches
  have hread : base.read own = some sle := by
    rw [ReadView.read, hown, hsle, Option.filter_some, if_pos haccept]
  have hcached : (ApplyStateTable.empty.peek base own).2.items.find? other.key = some (.cache, sle) := by
    simp only [ApplyStateTable.peek, ApplyStateTable.empty, OrdMap.find?_empty, hread, OrdMap.find?_set, hother,
      if_true]
  refine ⟨⟨trivial, fun _ _ => trivial⟩, ?_, ⟨_, rfl, ?_, rfl⟩⟩
  · simp only [ApplyStateTable.exists, overlayExists, ApplyStateTable.empty, OrdMap.find?_empty, ReadView.exists,
      hother, hsle, Option.isSome_some]
  · show overlayExists ApplyAction.isErase (ApplyStateTable.empty.peek base own).2.items base other = false
    rw [overlayExists, hcached]
    simp only [ApplyAction.isErase, Bool.false_eq_true, if_false, hreject]

theorem applyRun_exists_of_other_type_one :
    let base : ReadView Nat Bool := ⟨[(1, ⟨1, true⟩)], by decide⟩
    let sle : SLE Nat Bool := ⟨1, true⟩
    let own : Keylet Nat Bool := ⟨1, fun s => s.data⟩
    let other : Keylet Nat Bool := ⟨1, fun s => !s.data⟩
    base.find? sle.key = some sle ∧ own.check sle = true ∧ other.check sle = false ∧
      ValidFold (ApplyOp.apply base) (ApplyOp.Enabled base) ApplyStateTable.empty [.peek own] ∧
      ApplyStateTable.empty.exists base other = true ∧
      ∃ t, ApplyOp.run base .empty [.peek own] = .ok t ∧ t.exists base other = false ∧
        ApplyOp.runMap base.find? [.peek own] = base.find? := by
  intro base sle own other
  have hsle : base.find? sle.key = some sle := rfl
  exact ⟨hsle, rfl, rfl, applyRun_exists_of_other_type hsle own other rfl rfl rfl rfl⟩

end Ripple
