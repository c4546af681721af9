import Mathlib.Logic.Function.Basic
import ChainSqld.Lib.OrdMap

/-!
# The state tables of a view

An open view keeps its changes over a base view in a `RawStateTable`; an `ApplyView` keeps a
transaction's changes in an `ApplyStateTable`. Each is an ordered map from keys to an action and
the state ledger entry (`SLE`) it concerns; a read goes through to the base for a key the table
has not touched, and `apply` writes the changes into a `RawView`.

The base is a ledger's map of entries in key order (`ReadView`). A `Keylet` is a key with a check
of the entry's type; `Ledger::read` checks it, `Ledger::exists` (`hasItem`) does not. Entries are
values: an entry changed in place through the pointer `peek` returned and then passed to `update`
is modelled as the changed entry passed to `update`, and the tables' checks that an entry is the
very object they hold are not modelled. A `LogicError` is an `error` carrying its text.
-/

set_option autoImplicit false

namespace Ripple

/-- A state ledger entry: its key and its fields. -/
structure SLE (K D : Type) where
  key : K
  data : D
deriving DecidableEq, Repr

/-- A key, and the check that an entry found there has the expected type. -/
structure Keylet (K D : Type) where
  key : K
  check : SLE K D → Bool

variable {K D : Type} [LinearOrder K]

/-- The entries of a ledger in key order. -/
abbrev ReadView (K D : Type) [LinearOrder K] := OrdMap K (SLE K D)

namespace ReadView

/-- `Ledger::read`. -/
def read (base : ReadView K D) (k : Keylet K D) : Option (SLE K D) :=
  (base.find? k.key).filter k.check

/-- `Ledger::exists`: the key is there, whatever its entry's type. -/
def «exists» (base : ReadView K D) (k : Keylet K D) : Bool :=
  (base.find? k.key).isSome

/-- `Ledger::succ`: the first key above `key`, if below `last`. -/
def succ (base : ReadView K D) (key : K) (last : Option K) : Option K :=
  match (base.upperBound key).head? with
  | none => none
  | some e => if last.any (· ≤ e.1) then none else some e.1

end ReadView

/-- The view `apply` writes to: entries by key, and the drops destroyed. -/
structure RawView (K D : Type) where
  state : K → Option (SLE K D)
  dropsDestroyed : Int

namespace RawView

def rawErase (target : RawView K D) (sle : SLE K D) : RawView K D :=
  { target with state := Function.update target.state sle.key none }

def rawInsert (target : RawView K D) (sle : SLE K D) : RawView K D :=
  { target with state := Function.update target.state sle.key (some sle) }

def rawReplace (target : RawView K D) (sle : SLE K D) : RawView K D :=
  { target with state := Function.update target.state sle.key (some sle) }

def rawDestroyZXC (target : RawView K D) (fee : Int) : RawView K D :=
  { target with dropsDestroyed := target.dropsDestroyed + fee }

end RawView

/-! ## Reading through a table

Both tables read alike; `isErase` tells which of their actions is an erasure. -/

section Overlay

variable {A : Type} (isErase : A → Bool)

/-- `read`: the table's entry for a key it holds, unless erased, and the base's otherwise. -/
def overlayRead (items : OrdMap K (A × SLE K D)) (base : ReadView K D) (k : Keylet K D) : Option (SLE K D) :=
  match items.find? k.key with
  | none => base.read k
  | some (a, sle) => if isErase a then none else if k.check sle then some sle else none

/-- `exists`. -/
def overlayExists (items : OrdMap K (A × SLE K D)) (base : ReadView K D) (k : Keylet K D) : Bool :=
  match items.find? k.key with
  | none => base.exists k
  | some (a, sle) => if isErase a then false else k.check sle

/-- The `do`-`while` loop of `succ`: the base's successors from `next` on, until one the table
has not erased; `fuel` bounds the base entries visited. -/
def succBase (items : OrdMap K (A × SLE K D)) (base : ReadView K D) (last : Option K) : Nat → K → Option K
  | 0, _ => none
  | fuel + 1, next =>
    match base.succ next last with
    | none => none
    | some n => if (items.find? n).any (fun e => isErase e.1) then succBase items base last fuel n else some n

/-- `succ`: the lower of the base's successor and the table's first entry above `key` that is not
an erasure, unless it is not below `last`. -/
def overlaySucc (items : OrdMap K (A × SLE K D)) (base : ReadView K D) (key : K) (last : Option K) : Option K :=
  let next := succBase isErase items base last (base.entries.length + 1) key
  let next := match (items.upperBound key).find? (fun e => !isErase e.2.1) with
    | some e => if next.all (e.1 < ·) then some e.1 else next
    | none => next
  match last, next with
  | some l, some n => if l ≤ n then none else some n
  | _, _ => next

end Overlay

/-! ## `ApplyStateTable` -/

/-- `ApplyStateTable::Action`. -/
inductive ApplyAction where
  | cache
  | erase
  | insert
  | modify
deriving DecidableEq, Repr

def ApplyAction.isErase : ApplyAction → Bool
  | erase => true
  | _ => false

structure ApplyStateTable (K D : Type) [LinearOrder K] where
  items : OrdMap K (ApplyAction × SLE K D)
  dropsDestroyed : Int

namespace ApplyStateTable

/-- A new table. -/
def empty : ApplyStateTable K D :=
  ⟨OrdMap.empty, 0⟩

def read (t : ApplyStateTable K D) (base : ReadView K D) (k : Keylet K D) : Option (SLE K D) :=
  overlayRead ApplyAction.isErase t.items base k

def «exists» (t : ApplyStateTable K D) (base : ReadView K D) (k : Keylet K D) : Bool :=
  overlayExists ApplyAction.isErase t.items base k

def succ (t : ApplyStateTable K D) (base : ReadView K D) (key : K) (last : Option K) : Option K :=
  overlaySucc ApplyAction.isErase t.items base key last

/-- `peek`: the entry to change; one read from the base is cached in the table first. -/
def peek (t : ApplyStateTable K D) (base : ReadView K D) (k : Keylet K D) : Option (SLE K D) × ApplyStateTable K D :=
  match t.items.find? k.key with
  | none =>
    match base.read k with
    | none => (none, t)
    | some sle => (some sle, { t with items := t.items.set sle.key (.cache, sle) })
  | some (a, sle) => if a.isErase then (none, t) else if k.check sle then (some sle, t) else (none, t)

def erase (t : ApplyStateTable K D) (sle : SLE K D) : Except String (ApplyStateTable K D) :=
  match t.items.find? sle.key with
  | none => .error "ApplyStateTable::erase: missing key"
  | some (.erase, _) => .error "ApplyStateTable::erase: double erase"
  | some (.insert, _) => .ok { t with items := t.items.erase sle.key }
  | some (_, cur) => .ok { t with items := t.items.set sle.key (.erase, cur) }

def rawErase (t : ApplyStateTable K D) (sle : SLE K D) : Except String (ApplyStateTable K D) :=
  match t.items.find? sle.key with
  | none => .ok { t with items := t.items.set sle.key (.erase, sle) }
  | some (.erase, _) => .error "ApplyStateTable::rawErase: double erase"
  | some (.insert, _) => .ok { t with items := t.items.erase sle.key }
  | some (_, _) => .ok { t with items := t.items.set sle.key (.erase, sle) }

def insert (t : ApplyStateTable K D) (sle : SLE K D) : Except String (ApplyStateTable K D) :=
  match t.items.find? sle.key with
  | none => .ok { t with items := t.items.set sle.key (.insert, sle) }
  | some (.cache, _) => .error "ApplyStateTable::insert: already cached"
  | some (.insert, _) => .error "ApplyStateTable::insert: already inserted"
  | some (.modify, _) => .error "ApplyStateTable::insert: already modified"
  | some (.erase, _) => .ok { t with items := t.items.set sle.key (.modify, sle) }

def replace (t : ApplyStateTable K D) (sle : SLE K D) : Except String (ApplyStateTable K D) :=
  match t.items.find? sle.key with
  | none => .ok { t with items := t.items.set sle.key (.modify, sle) }
  | some (.erase, _) => .error "ApplyStateTable::replace: already erased"
  | some (.cache, _) => .ok { t with items := t.items.set sle.key (.modify, sle) }
  | some (a, _) => .ok { t with items := t.items.set sle.key (a, sle) }

/-- `update` of the entry `peek` returned, as changed. -/
def update (t : ApplyStateTable K D) (sle : SLE K D) : Except String (ApplyStateTable K D) :=
  match t.items.find? sle.key with
  | none => .error "ApplyStateTable::update: missing key"
  | some (.erase, _) => .error "ApplyStateTable::update: erased"
  | some (.cache, _) => .ok { t with items := t.items.set sle.key (.modify, sle) }
  | some (a, _) => .ok { t with items := t.items.set sle.key (a, sle) }

/-- What `apply` writes for one entry of the table. -/
def applyItem (target : RawView K D) : ApplyAction × SLE K D → RawView K D
  | (.cache, _) => target
  | (.erase, sle) => target.rawErase sle
  | (.insert, sle) => target.rawInsert sle
  | (.modify, sle) => target.rawReplace sle

def apply (t : ApplyStateTable K D) (target : RawView K D) : RawView K D :=
  t.items.entries.foldl (fun target e => applyItem target e.2) (target.rawDestroyZXC t.dropsDestroyed)

end ApplyStateTable

/-! ## `RawStateTable` -/

/-- `RawStateTable::Action`. -/
inductive RawAction where
  | erase
  | insert
  | replace
deriving DecidableEq, Repr

def RawAction.isErase : RawAction → Bool
  | erase => true
  | _ => false

structure RawStateTable (K D : Type) [LinearOrder K] where
  items : OrdMap K (RawAction × SLE K D)
  dropsDestroyed : Int

/-- The position of a `sles` iterator: the base's entries from `iter0_` on, and the table's
from `iter1_` on. The entry at the front of each is `sle0_` and `sle1_`. -/
structure SlesIter (K D : Type) where
  rest0 : List (SLE K D)
  rest1 : List (K × (RawAction × SLE K D))

namespace SlesIter

/-- `skip`: past each erasure of the base entry in front. The source reads the base entry when
the base is done and an erasure is in front; that does not happen in a table over its base, and
here stops the loop. -/
def skip : List (SLE K D) → List (K × (RawAction × SLE K D)) → SlesIter K D
  | s0 :: r0, (k1, (.erase, s1)) :: r1 =>
    if s0.key = s1.key then
      match r0 with
      | [] => ⟨[], r1⟩
      | _ :: _ => skip r0 r1
    else ⟨s0 :: r0, (k1, (.erase, s1)) :: r1⟩
  | r0, r1 => ⟨r0, r1⟩

/-- `dereference`: the lower of the two entries in front, the table's on a tie. -/
def dereference (it : SlesIter K D) : Option (SLE K D) :=
  match it.rest1.head?, it.rest0.head? with
  | none, s0 => s0
  | some (_, (_, s1)), none => some s1
  | some (_, (_, s1)), some s0 => if s1.key ≤ s0.key then some s1 else some s0

/-- `increment`: past the entry in front, both on a tie; no skipping once one side is done. -/
def increment (it : SlesIter K D) : SlesIter K D :=
  match it.rest1, it.rest0 with
  | _ :: r1, [] => ⟨[], r1⟩
  | [], _ :: r0 => ⟨r0, []⟩
  | (k1, (a, s1)) :: r1, s0 :: r0 =>
    if s1.key = s0.key then skip r0 r1
    else if s1.key < s0.key then skip (s0 :: r0) r1
    else skip r0 ((k1, (a, s1)) :: r1)
  | [], [] => it

/-- The entries a range loop visits from `it` to the end, at most `fuel` of them. -/
def toList : Nat → SlesIter K D → List (SLE K D)
  | 0, _ => []
  | fuel + 1, it =>
    if it.rest0.isEmpty && it.rest1.isEmpty then []
    else it.dereference.toList ++ toList fuel it.increment

end SlesIter

namespace RawStateTable

/-- A new table. -/
def empty : RawStateTable K D :=
  ⟨OrdMap.empty, 0⟩

def read (t : RawStateTable K D) (base : ReadView K D) (k : Keylet K D) : Option (SLE K D) :=
  overlayRead RawAction.isErase t.items base k

def «exists» (t : RawStateTable K D) (base : ReadView K D) (k : Keylet K D) : Bool :=
  overlayExists RawAction.isErase t.items base k

def succ (t : RawStateTable K D) (base : ReadView K D) (key : K) (last : Option K) : Option K :=
  overlaySucc RawAction.isErase t.items base key last

def erase (t : RawStateTable K D) (sle : SLE K D) : Except String (RawStateTable K D) :=
  match t.items.find? sle.key with
  | none => .ok { t with items := t.items.set sle.key (.erase, sle) }
  | some (.erase, _) => .error "RawStateTable::erase: already erased"
  | some (.insert, _) => .ok { t with items := t.items.erase sle.key }
  | some (.replace, _) => .ok { t with items := t.items.set sle.key (.erase, sle) }

def insert (t : RawStateTable K D) (sle : SLE K D) : Except String (RawStateTable K D) :=
  match t.items.find? sle.key with
  | none => .ok { t with items := t.items.set sle.key (.insert, sle) }
  | some (.erase, _) => .ok { t with items := t.items.set sle.key (.replace, sle) }
  | some (.insert, _) => .error "RawStateTable::insert: already inserted"
  | some (.replace, _) => .error "RawStateTable::insert: already exists"

def replace (t : RawStateTable K D) (sle : SLE K D) : Except String (RawStateTable K D) :=
  match t.items.find? sle.key with
  | none => .ok { t with items := t.items.set sle.key (.replace, sle) }
  | some (.erase, _) => .error "RawStateTable::replace: was erased"
  | some (a, _) => .ok { t with items := t.items.set sle.key (a, sle) }

def applyItem (target : RawView K D) : RawAction × SLE K D → RawView K D
  | (.erase, sle) => target.rawErase sle
  | (.insert, sle) => target.rawInsert sle
  | (.replace, sle) => target.rawReplace sle

def apply (t : RawStateTable K D) (target : RawView K D) : RawView K D :=
  t.items.entries.foldl (fun target e => applyItem target e.2) (target.rawDestroyZXC t.dropsDestroyed)

def slesBegin (t : RawStateTable K D) (base : ReadView K D) : SlesIter K D :=
  SlesIter.skip (base.entries.map Prod.snd) t.items.entries

def slesEnd : SlesIter K D :=
  ⟨[], []⟩

def slesUpperBound (t : RawStateTable K D) (base : ReadView K D) (key : K) : SlesIter K D :=
  SlesIter.skip ((base.upperBound key).map Prod.snd) (t.items.upperBound key)

end RawStateTable

end Ripple
