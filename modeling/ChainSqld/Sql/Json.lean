import Mathlib.Data.List.Basic

/-!
# JSON values

The part of `Json::Value` that the ChainSQL condition and rule code reads. A value is null, a
boolean, an integer (`intValue`; the reader makes every integer up to `INT_MAX` one), an unsigned
integer above that (`uintValue`), a string, an array or an object. An object is a `std::map` from
member names to values, so its members are kept in increasing name order: `getMemberNames` lists
them in that order, and `set` (assignment through `operator[]`) inserts a new name in its place.

Two quirks of this `Json::Value` shape the code above it: a null value counts as an array and as an
object (`isArray`, `isObject`), and reading a missing member or index gives null (`get`, `atIndex`).
`jsonAsString` is the compact writer used in the error texts.

Real numbers (`realValue`) are left out, though the condition code reads them (`parse_value` and
`format_value` bind and print `asDouble`): a condition holding one is outside this model.
-/

set_option autoImplicit false

namespace Ripple.Json

/-- `Json::Value`, without `realValue`. -/
inductive Value where
  | null
  | bool (b : Bool)
  | int (i : Int)
  | uint (n : Nat)
  | string (s : String)
  | array (elems : List Value)
  | object (members : List (String × Value))
deriving Repr, Inhabited

namespace Value

/-! ## Type tests -/

def isNull : Value → Bool
  | null => true
  | _ => false

def isBool : Value → Bool
  | bool _ => true
  | _ => false

def isInt : Value → Bool
  | int _ => true
  | _ => false

def isUInt : Value → Bool
  | uint _ => true
  | _ => false

def isIntegral (v : Value) : Bool := v.isInt || v.isUInt || v.isBool

def isNumeric (v : Value) : Bool := v.isIntegral

def isString : Value → Bool
  | string _ => true
  | _ => false

/-- `isArray`: null counts as an empty array. -/
def isArray : Value → Bool
  | null | array _ => true
  | _ => false

/-- `isObject`: null counts as an empty object. -/
def isObject : Value → Bool
  | null | object _ => true
  | _ => false

/-! ## Reading -/

/-- `size`: the length of an array, the member count of an object, `0` for anything else. -/
def size : Value → Nat
  | array es => es.length
  | object ms => ms.length
  | _ => 0

def getMemberNames : Value → List String
  | object ms => ms.map Prod.fst
  | _ => []

/-- `operator[] (key) const`: the member, or null. -/
def get (v : Value) (key : String) : Value :=
  match v with
  | object ms => (ms.lookup key).getD null
  | _ => null

/-- `operator[] (index) const`: the element, or null. -/
def atIndex (v : Value) (i : Nat) : Value :=
  match v with
  | array es => es.getD i null
  | _ => null

def isMember (v : Value) (key : String) : Bool :=
  match v with
  | object ms => ms.any (·.1 == key)
  | _ => false

/-- The elements an array loop `for (i = 0; i < v.size(); i++) v[i]` visits. -/
def elems : Value → List Value
  | array es => es
  | _ => []

/-- `asString`: integers are printed, and an unsigned integer, array or object throws. -/
def asString : Value → Except String String
  | null => .ok ""
  | string s => .ok s
  | bool b => .ok (if b then "true" else "false")
  | int i => .ok (toString i)
  | _ => .error "Type is not convertible to string"

/-! ## Writing -/

/-- The member list after `m[key] = x`: replaced in place, or inserted in name order. -/
def insertMember (key : String) (x : Value) : List (String × Value) → List (String × Value)
  | [] => [(key, x)]
  | (k, y) :: ms =>
    if key < k then (key, x) :: (k, y) :: ms
    else if key = k then (key, x) :: ms
    else (k, y) :: insertMember key x ms

/-- `v[key] = x`: a null value becomes an object first. -/
def set (v : Value) (key : String) (x : Value) : Value :=
  match v with
  | object ms => object (insertMember key x ms)
  | _ => object [(key, x)]

/-- `append`: a null value becomes an array first. -/
def append (v : Value) (x : Value) : Value :=
  match v with
  | array es => array (es ++ [x])
  | _ => array [x]

/-- A fresh object of one member, `Json::Value v; v[key] = x;`. -/
def single (key : String) (x : Value) : Value := object [(key, x)]

/-! ## The compact writer -/

/-- `jsonSpecialCharacterEscape`. -/
def escapeChar (c : Char) : String :=
  match c with
  | '"' => "\\\""
  | '\\' => "\\\\"
  | '/' => "\\/"
  | '\x08' => "\\b"
  | '\x0c' => "\\f"
  | '\n' => "\\n"
  | '\r' => "\\r"
  | '\t' => "\\t"
  | c => c.toString

def quote (s : String) : String := "\"" ++ String.join (s.toList.map escapeChar) ++ "\""

mutual
/-- `jsonAsString`: members in name order, no spaces. -/
def jsonAsString : Value → String
  | null => "null"
  | bool b => if b then "true" else "false"
  | int i => toString i
  | uint n => toString n
  | string s => quote s
  | array es => "[" ++ elementsAsString es ++ "]"
  | object ms => "\x7b" ++ membersAsString ms ++ "\x7d"

def elementsAsString : List Value → String
  | [] => ""
  | [e] => jsonAsString e
  | e :: es => jsonAsString e ++ "," ++ elementsAsString es

def membersAsString : List (String × Value) → String
  | [] => ""
  | [(k, v)] => quote k ++ ":" ++ jsonAsString v
  | (k, v) :: ms => quote k ++ ":" ++ jsonAsString v ++ "," ++ membersAsString ms
end

/-! ## Lemmas -/

@[simp] theorem size_array (es : List Value) : (array es).size = es.length := rfl

@[simp] theorem elems_array (es : List Value) : (array es).elems = es := rfl

@[simp] theorem getMemberNames_single (key : String) (x : Value) :
    (single key x).getMemberNames = [key] := rfl

@[simp] theorem get_single (key : String) (x : Value) : (single key x).get key = x := by
  simp [single, get]

theorem isObject_single (key : String) (x : Value) : (single key x).isObject = true := rfl

/-- `set` on a fresh value is `single`. -/
@[simp] theorem set_null (key : String) (x : Value) : null.set key x = single key x := rfl

@[simp] theorem append_null (x : Value) : null.append x = array [x] := rfl

@[simp] theorem append_array (es : List Value) (x : Value) : (array es).append x = array (es ++ [x]) := rfl

theorem lookup_cons_ne {β : Type} {k k' : String} {y : β} {ms : List (String × β)} (h : k ≠ k') :
    ((k', y) :: ms).lookup k = ms.lookup k := by
  rw [List.lookup_cons, beq_false_of_ne h]

/-- A table made by pairing each name with a value reads that value back for a listed name. -/
theorem lookup_map_pair {β : Type} (g : String → β) (f : String) :
    ∀ ks : List String, f ∈ ks → (ks.map fun k => (k, g k)).lookup f = some (g f)
  | [], h => absurd h List.not_mem_nil
  | k :: ks, h => by
    by_cases hk : f = k
    · subst hk
      simp
    · rw [List.map_cons, lookup_cons_ne hk]
      exact lookup_map_pair g f ks ((List.mem_cons.mp h).resolve_left hk)

theorem lookup_insertMember (key k : String) (x : Value) :
    ∀ ms : List (String × Value), (insertMember key x ms).lookup k = if k = key then some x else ms.lookup k
  | [] => by
    by_cases hk : k = key
    · simp [insertMember, hk]
    · simp [insertMember, hk, lookup_cons_ne hk]
  | (k', y) :: ms => by
    unfold insertMember
    by_cases hk : k = key
    · subst hk
      by_cases hlt : k < k'
      · simp [hlt]
      · by_cases heq : k = k'
        · subst heq
          simp
        · rw [if_neg hlt, if_neg heq, lookup_cons_ne heq, lookup_insertMember k k x ms, if_pos rfl, if_pos rfl]
    · by_cases hlt : key < k'
      · simp [hlt, hk, lookup_cons_ne hk]
      · by_cases heq : key = k'
        · subst heq
          simp [hk, lookup_cons_ne hk]
        · rw [if_neg hlt, if_neg heq, if_neg hk]
          by_cases hk' : k = k'
          · subst hk'
            simp
          · rw [lookup_cons_ne hk', lookup_cons_ne hk', lookup_insertMember key k x ms, if_neg hk]

theorem mem_insertMember (key k : String) (x : Value) :
    ∀ ms : List (String × Value), k ∈ (insertMember key x ms).map Prod.fst ↔ k = key ∨ k ∈ ms.map Prod.fst
  | [] => by simp [insertMember]
  | (k', y) :: ms => by
    unfold insertMember
    by_cases hlt : key < k'
    · simp [hlt]
    · by_cases heq : key = k'
      · subst heq
        simp
      · rw [if_neg hlt, if_neg heq]
        simp only [List.map_cons, List.mem_cons, mem_insertMember key k x ms]
        tauto

/-- Reading a member after `v[key] = x`. -/
theorem get_set (v : Value) (key k : String) (x : Value) :
    (v.set key x).get k = if k = key then x else v.get k := by
  cases v with
  | object ms =>
    simp only [set, get, lookup_insertMember]
    split <;> rfl
  | _ =>
    by_cases hk : k = key
    · simp [set, get, hk]
    · simp [set, get, hk, lookup_cons_ne hk]

theorem mem_getMemberNames_set (v : Value) (key k : String) (x : Value) :
    k ∈ (v.set key x).getMemberNames ↔ k = key ∨ k ∈ v.getMemberNames := by
  cases v with
  | object ms => exact mem_insertMember key k x ms
  | _ => simp [set, getMemberNames]

/-- A member of a member is there only if the member is. -/
theorem isMember_of_get_isMember {v : Value} {k k' : String} (h : (v.get k).isMember k' = true) :
    v.isMember k = true := by
  cases v with
  | object ms =>
    induction ms with
    | nil => simp [get, isMember] at h
    | cons p ms ih =>
      obtain ⟨k0, x⟩ := p
      by_cases hk : k = k0
      · subst hk
        simp [isMember]
      · simp only [get, lookup_cons_ne hk] at h
        have hms := ih h
        simp only [isMember, List.any_cons] at hms ⊢
        rw [hms, Bool.or_true]
  | _ => simp [get, isMember] at h

/-- The array loop visits every index below `size`, each at its element. -/
theorem atIndex_eq_getElem {es : List Value} {i : Nat} (h : i < es.length) : (array es).atIndex i = es[i] := by
  simp [atIndex, List.getD_eq_getElem?_getD, List.getElem?_eq_getElem h]

end Value

end Ripple.Json
