import ChainSqld.Sql.Json

/-!
# ChainSQL conditions

A `Raw` condition is JSON: a field key with a value or with an object of operators (`$eq`, `$ne`,
`$lt`, `$le`, `$gt`, `$ge`, `$regex`, `$in`, `$nin`), several keys in one object, `$and` and
`$or` arrays, and several objects at the top level. `conditionTree::createRoot` guesses the kind
of the root from the shape of the array; `conditionParse::parse_conditions` then fills the tree,
one `Expression` leaf per field and operator, below `Logical_And` and `Logical_Or` nodes.
`format_conditions` prints the tree as the text of a `WHERE` clause, and `conditionParse::judge`
evaluates it on a row through a callback on the leaves.

What a condition is documented to mean (`docConditions`: top-level objects disjoined, the keys of
one object and the operators of one field conjoined) is stated apart from the parser, over the
same leaf evaluator. A tree means the conjunction or disjunction of its children (`holds`);
`judge` agrees with that on trees whose inner nodes have two children or more
(`judge_eq_holds`).

The parser recurses structurally over the JSON it reads: a member's value and an array's
elements are subterms of the value they came from.
-/

set_option autoImplicit false

namespace Ripple

open Json Value

/-- `boost::iequals` on ASCII text. -/
def iequals (a b : String) : Bool := a.toList.map Char.toLower == b.toList.map Char.toLower

/-- `isIncompleteAnd`: `and` in any case, as the source writes it (its second test reads the
first letter again). -/
def isIncompleteAnd (sAnd : String) : Bool :=
  match sAnd.toList with
  | [c0, c1, c2] => (c0 == 'a' || c0 == 'A') && (c1 == 'n' || c0 == 'N') && (c2 == 'd' || c2 == 'D')
  | _ => false

/-- `isIncompleteOr`. -/
def isIncompleteOr (sOr : String) : Bool :=
  match sOr.toList with
  | [c0, c1] => (c0 == 'o' || c0 == 'O') && (c1 == 'r' || c0 == 'R')
  | _ => false

/-- `FieldValue` as a condition binds it. -/
inductive BindValue where
  | string (s : String)
  | int (i : Int)
  | uint (n : Nat)
deriving DecidableEq, Repr

/-- `conditionTree::expression_result`: key, operator and values of a leaf. -/
structure ExpressionResult where
  keyname : String
  op : String
  value : List BindValue
deriving DecidableEq, Repr, Inhabited

inductive NodeType where
  | logicalAnd
  | logicalOr
  | expression
deriving DecidableEq, Repr

/-- `conditionTree`: a node type, the expression of a leaf and the children of an inner node. -/
inductive ConditionTree where
  | mk (type_ : NodeType) (expression_ : Value) (children_ : List ConditionTree)

namespace ConditionTree

def nodeType : ConditionTree → NodeType
  | mk t _ _ => t

def children : ConditionTree → List ConditionTree
  | mk _ _ cs => cs

/-- `conditionTree (type)`. -/
def ofType (t : NodeType) : ConditionTree := mk t .null []

/-- An `Expression` node holding `e`. -/
def leaf (e : Value) : ConditionTree := mk .expression e []

def addChild (t : ConditionTree) (child : ConditionTree) : ConditionTree :=
  match t with
  | mk ty e cs => mk ty e (cs ++ [child])

def setExpression (t : ConditionTree) (e : Value) : ConditionTree :=
  match t with
  | mk ty _ cs => mk ty e cs

/-! ## Leaves -/

/-- `conditionTree::parse_value`. -/
def parseValue : Value → Option BindValue
  | .string s => some (.string s)
  | .int i => some (.int i)
  | .uint n => some (.uint n)
  | _ => none

/-- `parse_array`: the elements that parse, the others skipped. -/
def parseArray (j : Value) : List BindValue := j.elems.filterMap parseValue

/-- `conditionTree::parse_expression`: the first key, its first operator (`$eq` for a bare value)
and the values. The empty result stands for the default tuple the source returns when a value
does not parse, and for an object with no members, whose first name the source reads out of
bounds. -/
def parseExpression (e : Value) : ExpressionResult :=
  match e with
  | .object ((keyname, v) :: _) =>
    match v with
    | .object ((op, w) :: _) =>
      if w.isArray then ⟨keyname, op, parseArray w⟩
      else match parseValue w with
        | some b => ⟨keyname, op, [b]⟩
        | none => default
    | .object [] | .null => default
    | v =>
      match parseValue v with
      | some b => ⟨keyname, "$eq", [b]⟩
      | none => default
  | _ => default

/-- `createRoot`: one object with one `$and`/`$or` key, or one field with several operators, or
several keys, fixes the root's type; several objects make an `$or` root. -/
def createRoot (conditions : Value) : Int × ConditionTree :=
  let fail : Int × ConditionTree := (-1, ofType .expression)
  if !conditions.isArray then fail
  else if conditions.size == 1 then
    match (conditions.atIndex 0).getMemberNames with
    | [] => fail
    | [keyName] =>
      if isIncompleteAnd keyName || isIncompleteOr keyName then fail
      else if iequals keyName "$and" then (0, ofType .logicalAnd)
      else if iequals keyName "$or" then (0, ofType .logicalOr)
      else
        let x := (conditions.atIndex 0).get keyName
        if x.isObject && x.getMemberNames.length > 1 then (0, ofType .logicalAnd)
        else (0, ofType .expression)
    | _ :: _ :: _ => (0, ofType .logicalAnd)
  else if conditions.size > 1 then (0, ofType .logicalOr)
  else fail

end ConditionTree

namespace ConditionParse

open ConditionTree

def isLogicChars (logic : String) : Bool :=
  iequals logic "$eq" || iequals logic "$ne" || iequals logic "$lt" || iequals logic "$le" ||
    iequals logic "$gt" || iequals logic "$ge" || iequals logic "$regex" || iequals logic "$in" ||
    iequals logic "$nin"

/-- `conditionParse::parse_value`: a scalar as it is, or an object of operators split into one
object per operator; `none` for a key that is not an operator. -/
def parseValue (value : Value) : Option (List Value) :=
  if !value.isNull && !value.isObject then some [value]
  else
    match value.getMemberNames with
    | [key] => if isLogicChars key then some [value] else none
    | keys =>
      if keys.all isLogicChars then some (keys.map fun k => single k (value.get k)) else none

/-- `generate_leafnode_and_add_into_tree`: one `Expression` child of `root` per operator. -/
def generateLeafnodeAndAddIntoTree (keyName : String) (conditionValue : Value) (root : ConditionTree) :
    Except String ConditionTree :=
  if conditionValue.isObject then
    match parseValue conditionValue with
    | some values => .ok (values.foldl (fun r v => r.addChild (leaf (single keyName v))) root)
    | none => .error ("value is error. [" ++ jsonAsString conditionValue ++ "]")
  else if conditionValue.isBool || conditionValue.isInt || conditionValue.isUInt ||
      conditionValue.isString || conditionValue.isIntegral || conditionValue.isNumeric then
    .ok (root.addChild (leaf (single keyName conditionValue)))
  else .error ("value is error. [" ++ jsonAsString conditionValue ++ "]")

/-- `isSampleAndCondition`: one field with exactly two operators. -/
def isSampleAndCondition (c : Value) : Bool :=
  c.isObject &&
    match c.getMemberNames with
    | [keyName] =>
      let keyValue := c.get keyName
      keyValue.isObject &&
        match keyValue.getMemberNames with
        | [k1, k2] => isLogicChars k1 && isLogicChars k2
        | _ => false
    | _ => false

/-- `isAppropriate`: an array of two elements or more, or of one two-operator field. -/
def isAppropriate (andOrValue : Value) : Bool :=
  andOrValue.isArray &&
    (andOrValue.size == 1 && isSampleAndCondition (andOrValue.atIndex 0) || !(andOrValue.size < 2))

mutual
/-- `parse_logicalAnd`. For an object of one member, `condition["$and"]` is that member's value
when it is spelled `$and` and null otherwise; `isAppropriate` rejects null and every value that
is not an array, so only the array case reads on. -/
def parseLogicalAnd : Value → ConditionTree → Except String ConditionTree
  | condition@(.object [(key, v)]), root =>
    if isIncompleteAnd key || isIncompleteOr key then
      .error (key ++ " can't be recognized in conditions. [" ++ jsonAsString condition ++ "]")
    else if iequals key "$and" then
      match key == "$and", v with
      | true, .array es =>
        if isAppropriate (.array es) then parseAndElements condition es root
        else .error ("condition may be malformed. [" ++ jsonAsString condition ++ "]")
      | _, _ => .error ("condition may be malformed. [" ++ jsonAsString condition ++ "]")
    else generateLeafnodeAndAddIntoTree key (condition.get key) root
  | condition@(.object (_ :: _ :: _)), root =>
    condition.getMemberNames.foldlM (fun r k => generateLeafnodeAndAddIntoTree k (condition.get k) r) root
  | condition, _ => .error ("condition is malformed in parsing logicalAnd. [" ++ jsonAsString condition ++ "]")

/-- The loop of `parse_logicalAnd` over the elements of `$and`. -/
def parseAndElements (condition : Value) : List Value → ConditionTree → Except String ConditionTree
  | [], root => .ok root
  | element :: es, root =>
    match element.getMemberNames with
    | [keyName] =>
      if isIncompleteAnd keyName || isIncompleteOr keyName then
        .error (keyName ++ " can't be recognized in conditions. [" ++ jsonAsString condition ++ "]")
      else if iequals keyName "$or" then do
        let node ← parseLogicalOr element (ofType .logicalOr)
        parseAndElements condition es (root.addChild node)
      else if iequals keyName "$and" then do
        let node ← parseLogicalAnd element (ofType .logicalAnd)
        parseAndElements condition es (root.addChild node)
      else do
        let root ← generateLeafnodeAndAddIntoTree keyName (element.get keyName) root
        parseAndElements condition es root
    | _ => .error ("'" ++ jsonAsString element ++ "' has more than one keys.")

/-- `parse_logicalOr`. An object of several members builds its error in a local that shadows the
result, so the function reports success and adds nothing. -/
def parseLogicalOr : Value → ConditionTree → Except String ConditionTree
  | condition@(.object [(_, values)]), root =>
    match values with
    | .array vs =>
      if isAppropriate (.array vs) then parseOrElements vs root
      else .error ("condition may be malformed. [" ++ jsonAsString condition ++ "]")
    | _ => .error ("condition may be malformed. [" ++ jsonAsString condition ++ "]")
  | .object (_ :: _ :: _), root => .ok root
  | condition, _ => .error ("condition is malformed in parsing logicalOr. [" ++ jsonAsString condition ++ "]")

/-- The loop of `parse_logicalOr` over the elements of `$or`: each element is read through its
first key only. An element with no members has no first key; the model reads it as `""`. -/
def parseOrElements : List Value → ConditionTree → Except String ConditionTree
  | [], root => .ok root
  | v :: vs, root =>
    let keyName := v.getMemberNames.headD ""
    if isIncompleteAnd keyName || isIncompleteOr keyName then
      .error (keyName ++ " can't be recognized in conditions.")
    else if iequals keyName "$and" then do
      let node ← parseLogicalAnd v (ofType .logicalAnd)
      parseOrElements vs (root.addChild node)
    else if iequals keyName "$or" then do
      let node ← parseLogicalOr v (ofType .logicalOr)
      parseOrElements vs (root.addChild node)
    else do
      let root ← generateLeafnodeAndAddIntoTree keyName (v.get keyName) root
      parseOrElements vs root
end

/-- The `$or` element `adjust_conditionOr` makes of one top-level object: the object itself for one
key and one operator, an `$and` of one object per key and operator otherwise. -/
def adjustOne (oldValue oneCondition : Value) : Except String Value :=
  if !oneCondition.isObject then .error ("Not support. [" ++ jsonAsString oldValue ++ "]")
  else
    match oneCondition.getMemberNames with
    | [] => .error ("Not support. [" ++ jsonAsString oldValue ++ "]")
    | [keyName] =>
      if ["$or", "$and", "$in", "$nin", "$limit", "$order"].any (iequals keyName) then
        .error (keyName ++ " dosen't be supported. [" ++ jsonAsString oldValue ++ "]")
      else
        let keyValue := oneCondition.get keyName
        match parseValue keyValue with
        | none => .error ("Parse value failed. [" ++ jsonAsString keyValue ++ "]")
        | some [x] => .ok (single keyName x)
        | some xs => .ok (single "$and" ((xs.map (single keyName)).foldl append .null))
    | keys => do
      let andValues ← keys.foldlM (fun acc k =>
        match parseValue (oneCondition.get k) with
        | none => .error ("Parse value failed. [" ++ jsonAsString (oneCondition.get k) ++ "]")
        | some xs => .ok ((xs.map (single k)).foldl append acc)) Value.null
      .ok (single "$and" andValues)

/-- `adjust_conditionOr`: a single `$or` object as it is; several objects become one `$or` over
their `adjustOne` forms. -/
def adjustConditionOr (oldValue : Value) : Except String Value :=
  match oldValue.elems with
  | [] => .error ("Not support. [" ++ jsonAsString oldValue ++ "]")
  | [oneCondition] =>
    if !oneCondition.isObject then .error ("Not support. [" ++ jsonAsString oldValue ++ "]")
    else
      match oneCondition.getMemberNames with
      | [keyName] =>
        if isIncompleteOr keyName then .error (keyName ++ " can't be recognized in conditions. ")
        else if !iequals keyName "$or" then .error ("This operator can't support. [" ++ keyName ++ "]")
        else .ok oldValue
      | _ => .error ("Not support. [" ++ jsonAsString oldValue ++ "]")
  | conditions => do
    let orElements ← conditions.foldlM (fun acc c => (adjustOne oldValue c).map acc.append) Value.null
    .ok (Value.null.append (single "$or" orElements))

/-- `conditionParse::parse_expression`: one field with at most one operator becomes the root's
expression. -/
def parseExpression (condition : Value) (root : ConditionTree) : Except String ConditionTree :=
  let keys := condition.getMemberNames
  if condition.isObject && keys.length > 1 then
    .error ("condtion is malformed in parsing expression.[" ++ jsonAsString condition ++ "]")
  else
    let value := condition.get (keys.headD "")
    if value.isObject then
      if value.getMemberNames.length > 1 then
        .error ("condtion is malformed in parsing expression.[" ++ jsonAsString condition ++ "]")
      else
        let op := value.getMemberNames.headD ""
        if !isLogicChars op then .error ("An operator can't be supported.[" ++ jsonAsString (.string op) ++ "]")
        else .ok (root.setExpression condition)
    else .ok (root.setExpression condition)

/-- `parse_conditions`. -/
def parseConditions (rawValue : Value) (root : ConditionTree) : Except String ConditionTree :=
  if !rawValue.isArray then .error ("raw_value is malformed. [" ++ jsonAsString rawValue ++ "]")
  else
    match root.nodeType with
    | .expression => parseExpression (rawValue.atIndex 0) root
    | .logicalAnd => parseLogicalAnd (rawValue.atIndex 0) root
    | .logicalOr => do
      let adjusted ← adjustConditionOr rawValue
      parseLogicalOr (adjusted.atIndex 0) root

/-! ## Walking a tree -/

section Walk

variable {σ : Type}

mutual
/-- `traverse`: `vcb` on each leaf; `ncb` with `0` and `2` around an inner child, and with `1`
between two children. An inner node of fewer than two children is skipped whole. -/
def traverse (vcb : ExpressionResult → σ → σ) (ncb : NodeType → Nat → σ → σ) :
    ConditionTree → σ → σ
  | .mk .expression e _, s => vcb (ConditionTree.parseExpression e) s
  | .mk t _ children, s => if children.length < 2 then s else traverseChildren vcb ncb t children s

def traverseChildren (vcb : ExpressionResult → σ → σ) (ncb : NodeType → Nat → σ → σ) (t : NodeType) :
    List ConditionTree → σ → σ
  | [], s => s
  | node :: rest, s =>
    let s := match node with
      | .mk .expression e _ => vcb (ConditionTree.parseExpression e) s
      | node => ncb t 2 (traverse vcb ncb node (ncb t 0 s))
    if rest.isEmpty then s else traverseChildren vcb ncb t rest (ncb t 1 s)
end

end Walk

section Judge

variable (cb : ExpressionResult → Bool)

mutual
/-- `judge`: a leaf by the callback; the children of an inner node in order, stopping at the
first that decides an `$or` or an `$and`; `false` for an inner node of fewer than two children. -/
def judge : ConditionTree → Bool
  | .mk .expression e _ => cb (ConditionTree.parseExpression e)
  | .mk t _ children => if children.length < 2 then false else judgeChildren t children false

def judgeChildren (t : NodeType) : List ConditionTree → Bool → Bool
  | [], result => result
  | node :: rest, _ =>
    let result := judge node
    if t == .logicalOr && result || t == .logicalAnd && !result then result
    else judgeChildren t rest result
end

end Judge

end ConditionParse

/-! ## Printing a tree -/

namespace ConditionTree

open ConditionParse

/-- The SQL operator of a JSON one. -/
def sqlOperator (op : String) : String :=
  if iequals op "$eq" then "="
  else if iequals op "$ne" then "!="
  else if iequals op "$lt" then "<"
  else if iequals op "$le" then "<="
  else if iequals op "$gt" then ">"
  else if iequals op "$ge" then ">="
  else if iequals op "$regex" then "like"
  else if iequals op "$in" then "in"
  else if iequals op "$nin" then "not in"
  else op

/-- `format_value`: a string without `.` quoted; one with `.` unquoted, as a column, without a
leading `$.`; numbers printed. -/
def formatValue : BindValue → String
  | .string s =>
    if !s.toList.contains '.' then "'" ++ s ++ "'"
    else match s.toList with
      | '$' :: '.' :: rest => String.ofList rest
      | _ => s
  | .int i => toString i
  | .uint n => toString n

/-- `modify_bind_string` for style `0`: `'/^v/'` becomes `'%v'` and `'/v/'` becomes `'%v%'`. The
character at the string's length is the terminating NUL. -/
def modifyBindString (fv : String) : String :=
  let cs := fv.toList
  let n := cs.length
  let charAt := fun i => cs.getD i '\x00'
  if charAt 1 == '/' && charAt 2 == '^' && charAt (n - 2) == '/' then
    String.ofList ('\'' :: '%' :: (cs.drop 3).take (n - 5)) ++ "'"
  else if charAt 1 == '/' && charAt (n - 2) == '/' then
    String.ofList ((cs.set 1 '%').set (n - 2) '%')
  else fv

/-- The text `format_conditions` appends for one leaf in style `0`; `none` where the source reads
the first value of an empty list. -/
def formatLeaf (r : ExpressionResult) : Option String :=
  let op := sqlOperator r.op
  if op == "in" || op == "not in" then
    some (r.keyname ++ " " ++ op ++ " (" ++ ",".intercalate (r.value.map formatValue) ++ ")")
  else
    match r.value with
    | v :: _ =>
      let fv := formatValue v
      let fv := if iequals op "like" then modifyBindString fv else fv
      some (r.keyname ++ " " ++ op ++ " " ++ fv)
    | [] => none

/-- The text `format_conditions` appends at an inner node. -/
def formatNode (t : NodeType) (processState : Nat) : String :=
  if processState == 0 then "("
  else if processState == 2 then ")"
  else match t with
    | .logicalAnd => " and "
    | .logicalOr => " or "
    | .expression => ""

/-- `asString`: `format_conditions` in style `0`, values written into the text. -/
def asString (t : ConditionTree) : String :=
  traverse (fun r c => match formatLeaf r with
      | some sub => c ++ sub
      | none => c)
    (fun t st c => c ++ formatNode t st) t ""

/-- `modify_bind_string` for style `1`, on the bound value: `/^v/` becomes `%v` and `/v/`
becomes `%v%`. -/
def modifyBindValue (fv : String) : String :=
  let cs := fv.toList
  let n := cs.length
  let charAt := fun i => cs.getD i '\x00'
  if charAt 0 == '/' && charAt 1 == '^' && charAt (n - 1) == '/' then
    String.ofList ('%' :: (cs.drop 2).take (n - 3))
  else if charAt 0 == '/' && charAt (n - 1) == '/' then
    String.ofList ((cs.set 0 '%').set (n - 1) '%')
  else fv

/-- What style `1` builds: the text, the last placeholder number (`bind_values_index_`) and the
values to bind, one list per leaf. -/
structure BoundText where
  text : String
  index : Int
  values : List (List BindValue)

/-- The placeholder of a leaf in style `1`: one per value for `in`, else the next number, or the
field's name when numbering is off (`-1`). -/
def placeHolder (keyname op : String) (count : Nat) (index : Int) : String × Int :=
  if iequals op "in" || iequals op "not in" then
    ("(" ++ ",".intercalate ((List.range count).map fun i => ":" ++ keyname ++ "_" ++ toString i) ++ ")",
      index)
  else if index != -1 then (":" ++ toString (index + 1), index + 1)
  else (":" ++ keyname, index)

/-- The text and values `format_conditions` adds for one leaf in style `1`. -/
def bindLeaf (r : ExpressionResult) (s : BoundText) : BoundText :=
  let op := sqlOperator r.op
  let ph := placeHolder r.keyname op r.value.length s.index
  let value := if iequals op "like" then
      match r.value with
      | .string v :: rest => .string (modifyBindValue v) :: rest
      | vs => vs
    else r.value
  ⟨s.text ++ r.keyname ++ " " ++ op ++ " " ++ ph.1, ph.2, s.values ++ [value]⟩

/-- `asConditionString` after `set_bind_values_index (index)`: the text with placeholders and the
values `bind_value` binds to them. -/
def asConditionString (index : Int) (t : ConditionTree) : String × List (List BindValue) :=
  let s := traverse bindLeaf (fun t st s => ⟨s.text ++ formatNode t st, s.index, s.values⟩) t ⟨"", index, []⟩
  (s.text, s.values)

end ConditionTree

/-! ## What a tree and a condition mean -/

namespace ConditionParse

open ConditionTree

section Meaning

variable (cb : ExpressionResult → Bool)

mutual
/-- A tree means the conjunction or the disjunction of its children. -/
def holds : ConditionTree → Bool
  | .mk .expression e _ => cb (ConditionTree.parseExpression e)
  | .mk .logicalAnd _ cs => holdsAll cs
  | .mk .logicalOr _ cs => holdsAny cs

def holdsAll : List ConditionTree → Bool
  | [] => true
  | t :: ts => holds t && holdsAll ts

def holdsAny : List ConditionTree → Bool
  | [] => false
  | t :: ts => holds t || holdsAny ts
end

mutual
/-- Every inner node has two children or more. -/
def isBranching : ConditionTree → Bool
  | .mk .expression _ _ => true
  | .mk _ _ cs => 2 ≤ cs.length && allBranching cs

def allBranching : List ConditionTree → Bool
  | [] => true
  | t :: ts => isBranching t && allBranching ts
end

mutual
/-- What a condition object is documented to mean: all of its members hold. -/
def docObject : Value → Bool
  | .object ms => docMembers ms
  | _ => false

def docMembers : List (String × Value) → Bool
  | [] => true
  | (k, v) :: ms => docMember k v && docMembers ms

/-- One member: `$and` or `$or` over an array of objects, a field with operators (all of them
hold) or a field with a value (`$eq`). -/
def docMember (k : String) : Value → Bool
  | .array es => if iequals k "$and" then docAll es else if iequals k "$or" then docAny es else false
  | .object ops => ops.all fun m => cb (ConditionTree.parseExpression (single k (single m.1 m.2)))
  | v => cb (ConditionTree.parseExpression (single k v))

def docAll : List Value → Bool
  | [] => true
  | c :: cs => docObject c && docAll cs

def docAny : List Value → Bool
  | [] => false
  | c :: cs => docObject c || docAny cs
end

/-- The documented meaning of a condition array: its objects disjoined. -/
def docConditions (c : Value) : Bool := docAny cb c.elems

/-! ## `judge` evaluates the tree -/

mutual
theorem judge_eq_holds : ∀ t : ConditionTree, isBranching t = true → judge cb t = holds cb t
  | .mk .expression _ _, _ => rfl
  | .mk .logicalAnd _ cs, h => by
    simp only [isBranching, Bool.and_eq_true, decide_eq_true_eq] at h
    have hne : cs ≠ [] := by
      rintro rfl
      simp at h
    simp only [judge, holds, show ¬ cs.length < 2 by omega, if_false]
    exact judgeChildren_and cs hne h.2 false
  | .mk .logicalOr _ cs, h => by
    simp only [isBranching, Bool.and_eq_true, decide_eq_true_eq] at h
    have hne : cs ≠ [] := by
      rintro rfl
      simp at h
    simp only [judge, holds, show ¬ cs.length < 2 by omega, if_false]
    exact judgeChildren_or cs hne h.2 false

/-- Under an `$and`, `judge` stops at the first child that fails. -/
theorem judgeChildren_and : ∀ cs : List ConditionTree, cs ≠ [] → allBranching cs = true → ∀ r,
    judgeChildren cb .logicalAnd cs r = holdsAll cb cs
  | [], hne, _, _ => absurd rfl hne
  | [c], _, h, _ => by
    simp only [allBranching, Bool.and_eq_true] at h
    have hc := judge_eq_holds c h.1
    cases hj : judge cb c <;> simp [judgeChildren, holdsAll, ← hc, hj]
  | c :: d :: rest, _, h, _ => by
    simp only [allBranching, Bool.and_eq_true] at h
    have hc := judge_eq_holds c h.1
    have hrest := judgeChildren_and (d :: rest) (List.cons_ne_nil d rest) (by simpa [allBranching] using h.2)
    rw [judgeChildren, holdsAll, ← hc]
    cases judge cb c
    · rfl
    · exact hrest true

/-- Under an `$or`, `judge` stops at the first child that holds. -/
theorem judgeChildren_or : ∀ cs : List ConditionTree, cs ≠ [] → allBranching cs = true → ∀ r,
    judgeChildren cb .logicalOr cs r = holdsAny cb cs
  | [], hne, _, _ => absurd rfl hne
  | [c], _, h, _ => by
    simp only [allBranching, Bool.and_eq_true] at h
    have hc := judge_eq_holds c h.1
    cases hj : judge cb c <;> simp [judgeChildren, holdsAny, ← hc, hj]
  | c :: d :: rest, _, h, _ => by
    simp only [allBranching, Bool.and_eq_true] at h
    have hc := judge_eq_holds c h.1
    have hrest := judgeChildren_or (d :: rest) (List.cons_ne_nil d rest) (by simpa [allBranching] using h.2)
    rw [judgeChildren, holdsAny, ← hc]
    cases judge cb c
    · exact hrest false
    · rfl
end

end Meaning

end ConditionParse

/-! ## Rows -/

/-- A row of a table: the value of each column. -/
abbrev Row := List (String × BindValue)

/-- How the database orders a column's value against a bound one: numbers by value, strings
lexicographically, a number and a string not at all. -/
def BindValue.compareWith : BindValue → BindValue → Option Ordering
  | .string a, .string b => some (compare a b)
  | .int a, .int b => some (compare a b)
  | .int a, .uint b => some (compare a (b : Int))
  | .uint a, .int b => some (compare (a : Int) b)
  | .uint a, .uint b => some (compare a b)
  | _, _ => none

/-- Whether a row satisfies a leaf. The database that reads the leaf's SQL is outside the sources;
this evaluation is the model's own: equality, order and `$in`/`$nin` on the row's value. A `$like`
or `$regex` leaf, and a comparison of a number with a string, never hold here. -/
def Row.satisfies (row : Row) (e : ExpressionResult) : Bool :=
  match row.lookup e.keyname with
  | none => false
  | some x =>
    if iequals e.op "$in" then e.value.contains x
    else if iequals e.op "$nin" then !e.value.contains x
    else
      match e.value with
      | [v] =>
        match x.compareWith v with
        | some o =>
          if iequals e.op "$eq" then o == .eq
          else if iequals e.op "$ne" then o != .eq
          else if iequals e.op "$lt" then o == .lt
          else if iequals e.op "$le" then o != .gt
          else if iequals e.op "$gt" then o == .gt
          else if iequals e.op "$ge" then o != .lt
          else false
        | none => false
      | _ => false

open ConditionTree ConditionParse in
/-- The design document's CASE 6 writes `(age >= 20 and age <= 60) or name = 'x'` as an `$or` over
a field with two operators and a field. The parser adds the two operators of `age` to the `$or`
root itself, so the `WHERE` text and `judge` both read a disjunction of three leaves, which a row
with `age = 10` satisfies. -/
theorem or_range_reads_as_disjunction :
    let c : Value := .array [single "$or" (.array
      [single "age" (.object [("$ge", .int 20), ("$le", .int 60)]), single "name" (.string "x")])]
    let row : Row := [("age", .int 10), ("name", .string "y")]
    (createRoot c).1 = 0 ∧
      (parseConditions c (createRoot c).2).map ConditionTree.asString =
        .ok "age >= 20 or age <= 60 or name = 'x'" ∧
      (parseConditions c (createRoot c).2).map (judge row.satisfies) = .ok true ∧
      docConditions row.satisfies c = false :=
  ⟨by decide, rfl, rfl, by decide⟩

end Ripple
