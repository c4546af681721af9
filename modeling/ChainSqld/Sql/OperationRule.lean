import ChainSqld.Sql.ConditionTree

/-!
# Operation rules

A table's owner may attach an `OperationRule` when creating it: an `Insert` part (a `Condition`
naming values the inserted rows must carry, and a `Count` limiting the rows each account may
insert), an `Update` part (the `Fields` that may be set, and a `Condition` on the rows), a
`Delete` part (a `Condition`) and a `Get` part. `OperationRule::dealWithTableListSetRule` checks a
rule when the table is created; `dealWithSqlStatementRule` checks each insert and update against
it and keeps the per-account insert count; `adjustInsertCount` recounts after a delete.

`STTx::buildRaw` then rewrites a statement's `Raw` with the rule: missing insert fields are filled
from the `Condition`, and the sender's conditions of an update or a delete are joined with the
rule's `Condition` under one `$and`. `STTx2SQL` turns the result into SQL: `check_raw`,
`build_execute_conditions` (the condition tree and its text), and the `update`/`delete`
statement, which has no `WHERE` at all when the condition text is empty.

A check that returns early is a `throw` of its result code in `Except TER`; a `Json::Value`
conversion that throws is `tefEXCEPTION`, which is what the transactor makes of an exception.
-/

set_option autoImplicit false

namespace Ripple

open Json Value ConditionTree ConditionParse

/-! ## Text replacement -/

/-- The scan of `StringReplace`: after a match is replaced the search resumes past it, `skip`
characters later. -/
def replaceScan (src des : List Char) : Nat → List Char → List Char
  | _, [] => []
  | skip + 1, _ :: cs => replaceScan src des skip cs
  | 0, c :: cs =>
    if src.isPrefixOf (c :: cs) then des ++ replaceScan src des (src.length - 1) cs
    else c :: replaceScan src des 0 cs

/-- `StringReplace (strBase, strSrc, strDes)`, for a non-empty `strSrc`. -/
def stringReplace (strBase strSrc strDes : String) : String :=
  String.ofList (replaceScan strSrc.toList strDes.toList 0 strBase.toList)

mutual
/-- `StringReplace` on the text of a JSON value reaches every string and every member name. -/
def replaceInValue (src des : String) : Value → Value
  | .string s => .string (stringReplace s src des)
  | .array es => .array (replaceInElems src des es)
  | .object ms => .object (replaceInMembers src des ms)
  | v => v

def replaceInElems (src des : String) : List Value → List Value
  | [] => []
  | e :: es => replaceInValue src des e :: replaceInElems src des es

def replaceInMembers (src des : String) : List (String × Value) → List (String × Value)
  | [] => []
  | (k, v) :: ms => (stringReplace k src des, replaceInValue src des v) :: replaceInMembers src des ms
end

/-! ## Result codes -/

inductive TER where
  | tesSUCCESS
  | temBAD_RULEANDTOKEN
  | temBAD_RAW
  | temBAD_OPERATIONRULE
  | temBAD_UPDATERULE
  | temBAD_DELETERULE
  | temBAD_INSERTLIMIT
  | tefTABLE_RULEDISSATISFIED
  | tefTABLE_TXDISPOSEERROR
  | tefEXCEPTION
deriving DecidableEq, Repr

/-- The code of a check run in `Except TER`. -/
def TER.ofExcept {α : Type} : Except TER α → TER
  | .ok _ => .tesSUCCESS
  | .error t => t

/-- `asString`, its throw made `tefEXCEPTION`. -/
def asStr (v : Value) : Except TER String :=
  match v.asString with
  | .ok s => .ok s
  | .error _ => .error .tefEXCEPTION

/-- `asInt` of a value already known to be an integer: an unsigned one is above `INT_MAX`, where
`asInt` throws. -/
def asIntOfIntegral (v : Value) : Except TER Int :=
  match v with
  | .int i => .ok i
  | _ => .error .tefEXCEPTION

/-- `std::find` over names, failing with `t`. -/
def requireMember (t : TER) (names : List String) (x : String) : Except TER Unit :=
  if names.contains x then .ok () else .error t

/-! ## Checking a rule when the table is created -/

mutual
/-- `checkRuleFields`: every name in a condition, at any depth, is a field of the table or starts
with `$`. -/
def checkRuleFields (vecFields : List String) : Value → Bool
  | .object ms => checkRuleMembers vecFields ms
  | .null => true
  | _ => false

def checkRuleMembers (vecFields : List String) : List (String × Value) → Bool
  | [] => true
  | (fieldName, value) :: ms =>
    (vecFields.contains fieldName || fieldName.isEmpty || fieldName.toList.head? == some '$') &&
      (match value with
        | .object vs => checkRuleMembers vecFields vs
        | .array items => checkRuleItems vecFields items
        | _ => true) &&
      checkRuleMembers vecFields ms

def checkRuleItems (vecFields : List String) : List Value → Bool
  | [] => true
  | item :: items => item.isObject && checkRuleFields vecFields item && checkRuleItems vecFields items
end

mutual
/-- Whether `toStyledString` of a value contains `"k" : "s"`: some member at any depth is `k`
with the string `s`. -/
def hasStyledMember (k s : String) : Value → Bool
  | .object ms => hasStyledMemberIn k s ms
  | .array es => hasStyledElem k s es
  | _ => false

def hasStyledMemberIn (k s : String) : List (String × Value) → Bool
  | [] => false
  | (k', v) :: ms =>
    (k' == k && match v with
      | .string s' => s' == s
      | _ => false) || hasStyledMember k s v || hasStyledMemberIn k s ms

def hasStyledElem (k s : String) : List Value → Bool
  | [] => false
  | e :: es => hasStyledMember k s e || hasStyledElem k s es
end

/-- `sDelete.find (sAccountCondition) != npos`; an empty `sAccountCondition` is found at `0`. -/
def findAccountCondition (sDelete : Value) : Option (String × String) → Bool
  | none => true
  | some (k, s) => hasStyledMember k s sDelete

section TableListSet

variable (isAccountID : String → Bool) (sender : String)

/-- The `Count` of the `Insert` part: an account field that is a field of the table, and a positive
integer limit. Returns the account field. -/
def checkInsertCount (vecFields : List String) (jsonCount : Value) : Except TER String := do
  if !jsonCount.isMember "AccountField" || !jsonCount.isMember "CountLimit" then
    throw .temBAD_OPERATIONRULE
  let accountField ← asStr (jsonCount.get "AccountField")
  requireMember .temBAD_OPERATIONRULE vecFields accountField
  let limit := jsonCount.get "CountLimit"
  if !limit.isInt && !limit.isUInt then throw .temBAD_OPERATIONRULE
  if (← asIntOfIntegral limit) ≤ 0 then throw .temBAD_OPERATIONRULE
  pure accountField

/-- The `Condition` of the `Insert` part: an object naming fields of the table, with the account
field bound to `$account` or an account. Returns the account condition it found. -/
def checkInsertCondition (vecFields : List String) (accountField : String) (condition : Value) :
    Except TER (Option (String × String)) := do
  if !condition.isObject then throw .temBAD_OPERATIONRULE
  condition.getMemberNames.foldlM (fun acc m => do
    requireMember .temBAD_OPERATIONRULE vecFields m
    if m == accountField then
      let sAccount ← asStr (condition.get accountField)
      if sAccount != "$account" && !isAccountID sAccount then throw .temBAD_OPERATIONRULE
      pure (some (accountField, sAccount))
    else pure acc) none

/-- The `Insert` part: its members are `Condition` and `Count`, checked as above. Returns the
account field (empty when inserts are not counted), whether they are, and the account condition. -/
def checkInsertRule (vecFields : List String) (insert : Value) :
    Except TER (String × Bool × Option (String × String)) := do
  let (accountField, bContainCountLimit) ←
    if insert.isMember "Count" then do pure ((← checkInsertCount vecFields (insert.get "Count")), true)
    else pure ("", false)
  if insert.getMemberNames.any (fun m => m != "Condition" && m != "Count") then
    throw .temBAD_OPERATIONRULE
  if insert.isMember "Condition" then
    pure (accountField, bContainCountLimit,
      (← checkInsertCondition isAccountID vecFields accountField (insert.get "Condition")))
  else pure (accountField, bContainCountLimit, none)

/-- The `Fields` of the `Update` part: every field listed is a field of the table other than the
account field; it is required when inserts are counted. -/
def checkUpdateFields (vecFields : List String) (accountField : String) (update : Value) : Except TER Unit :=
  if update.isMember "Fields" then
    (update.get "Fields").elems.forM fun f => do
      let name ← asStr f
      requireMember .temBAD_OPERATIONRULE vecFields name
      if name == accountField then throw .temBAD_OPERATIONRULE
  else if !accountField.isEmpty then throw .temBAD_UPDATERULE
  else pure ()

/-- The `Update` part: members `Condition` and `Fields` only, checked as above; the part is
required when inserts are counted. -/
def checkUpdateRule (vecFields : List String) (accountField : String) (jsonRule : Value) :
    Except TER Unit := do
  if jsonRule.isMember "Update" then
    let update := jsonRule.get "Update"
    if update.getMemberNames.any (fun m => m != "Condition" && m != "Fields") then
      throw .temBAD_OPERATIONRULE
    checkUpdateFields vecFields accountField update
    if update.isMember "Condition" then
      let condition := update.get "Condition"
      if !condition.isObject then throw .temBAD_OPERATIONRULE
      if !checkRuleFields vecFields condition then throw .temBAD_OPERATIONRULE
  else if !accountField.isEmpty then throw .temBAD_UPDATERULE

/-- One element of a counted `Delete` rule's `$and`: does it pin the account field to the sender? -/
def deletePinsAccount (accountField : String) (sAccountCondition : Option (String × String))
    (element : Value) : Except TER Bool :=
  match sAccountCondition with
  | some _ => pure (findAccountCondition element sAccountCondition)
  | none =>
    if element.isMember accountField then do
      let strAccount ← asStr (element.get accountField)
      pure (strAccount == "$account" || strAccount == sender)
    else pure false

/-- The first of `es` that pins the account field, read in order as the loop does. -/
def anyPinsAccount (accountField : String) (sAccountCondition : Option (String × String)) :
    List Value → Except TER Bool
  | [] => pure false
  | e :: es => do
    if ← deletePinsAccount sender accountField sAccountCondition e then pure true
    else anyPinsAccount accountField sAccountCondition es

/-- The `Delete` part: one member, `Condition`, an object of fields of the table; when inserts
are counted it must keep deletes to the sender's own rows, and it is required. -/
def checkDeleteRule (vecFields : List String) (accountField : String) (bContainCountLimit : Bool)
    (sAccountCondition : Option (String × String)) (jsonRule : Value) : Except TER Unit := do
  if jsonRule.isMember "Delete" then
    let delete := jsonRule.get "Delete"
    if delete.getMemberNames != ["Condition"] then throw .temBAD_DELETERULE
    let condition := delete.get "Condition"
    if !condition.isObject then throw .temBAD_DELETERULE
    if !checkRuleFields vecFields condition then throw .temBAD_OPERATIONRULE
    if bContainCountLimit then
      if condition.isMember "$or" then throw .temBAD_DELETERULE
      else if condition.isMember "$and" then
        let jsonFields := condition.get "$and"
        if !jsonFields.isArray then throw .temBAD_DELETERULE
        if !(← anyPinsAccount sender accountField sAccountCondition jsonFields.elems) then
          throw .temBAD_DELETERULE
      else if !findAccountCondition condition sAccountCondition then throw .temBAD_DELETERULE
  else if bContainCountLimit then throw .temBAD_DELETERULE

/-- The `Get` part: one member, `Condition`, naming fields of the table. -/
def checkGetRule (vecFields : List String) (jsonRule : Value) : Except TER Unit := do
  if jsonRule.isMember "Get" then
    let get := jsonRule.get "Get"
    if get.getMemberNames != ["Condition"] then throw .temBAD_OPERATIONRULE
    if !checkRuleFields vecFields (get.get "Condition") then throw .temBAD_OPERATIONRULE

/-- The checks of a rule against the fields the create statement's `Raw` declares. -/
def checkOperationRule (jsonRule raw : Value) : Except TER Unit := do
  let vecFields ← (raw.elems.filter (·.isMember "field")).mapM fun v => asStr (v.get "field")
  let (accountField, bContainCountLimit, sAccountCondition) ←
    if jsonRule.isMember "Insert" then checkInsertRule isAccountID vecFields (jsonRule.get "Insert")
    else pure ("", false, none)
  checkUpdateRule vecFields accountField jsonRule
  checkDeleteRule sender vecFields accountField bContainCountLimit sAccountCondition jsonRule
  checkGetRule vecFields jsonRule

/-- `dealWithTableListSetRule` for a `T_CREATE`: no rule passes, a rule with a token is refused. -/
def dealWithTableListSetRule (hasToken : Bool) (operationRule : Option Value) (raw : Value) : TER :=
  match operationRule with
  | none => .tesSUCCESS
  | some jsonRule =>
    if hasToken then .temBAD_RULEANDTOKEN
    else TER.ofExcept (checkOperationRule isAccountID sender jsonRule raw)

end TableListSet

/-! ## Checking a statement -/

/-- The operations a statement's rule governs. -/
inductive RecordOp where
  | insert
  | update
  | delete
deriving DecidableEq, Repr

/-- The part of a table's rule for an operation, as `STEntry::getOperationRule` stores it. -/
def RecordOp.ruleKey : RecordOp → String
  | .insert => "Insert"
  | .update => "Update"
  | .delete => "Delete"

/-- What a statement carries: its sender's account, its hash and its `Raw`, as text where the
source prints them with `to_string`. -/
structure SqlStatementTx where
  account : String
  txHash : String
  opType : RecordOp
  raw : Value

/-- `mapRule`: each member of the `Condition` as a string. -/
def insertMapRule (jsonRule : Value) : Except TER (List (String × String)) :=
  if jsonRule.isMember "Condition" then
    let condition := jsonRule.get "Condition"
    condition.getMemberNames.mapM fun m => do pure (m, ← asStr (condition.get m))
  else pure []

/-- One inserted row against `mapRule`: a field the rule names must carry the sender, the
statement's hash or the rule's value. -/
def checkInsertFields (tx : SqlStatementTx) (mapRule : List (String × String)) (v : Value) :
    Except TER Unit :=
  v.getMemberNames.forM fun fieldName =>
    match mapRule.lookup fieldName with
    | none => pure ()
    | some rule => do
      let value ← asStr (v.get fieldName)
      if rule == "$account" then
        if value != tx.account then throw .tefTABLE_RULEDISSATISFIED
      else if rule == "$tx_hash" then
        if value != tx.txHash then throw .tefTABLE_RULEDISSATISFIED
      else if rule != value then throw .tefTABLE_RULEDISSATISFIED

/-- One inserted row must give the counted account field the sender: through the rule, or through
its own value. -/
def checkInsertAccount (tx : SqlStatementTx) (mapRule : List (String × String)) (accountField : String)
    (v : Value) : Except TER Unit := do
  if accountField != "" then
    let bAccountRight ←
      match mapRule.lookup accountField with
      | some rule => pure (rule == "$account" || rule == tx.account)
      | none =>
        if v.getMemberNames.contains accountField then do pure ((← asStr (v.get accountField)) == tx.account)
        else pure false
    if !bAccountRight then throw .tefTABLE_RULEDISSATISFIED

/-- `dealWithSqlStatementRule` for an insert: every row passes the rule, and the rows fit in what
is left of the sender's limit. Returns the sender's count afterwards (`none`: no count kept). -/
def dealWithInsertRule (tx : SqlStatementTx) (jsonRule : Value) (count : Option Nat) :
    Except TER (Option Nat) := do
  let mapRule ← insertMapRule jsonRule
  let (accountField, insertLimit) ←
    if jsonRule.isMember "Count" then do
      let jsonCount := jsonRule.get "Count"
      pure ((← asStr (jsonCount.get "AccountField")), (← asIntOfIntegral (jsonCount.get "CountLimit")))
    else pure ("", -1)
  tx.raw.elems.forM fun v => do
    checkInsertFields tx mapRule v
    checkInsertAccount tx mapRule accountField v
  if insertLimit > 0 then
    let nCount := count.getD 0
    if ((nCount + tx.raw.size : Nat) : Int) > insertLimit then throw .temBAD_INSERTLIMIT
    pure (some (nCount + tx.raw.size))
  else pure count

/-- `dealWithSqlStatementRule` for an update: a record and a condition at least, and only listed
fields set when `Fields` lists any. -/
def dealWithUpdateRule (tx : SqlStatementTx) (jsonRule : Value) : Except TER Unit := do
  let vecFields ← (jsonRule.get "Fields").elems.mapM asStr
  if tx.raw.size ≤ 1 then throw .temBAD_RAW
  if !vecFields.isEmpty then
    (tx.raw.atIndex 0).getMemberNames.forM fun fieldName =>
      requireMember .tefTABLE_RULEDISSATISFIED vecFields fieldName

/-! ## Rewriting the raw -/

/-- `STTx::buildRaw (condition, rule)`: the sender's conditions (one object, or several under
`$or`) and the rule's `Condition` (an object, or several under `$or`) joined by `$and`; the rule
alone when the sender's conditions are empty; nothing changed without a `Condition`. -/
def buildRawConditions (account : String) (condition rule : Value) : Value :=
  let jsonRule := replaceInValue "$account" account rule
  if !jsonRule.isMember "Condition" then condition
  else
    let rawObj :=
      if condition.size == 1 then condition.atIndex 0
      else if condition.size > 1 then single "$or" condition
      else .null
    let ruleCondition := jsonRule.get "Condition"
    let finalRule :=
      if ruleCondition.isArray then (if ruleCondition.size > 1 then single "$or" ruleCondition else .null)
      else ruleCondition
    let finalObj := if rawObj.size != 0 then single "$and" (.array [rawObj, finalRule]) else finalRule
    Value.null.append finalObj

/-- The value an insert rule fills into a missing field. -/
def fillValue (tx : SqlStatementTx) (fieldValue : Value) : Except TER Value := do
  if (← asStr fieldValue) == "$account" then pure (.string tx.account)
  else match fieldValue with
    | .string "$tx_hash" => pure (.string tx.txHash)
    | v => pure v

/-- One member of the insert rule's `Condition`, filled into a row that lacks it. -/
def fillMissing (tx : SqlStatementTx) (v : Value) (r : String × Value) : Except TER Value :=
  if v.getMemberNames.contains r.1 then pure v
  else do pure (v.set r.1 (← fillValue tx r.2))

/-- `STTx::buildRaw (sOperationRule)` for a statement with a rule: inserts get the rule's fields
they lack, updates and deletes get the rule's condition. -/
def buildRaw (tx : SqlStatementTx) (rule : Value) : Except TER Value :=
  match tx.opType with
  | .insert => do
    let condition := rule.get "Condition"
    let mapRule := condition.getMemberNames.map fun m => (m, condition.get m)
    let rows ← tx.raw.elems.mapM fun v => mapRule.foldlM (fillMissing tx) v
    pure (.array rows)
  | .update =>
    let conditions := (tx.raw.elems.drop 1).foldl append .null
    let conditions :=
      if conditions.isArray && conditions.size > 0 then buildRawConditions tx.account conditions rule
      else rule
    pure ((Value.null.append (tx.raw.atIndex 0)).elems ++ conditions.elems |> .array)
  | .delete => pure (buildRawConditions tx.account tx.raw rule)

/-! ## Building the SQL -/

/-- `check_raw` for an insert, update or delete: a non-empty array of non-empty objects. -/
def checkRaw (raw : Value) : Bool :=
  raw.isArray && raw.size != 0 && raw.elems.all fun e => e.isObject && e.getMemberNames.length != 0

/-- `build_execute_conditions`: the result code, the condition text and the tree. -/
def buildExecuteConditions (index : Int) (condition : Value) : Int × String × ConditionTree :=
  let empty := ConditionTree.ofType .expression
  if condition.isNull then (-1, "error", empty)
  else if !condition.isArray || condition.size == 0 then (0, "", empty)
  else
    let node := createRoot condition
    if node.1 != 0 then (-1, "create condition unsuccessfully.[" ++ jsonAsString condition ++ "]", empty)
    else
      match parseConditions condition node.2 with
      | .error e => (-1, e, empty)
      | .ok tree => (0, (asConditionString index tree).1, tree)

/-- The `delete` statement `execute_delete_sql` runs. -/
def deleteSql (tablename c : String) : String :=
  if c.isEmpty then "delete from " ++ tablename else "delete from " ++ tablename ++ " where " ++ c

/-- `parseField`: the value a field is set to (an object gives it under `value`). -/
def parseField (json : Value) : Except String BindValue :=
  let val := if json.isObject then json.get "value" else json
  if json.isObject && !(json.get "op").isString then .error "operator's type must be string"
  else
    match val with
    | .string s => .ok (.string s)
    | .int i => .ok (.int i)
    | .bool b => .ok (.int (if b then 1 else 0))
    | .uint _ => .error "integer out of signed integer range"
    | _ => .error ("Unkown type when parsing fields.[" ++ jsonAsString val ++ "]")

end Ripple
