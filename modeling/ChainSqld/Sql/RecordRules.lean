import ChainSqld.Sql.OperationRule
import ChainSqld.Lib.StateExcept

/-!
# Record-level rules over a table

A table is its rows together with each account's insert count for it, the `InsertCountMap` entry
kept in the account's ledger object. `applyStatement` is what a successful `SQLStatement` does:
`SqlStatement::dispose` checks the statement against the table's rule
(`dealWithSqlStatementRule`), `STTx::buildRaw` rewrites its `Raw`, `STTx2SQL::ExecuteSQL` runs the
SQL, and `adjustInsertCount` recounts the sender's rows after a delete. A statement that fails
leaves the table as it was.

An `update` or `delete` reaches every row when its condition text is empty, since the statement
then has no `WHERE`, and otherwise the rows its condition tree holds on (`reached`).
-/

set_option autoImplicit false

namespace Ripple

open Json Value ConditionTree ConditionParse

/-- A table: its rows, and each account's insert count (`none`: none kept). -/
structure Table where
  rows : List Row
  counts : String → Option Nat

/-- The row `GenerateInsertSql` inserts for one object of the `Raw`. -/
def rowOf (v : Value) : Except String Row :=
  v.getMemberNames.mapM fun name => do pure (name, ← parseField (v.get name))

/-- The record of an update: the fields it sets, from the first object of the `Raw`. -/
def updateFields (v : Value) : Except String (List (String × BindValue)) := rowOf v

/-- A row after `set name = value`. -/
def Row.setField (row : Row) (name : String) (value : BindValue) : Row :=
  if row.any (·.1 == name) then row.map fun c => if c.1 == name then (name, value) else c
  else row ++ [(name, value)]

/-- A row after an update's `set` list. -/
def Row.update (row : Row) (fields : List (String × BindValue)) : Row :=
  fields.foldl (fun r f => r.setField f.1 f.2) row

/-- Whether an `update` or `delete` with condition text `c` and tree `tree` reaches a row. -/
def reached (c : String) (tree : ConditionTree) (row : Row) : Bool :=
  c.isEmpty || holds row.satisfies tree

/-- The rows whose `field` is the string `account`: `SELECT count(*) ... WHERE field = 'account'`. -/
def ownedRows (field account : String) (rows : List Row) : Nat :=
  (rows.filter fun r => r.satisfies ⟨field, "$eq", [.string account]⟩).length

/-- The part of a table's rule for an operation. -/
def ruleFor (rules : Value) (op : RecordOp) : Option Value :=
  if rules.isMember op.ruleKey then some (rules.get op.ruleKey) else none

/-- `adjustInsertCount`: after a delete, a counted sender's count is the number of its rows left. -/
def adjustInsertCount (insertRule : Option Value) (sender : String) (rows : List Row) (count : Option Nat) :
    Except TER (Option Nat) :=
  match insertRule with
  | none => pure count
  | some jsonRule =>
    if !jsonRule.isMember "Count" then pure count
    else do
      let sAccountField ← asStr ((jsonRule.get "Count").get "AccountField")
      let insertLimit ← asIntOfIntegral ((jsonRule.get "Count").get "CountLimit")
      if insertLimit > 0 then pure (count.map fun _ => ownedRows sAccountField sender rows)
      else pure count

/-- What `ExecuteSQL` does to the rows, after `check_raw`: inserts append a row per object;
updates and deletes build their condition and must reach a row. -/
def executeSql (opType : RecordOp) (raw : Value) (rows : List Row) : Except TER (List Row) :=
  let fail : Except TER (List Row) := .error .tefTABLE_TXDISPOSEERROR
  if !checkRaw raw then fail
  else
    match opType with
    | .insert =>
      match raw.elems.mapM rowOf with
      | .ok new => .ok (rows ++ new)
      | .error _ => fail
    | .update =>
      match updateFields (raw.atIndex 0) with
      | .error _ => fail
      | .ok fields =>
        let conditions := (raw.elems.drop 1).foldl append .null
        let conditions := if conditions.isArray && conditions.size > 0 then conditions else .null
        match buildExecuteConditions fields.length conditions with
        | (0, c, tree) =>
          if rows.any (reached c tree) then
            .ok (rows.map fun r => if reached c tree r then r.update fields else r)
          else fail
        | _ => fail
    | .delete =>
      match buildExecuteConditions 0 raw with
      | (0, c, tree) => if rows.any (reached c tree) then .ok (rows.filter fun r => !reached c tree r) else fail
      | _ => fail

/-- `dealWithSqlStatementRule` as `dispose` runs it: the sender's count afterwards. -/
def ruleCount (rule : Option Value) (tx : SqlStatementTx) (count : Option Nat) : Except TER (Option Nat) :=
  match rule, tx.opType with
  | some r, .insert => dealWithInsertRule tx r count
  | some r, .update => do dealWithUpdateRule tx r; pure count
  | _, _ => pure count

/-- The `Raw` that `ExecuteSQL` reads: rewritten by `buildRaw` when there is a rule. -/
def ruleRaw (rule : Option Value) (tx : SqlStatementTx) : Except TER Value :=
  match rule with
  | some r => buildRaw tx r
  | none => pure tx.raw

/-- The sender's count after the statement: recounted after a delete. -/
def recount (rules : Value) (tx : SqlStatementTx) (rows : List Row) (count : Option Nat) :
    Except TER (Option Nat) :=
  if tx.opType == .delete then adjustInsertCount (ruleFor rules .insert) tx.account rows count
  else pure count

/-- One `SQLStatement` on a table with the rule `rules`. -/
def applyStatement (rules : Value) (tx : SqlStatementTx) (t : Table) : Except TER Table := do
  let rule := ruleFor rules tx.opType
  let count ← ruleCount rule tx (t.counts tx.account)
  let raw ← ruleRaw rule tx
  let rows ← executeSql tx.opType raw t.rows
  let count ← recount rules tx rows count
  pure ⟨rows, Function.update t.counts tx.account count⟩

/-- Statements one after another; one that fails changes nothing. -/
def runStatements (rules : Value) : List SqlStatementTx → Table → Table
  | [], t => t
  | tx :: txs, t =>
    match applyStatement rules tx t with
    | .ok t' => runStatements rules txs t'
    | .error _ => runStatements rules txs t

/-- A delete rule's `Condition` does not bound a sender whose own condition is a field with an
empty object of operators: that field adds no leaf, so the `$and` that `buildRaw` makes has one
child, which `traverse` skips; the condition text is empty and the statement is a `delete` with no
`WHERE`, which removes a row of another account. -/
theorem delete_rule_bypassed_by_empty_operators :
    let rules : Value := single "Delete" (single "Condition" (single "account" (.string "$account")))
    let tx : SqlStatementTx := ⟨"zA", "h", .delete, .array [single "id" (.object [])]⟩
    let row : Row := [("account", .string "zB"), ("id", .int 7)]
    let raw : Value := .array [single "$and" (.array [single "id" (.object []), single "account" (.string "zA")])]
    buildRaw tx (rules.get "Delete") = .ok raw ∧ checkRaw raw = true ∧
      (buildExecuteConditions 0 raw).1 = 0 ∧ deleteSql "t" (buildExecuteConditions 0 raw).2.1 = "delete from t" ∧
      (applyStatement rules tx ⟨[row], fun _ => none⟩).map Table.rows = .ok [] ∧
      docObject row.satisfies (single "account" (.string "zA")) = false :=
  ⟨rfl, by decide, by decide, by decide, rfl, by decide⟩

/-! ## What the delete check accepts

When inserts are counted, `dealWithTableListSetRule` looks for the text `"f" : "s"` of the insert
rule's account condition in the styled delete condition. Without an account condition that text is
empty and every condition passes; under `$and` it may sit at any depth of one element. -/

section DeleteCheck

variable (sender : String)

/-- Without an account condition in the `Insert` part, a counted rule's `Delete` condition passes
whatever it says, as long as it names fields of the table and has no `$or` or `$and` member. -/
theorem checkDeleteRule_of_unpinned {vecFields : List String} {f : String} {rules cond : Value}
    (hm : rules.isMember "Delete" = true) (hd : rules.get "Delete" = single "Condition" cond)
    (hobj : cond.isObject = true) (hf : checkRuleFields vecFields cond = true)
    (hor : cond.isMember "$or" = false) (hand : cond.isMember "$and" = false) :
    checkDeleteRule sender vecFields f true none rules = .ok () := by
  simp [checkDeleteRule, hm, hd, hobj, hf, hor, hand, findAccountCondition]

/-- An element of the `$and` pins the account as soon as the account condition's text appears
anywhere in it, under a nested `$or` or an operator object included. -/
theorem anyPinsAccount_of_styled (f : String) {k s : String} {e : Value} (hs : hasStyledMember k s e = true) :
    ∀ es : List Value, e ∈ es → anyPinsAccount sender f (some (k, s)) es = .ok true
  | [], h => absurd h List.not_mem_nil
  | e' :: es, h => by
    by_cases h' : hasStyledMember k s e' = true
    · simp [anyPinsAccount, deletePinsAccount, findAccountCondition, h']
    · have hmem : e ∈ es := (List.mem_cons.mp h).resolve_left (by rintro rfl; exact h' hs)
      simp [anyPinsAccount, deletePinsAccount, findAccountCondition, h',
        anyPinsAccount_of_styled f hs es hmem]

/-- A counted rule's `Delete` condition under `$and` passes once one element mentions the
account condition, whatever the other elements and the element's own operators say. -/
theorem checkDeleteRule_of_styled {vecFields : List String} {f k s : String} {rules cond e : Value}
    {es : List Value} (hm : rules.isMember "Delete" = true) (hd : rules.get "Delete" = single "Condition" cond)
    (hobj : cond.isObject = true) (hf : checkRuleFields vecFields cond = true)
    (hor : cond.isMember "$or" = false) (hand : cond.isMember "$and" = true) (hes : cond.get "$and" = .array es)
    (he : e ∈ es) (hs : hasStyledMember k s e = true) :
    checkDeleteRule sender vecFields f true (some (k, s)) rules = .ok () := by
  have hpin := anyPinsAccount_of_styled sender f hs es he
  simp [checkDeleteRule, hm, hd, hobj, hf, hor, hand, hes, isArray, hpin]

end DeleteCheck

/-- Two rules counting inserts on `owner` pass `dealWithTableListSetRule`, yet their `Delete`
conditions, `$account` replaced by `zA`, hold on a row of `zB`, in the tree the SQL is built from
and in the documented reading; a delete by `zA` then removes that row. The first rule has no
`Insert` condition, so the text searched for is empty; the second pins `owner` only under a nested
`$or`. -/
theorem counted_delete_reaches_other_rows :
    let fields : Value := .array [.object [("field", .string "id"), ("type", .string "int")],
      .object [("field", .string "owner"), ("type", .string "varchar")]]
    let count : Value := .object [("AccountField", .string "owner"), ("CountLimit", .int 1)]
    let nested : Value := single "$and" (.array [single "$or" (.array [single "owner" (.string "$account"),
      single "id" (.int 1)]), single "id" (.int 1)])
    let rules1 : Value := .object [("Delete", single "Condition" (single "id" (.int 1))),
      ("Insert", single "Count" count), ("Update", single "Fields" (.array [.string "id"]))]
    let rules2 : Value := .object [("Delete", single "Condition" nested),
      ("Insert", .object [("Condition", single "owner" (.string "$account")), ("Count", count)]),
      ("Update", single "Fields" (.array [.string "id"]))]
    let c1 := Value.array [replaceInValue "$account" "zA" (single "id" (.int 1))]
    let c2 := Value.array [replaceInValue "$account" "zA" nested]
    let row : Row := [("id", .int 1), ("owner", .string "zB")]
    let tx : SqlStatementTx := ⟨"zA", "h", .delete, .array [single "id" (.int 1)]⟩
    (∀ isAccountID, dealWithTableListSetRule isAccountID "zO" false (some rules1) fields = .tesSUCCESS) ∧
      dealWithTableListSetRule (fun _ => true) "zO" false (some rules2) fields = .tesSUCCESS ∧
      (buildExecuteConditions 0 c1).1 = 0 ∧
      reached (buildExecuteConditions 0 c1).2.1 (buildExecuteConditions 0 c1).2.2 row = true ∧
      (buildExecuteConditions 0 c2).1 = 0 ∧
      reached (buildExecuteConditions 0 c2).2.1 (buildExecuteConditions 0 c2).2.2 row = true ∧
      docConditions row.satisfies c1 = true ∧ docConditions row.satisfies c2 = true ∧
      (applyStatement rules1 tx ⟨[row], fun _ => none⟩).map Table.rows = .ok [] ∧
      (applyStatement rules2 tx ⟨[row], fun _ => none⟩).map Table.rows = .ok [] :=
  ⟨fun _ => rfl, rfl, by decide, by decide, by decide, by decide, by decide, by decide, rfl, rfl⟩

/-- A rule that counts inserts on `owner`, at most one each, with an `Update` part of no `Fields`,
passes `dealWithTableListSetRule`; the empty list lets an update set `owner`. Account `zA` inserts
its row and hands it to `zB`, which then inserts its own: `zB` holds two rows. -/
theorem insert_limit_passed_by_update :
    let rules : Value := .object [("Delete", single "Condition" (single "owner" (.string "$account"))),
      ("Insert", single "Count" (.object [("AccountField", .string "owner"), ("CountLimit", .int 1)])),
      ("Update", single "Fields" (.array []))]
    let fields : Value := .array [.object [("field", .string "id"), ("type", .string "int")],
      .object [("field", .string "owner"), ("type", .string "varchar")]]
    let txs : List SqlStatementTx := [⟨"zA", "h1", .insert, .array [.object [("id", .int 1), ("owner", .string "zA")]]⟩,
      ⟨"zA", "h2", .update, .array [single "owner" (.string "zB"), single "id" (.int 1)]⟩,
      ⟨"zB", "h3", .insert, .array [.object [("id", .int 2), ("owner", .string "zB")]]⟩]
    (∀ isAccountID, dealWithTableListSetRule isAccountID "zO" false (some rules) fields = .tesSUCCESS) ∧
      ownedRows "owner" "zB" (runStatements rules txs ⟨[], fun _ => none⟩).rows = 2 :=
  ⟨fun _ => rfl, by decide⟩

end Ripple
