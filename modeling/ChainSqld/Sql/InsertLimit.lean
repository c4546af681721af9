import ChainSqld.Sql.RecordRules
import ChainSqld.Lib.StateExcept

/-!
# The per-account insert limit

When a table's rule counts inserts on an account field `f` with a limit `L`, and its `Update`
part lists the fields an update may set, no account ever holds more than `L` rows whose `f` is
that account. The counts the ledger keeps carry the proof: every account holds at most its count
of rows, and no count is above `L` (`CountBound`). An insert raises the sender's count by the rows
it adds and is refused past `L`, and each row it adds names the sender in `f`
(`owned_of_insert`); an update sets listed fields only, and `dealWithTableListSetRule` keeps `f`
off that list (`countedRule_of_accepted`); a delete removes rows and recounts the sender.
-/

set_option autoImplicit false

namespace Ripple

open Json Value ConditionTree ConditionParse

/-! ## Counting rows -/

/-- A row is counted for `X` exactly when its field holds the string `X`. -/
theorem satisfies_eq_string_iff (r : Row) (f X : String) :
    r.satisfies ⟨f, "$eq", [.string X]⟩ = true ↔ r.lookup f = some (.string X) := by
  unfold Row.satisfies
  cases hr : r.lookup f with
  | none => simp
  | some x =>
    have hin : iequals "$eq" "$in" = false := by decide
    have hnin : iequals "$eq" "$nin" = false := by decide
    have heq : iequals "$eq" "$eq" = true := by decide
    cases x with
    | string a => simp [hin, hnin, heq, BindValue.compareWith]
    | int i => simp [hin, hnin, BindValue.compareWith]
    | uint n => simp [hin, hnin, BindValue.compareWith]

theorem ownedRows_append (f X : String) (a b : List Row) :
    ownedRows f X (a ++ b) = ownedRows f X a + ownedRows f X b := by
  simp [ownedRows, List.filter_append]

theorem ownedRows_le_length (f X : String) (rows : List Row) : ownedRows f X rows ≤ rows.length :=
  List.length_filter_le _ _

theorem ownedRows_eq_zero {f X : String} {rows : List Row}
    (h : ∀ r ∈ rows, r.lookup f ≠ some (.string X)) : ownedRows f X rows = 0 := by
  rw [ownedRows, List.length_eq_zero_iff, List.filter_eq_nil_iff]
  intro r hr hs
  exact h r hr ((satisfies_eq_string_iff r f X).mp hs)

theorem ownedRows_filter_le (f X : String) (p : Row → Bool) (rows : List Row) :
    ownedRows f X (rows.filter p) ≤ ownedRows f X rows := by
  rw [ownedRows, ownedRows, List.filter_comm]
  exact List.length_filter_le _ _

theorem ownedRows_map_of_lookup {f : String} {g : Row → Row} (hg : ∀ r, (g r).lookup f = r.lookup f)
    (X : String) (rows : List Row) : ownedRows f X (rows.map g) = ownedRows f X rows := by
  have hs : ∀ r, (g r).satisfies ⟨f, "$eq", [.string X]⟩ = r.satisfies ⟨f, "$eq", [.string X]⟩ := by
    intro r
    rw [Bool.eq_iff_iff, satisfies_eq_string_iff, satisfies_eq_string_iff, hg]
  simp only [ownedRows, List.filter_map, List.length_map]
  congr 2
  funext r
  exact hs r

/-! ## Rows built from JSON -/

/-- A column of a row `rowOf` built is `parseField` of the object's member of that name. -/
theorem lookup_of_rowOf {v : Value} {r : Row} (h : rowOf v = .ok r) {name : String} {x : BindValue}
    (hx : r.lookup name = some x) : parseField (v.get name) = .ok x :=
  (Except.lookup_mapM_pair h hx).2

/-- The columns of a row `rowOf` built are the object's member names. -/
theorem keys_of_rowOf {v : Value} {r : Row} (h : rowOf v = .ok r) : r.map Prod.fst = v.getMemberNames :=
  Except.keys_mapM_pair h

/-- A field the insert rule's `mapRule` names is a member of its `Condition`, read as text. -/
theorem lookup_insertMapRule {ins : Value} {mapRule : List (String × String)}
    (h : insertMapRule ins = .ok mapRule) {f rule : String} (hf : mapRule.lookup f = some rule) :
    f ∈ (ins.get "Condition").getMemberNames ∧ asStr ((ins.get "Condition").get f) = .ok rule := by
  unfold insertMapRule at h
  split at h
  · exact Except.lookup_mapM_pair h hf
  · cases h
    simp at hf

/-- A map that keeps every column's name and every column named `f` keeps what `f` reads. -/
theorem lookup_map_of_fixed {f : String} {g : String × BindValue → String × BindValue}
    (hkey : ∀ c, (g c).1 = c.1) (hfix : ∀ c, c.1 = f → g c = c) :
    ∀ r : Row, (r.map g).lookup f = r.lookup f
  | [] => rfl
  | (k, x) :: r => by
    rw [List.map_cons]
    by_cases hc : k = f
    · subst hc
      rw [hfix (k, x) rfl, List.lookup_cons_self, List.lookup_cons_self]
    · have hf : f ≠ k := fun e => hc e.symm
      have hk : (g (k, x)).1 = k := hkey (k, x)
      generalize g (k, x) = c' at hk
      obtain ⟨k', x'⟩ := c'
      simp only at hk
      subst hk
      rw [Json.Value.lookup_cons_ne hf, Json.Value.lookup_cons_ne hf, lookup_map_of_fixed hkey hfix r]

/-- Setting another column leaves a column as it was. -/
theorem lookup_setField_ne {f name : String} (h : f ≠ name) (value : BindValue) (r : Row) :
    (r.setField name value).lookup f = r.lookup f := by
  unfold Row.setField
  split
  · apply lookup_map_of_fixed
    · intro c
      split <;> simp_all
    · intro c hc
      have hne : (c.1 == name) = false := beq_false_of_ne (hc ▸ h)
      simp [hne]
  · rw [List.lookup_append]
    cases r.lookup f with
    | some x => rfl
    | none => simp [Json.Value.lookup_cons_ne h]

/-- An update that does not set `f` leaves what `f` reads. -/
theorem lookup_update_of_not_mem {f : String} {fields : List (String × BindValue)}
    (h : f ∉ fields.map Prod.fst) (r : Row) : (r.update fields).lookup f = r.lookup f := by
  induction fields generalizing r with
  | nil => rfl
  | cons c fields ih =>
    simp only [List.map_cons, List.mem_cons, not_or] at h
    simp only [Row.update, List.foldl_cons] at ih ⊢
    rw [ih h.2, lookup_setField_ne h.1]

/-- A value `asString` reads as `s` and `parseField` reads as a string is that string. -/
theorem eq_of_asStr_of_parseField {v : Value} {s X : String} (hs : asStr v = .ok s)
    (hp : parseField v = .ok (.string X)) : v = .string X ∧ s = X := by
  cases v with
  | null => simp [parseField, isObject, Value.get, isString] at hp
  | bool b => cases b <;> simp [parseField, isObject] at hp
  | int i => simp [parseField, isObject] at hp
  | string a =>
    simp only [parseField, isObject, Bool.false_and, Bool.false_eq_true, if_false, Except.ok.injEq,
      BindValue.string.injEq] at hp
    simp only [asStr, Value.asString, Except.ok.injEq] at hs
    exact ⟨hp ▸ rfl, hs ▸ hp⟩
  | uint n => simp [asStr, Value.asString] at hs
  | array es => simp [asStr, Value.asString] at hs
  | object ms => simp [asStr, Value.asString] at hs

/-! ## Filling an inserted row -/

section Fill

variable {tx : SqlStatementTx}

/-- After the rule's fields are filled in, a member the row had is unchanged, and a member it
lacked holds what `fillValue` made of the rule's first entry for it. -/
theorem get_of_fillMissing :
    ∀ {mr : List (String × Value)} {v v' : Value}, mr.foldlM (fillMissing tx) v = .ok v' → ∀ f,
      (f ∈ v.getMemberNames → v'.get f = v.get f) ∧
      (f ∉ v.getMemberNames → ∀ c, mr.lookup f = some c → ∃ w, fillValue tx c = .ok w ∧ v'.get f = w)
  | [], v, v', h, f => by
    cases h
    exact ⟨fun _ => rfl, fun _ c hc => by simp at hc⟩
  | (k, c0) :: mr, v, v', h, f => by
    rw [List.foldlM_cons] at h
    obtain ⟨v1, h1, h⟩ := Except.bind_eq_ok h
    have ih := get_of_fillMissing h f
    unfold fillMissing at h1
    split at h1
    · -- the row has `k` already
      rename_i hk
      cases h1
      refine ⟨ih.1, fun hf c hc => ?_⟩
      have hfk : f ≠ k := fun e => hf (e ▸ List.contains_iff_mem.mp hk)
      rw [Json.Value.lookup_cons_ne hfk] at hc
      exact ih.2 hf c hc
    · rename_i hk
      obtain ⟨w0, hw0, h1⟩ := Except.bind_eq_ok h1
      cases h1
      have hkv : k ∉ v.getMemberNames := fun e => hk (List.contains_iff_mem.mpr e)
      refine ⟨fun hf => ?_, fun hf c hc => ?_⟩
      · have hfk : f ≠ k := fun e => hkv (e ▸ hf)
        rw [ih.1 ((mem_getMemberNames_set v k f w0).mpr (.inr hf)), get_set, if_neg hfk]
      · by_cases hfk : f = k
        · subst hfk
          simp only [List.lookup_cons_self, Option.some.injEq] at hc
          subst hc
          refine ⟨w0, hw0, ?_⟩
          rw [ih.1 ((mem_getMemberNames_set v f f w0).mpr (.inl rfl)), get_set, if_pos rfl]
        · rw [Json.Value.lookup_cons_ne hfk] at hc
          have hf1 : f ∉ (v.set k w0).getMemberNames := by
            rw [mem_getMemberNames_set]
            exact fun e => e.elim hfk hf
          exact ih.2 hf1 c hc

/-- `fillValue` of a rule value that reads as `$account` is the sender. -/
theorem fillValue_of_account {c w : Value} (hc : asStr c = .ok "$account") (h : fillValue tx c = .ok w) :
    w = .string tx.account := by
  unfold fillValue at h
  rw [hc, Except.ok_bind] at h
  simp only [beq_self_eq_true, if_true] at h
  exact (Except.ok.inj h).symm

/-- Any other rule value is kept, except the text `$tx_hash`, which becomes the statement's hash. -/
theorem fillValue_of_ne_account {c w : Value} {rule : String} (hc : asStr c = .ok rule)
    (hr : rule ≠ "$account") (h : fillValue tx c = .ok w) :
    w = c ∨ (c = .string "$tx_hash" ∧ w = .string tx.txHash) := by
  unfold fillValue at h
  rw [hc, Except.ok_bind] at h
  simp only [beq_false_of_ne hr, Bool.false_eq_true, if_false] at h
  split at h
  · exact .inr ⟨rfl, (Except.ok.inj h).symm⟩
  · exact .inl (Except.ok.inj h).symm

/-- A row that passes `checkInsertFields` holds, in a field the rule names, the sender for
`$account`, the statement's hash for `$tx_hash`, and the rule's text otherwise. -/
theorem asStr_of_checkInsertFields {mapRule : List (String × String)} {v : Value}
    (h : checkInsertFields tx mapRule v = .ok ()) {f rule : String} (hf : f ∈ v.getMemberNames)
    (hr : mapRule.lookup f = some rule) :
    asStr (v.get f) = .ok (if rule = "$account" then tx.account
      else if rule = "$tx_hash" then tx.txHash else rule) := by
  have hb := Except.forM_eq_ok h f hf
  rw [hr] at hb
  obtain ⟨value, hv, hb⟩ := Except.bind_eq_ok hb
  rw [hv]
  by_cases ha : rule = "$account"
  · subst ha
    simp only [beq_self_eq_true, if_true, Except.throw_if_eq_ok, bne_eq_false_iff_eq] at hb
    simp [hb]
  · have hb' : (rule == "$account") = false := beq_false_of_ne ha
    by_cases ht : rule = "$tx_hash"
    · subst ht
      simp only [hb', beq_self_eq_true, Bool.false_eq_true, if_false, if_true, Except.throw_if_eq_ok,
        bne_eq_false_iff_eq] at hb
      simp [ha, hb]
    · simp only [hb', beq_false_of_ne ht, Bool.false_eq_true, if_false, Except.throw_if_eq_ok,
        bne_eq_false_iff_eq] at hb
      subst hb
      simp [ha, ht]

/-- A row that passes `checkInsertAccount` gives the account field the sender: through the rule,
or through its own value. -/
theorem checkInsertAccount_cases {mapRule : List (String × String)} {f : String} {v : Value}
    (h : checkInsertAccount tx mapRule f v = .ok ()) (hf : f ≠ "") :
    (∃ rule, mapRule.lookup f = some rule ∧ (rule = "$account" ∨ rule = tx.account)) ∨
      (mapRule.lookup f = none ∧ f ∈ v.getMemberNames ∧ asStr (v.get f) = .ok tx.account) := by
  unfold checkInsertAccount at h
  simp only [bne_iff_ne, ne_eq, hf, not_false_eq_true, if_true] at h
  cases hl : mapRule.lookup f with
  | some rule =>
    rw [hl] at h
    simp only [pure_bind, Except.throw_if_eq_ok, Bool.not_eq_false', Bool.or_eq_true, beq_iff_eq] at h
    exact .inl ⟨rule, rfl, h⟩
  | none =>
    rw [hl] at h
    dsimp only at h
    split at h
    · rename_i hmem
      obtain ⟨s, hs, h⟩ := Except.bind_eq_ok h
      simp only [pure_bind, Except.throw_if_eq_ok, Bool.not_eq_false', beq_iff_eq] at h
      exact .inr ⟨rfl, List.contains_iff_mem.mp hmem, h ▸ hs⟩
    · simp only [pure_bind, Bool.not_false, if_true] at h
      cases h

/-- Every row an accepted insert adds holds, in the account field, nothing but the sender. -/
theorem owned_of_insert {ins : Value} {mapRule : List (String × String)} {f X : String} {v v' : Value}
    {r : Row} (hmap : insertMapRule ins = .ok mapRule) (hfields : checkInsertFields tx mapRule v = .ok ())
    (hacct : checkInsertAccount tx mapRule f v = .ok ()) (hf : f ≠ "")
    (hfill : ((ins.get "Condition").getMemberNames.map fun m => (m, (ins.get "Condition").get m)).foldlM
      (fillMissing tx) v = .ok v')
    (hrow : rowOf v' = .ok r) (hsender : tx.account ≠ "$tx_hash") (hown : r.lookup f = some (.string X)) :
    X = tx.account := by
  have hp := lookup_of_rowOf hrow hown
  have hfl := get_of_fillMissing hfill f
  by_cases hmem : f ∈ v.getMemberNames
  · -- the row gave the field itself; the checks read it as the sender
    rw [hfl.1 hmem] at hp
    rcases checkInsertAccount_cases hacct hf with ⟨rule, hr, hrule⟩ | ⟨_, _, hs⟩
    · have hs := asStr_of_checkInsertFields hfields hmem hr
      have hval : (if rule = "$account" then tx.account
          else if rule = "$tx_hash" then tx.txHash else rule) = tx.account := by
        rcases hrule with rfl | rfl
        · simp
        · simp [hsender]
      rw [hval] at hs
      exact (eq_of_asStr_of_parseField hs hp).2.symm
    · exact (eq_of_asStr_of_parseField hs hp).2.symm
  · -- the rule filled the field in
    rcases checkInsertAccount_cases hacct hf with ⟨rule, hr, hrule⟩ | ⟨_, hmem', _⟩
    · obtain ⟨hc, hcs⟩ := lookup_insertMapRule hmap hr
      obtain ⟨w, hw, hget⟩ := hfl.2 hmem _ (Json.Value.lookup_map_pair _ f _ hc)
      rw [hget] at hp
      by_cases ha : rule = "$account"
      · subst ha
        rw [fillValue_of_account hcs hw] at hp
        simp only [parseField, isObject, Bool.false_and, Bool.false_eq_true, if_false, Except.ok.injEq,
          BindValue.string.injEq] at hp
        exact hp.symm
      · have hra : rule = tx.account := hrule.resolve_left ha
        rcases fillValue_of_ne_account hcs ha hw with rfl | ⟨hc', rfl⟩
        · exact (eq_of_asStr_of_parseField hcs hp).2.symm.trans hra
        · rw [hc'] at hcs
          simp only [asStr, Value.asString, Except.ok.injEq] at hcs
          exact absurd (hra ▸ hcs).symm hsender
    · exact absurd hmem' hmem

/-- An accepted insert: every row passed the rule, and the sender's count grew by the rows within
the limit. -/
theorem dealWithInsertRule_spec {ins : Value} {f : String} {limit : Nat} {count count' : Option Nat}
    (hcount : ins.isMember "Count" = true) (hf : asStr ((ins.get "Count").get "AccountField") = .ok f)
    (hL : asIntOfIntegral ((ins.get "Count").get "CountLimit") = .ok limit) (hpos : 0 < limit)
    (h : dealWithInsertRule tx ins count = .ok count') :
    ∃ mapRule, insertMapRule ins = .ok mapRule ∧
      (∀ v ∈ tx.raw.elems, checkInsertFields tx mapRule v = .ok () ∧ checkInsertAccount tx mapRule f v = .ok ()) ∧
      count' = some (count.getD 0 + tx.raw.size) ∧ count.getD 0 + tx.raw.size ≤ limit := by
  unfold dealWithInsertRule at h
  obtain ⟨mapRule, hmap, h⟩ := Except.bind_eq_ok h
  simp only [hcount, if_true, hf, hL, Except.ok_bind] at h
  obtain ⟨p, hp, h⟩ := Except.bind_eq_ok h
  cases hp
  obtain ⟨u, hrows, h⟩ := Except.bind_eq_ok h
  refine ⟨mapRule, hmap, fun v hv => ?_, ?_⟩
  · obtain ⟨u', h1, h2⟩ := Except.bind_eq_ok (Except.forM_eq_ok hrows v hv)
    exact ⟨h1, h2⟩
  · have hlim : (0 : Int) < limit := by exact_mod_cast hpos
    simp only [hlim, if_true] at h
    split at h
    · cases h
    · rename_i hle
      cases h
      exact ⟨rfl, by omega⟩

/-- `buildRaw` of an insert fills each row of the `Raw` in turn. -/
theorem buildRaw_insert {ins raw : Value} (hop : tx.opType = .insert) (h : buildRaw tx ins = .ok raw) :
    ∃ rows, raw = .array rows ∧ List.Forall₂ (fun v v' =>
      ((ins.get "Condition").getMemberNames.map fun m => (m, (ins.get "Condition").get m)).foldlM
        (fillMissing tx) v = .ok v') tx.raw.elems rows := by
  unfold buildRaw at h
  rw [hop] at h
  obtain ⟨rows, hrows, h⟩ := Except.bind_eq_ok h
  cases h
  exact ⟨rows, rfl, Except.mapM_eq_ok hrows⟩

end Fill

/-! ## What each statement does -/

/-- Everything a successful statement does, step by step. -/
theorem applyStatement_eq_ok {rules : Value} {tx : SqlStatementTx} {t t' : Table}
    (h : applyStatement rules tx t = .ok t') :
    ∃ count raw rows count', ruleCount (ruleFor rules tx.opType) tx (t.counts tx.account) = .ok count ∧
      ruleRaw (ruleFor rules tx.opType) tx = .ok raw ∧ executeSql tx.opType raw t.rows = .ok rows ∧
      recount rules tx rows count = .ok count' ∧ t' = ⟨rows, Function.update t.counts tx.account count'⟩ := by
  unfold applyStatement at h
  obtain ⟨count, hcount, h⟩ := Except.bind_eq_ok h
  obtain ⟨raw, hraw, h⟩ := Except.bind_eq_ok h
  obtain ⟨rows, hrows, h⟩ := Except.bind_eq_ok h
  obtain ⟨count', hcount', h⟩ := Except.bind_eq_ok h
  exact ⟨count, raw, rows, count', hcount, hraw, hrows, hcount', (Except.ok.inj h).symm⟩

/-- An insert appends the rows `rowOf` makes of the rewritten `Raw`. -/
theorem executeSql_insert {raw : Value} {rows rows' : List Row} (h : executeSql .insert raw rows = .ok rows') :
    ∃ new, raw.elems.mapM rowOf = .ok new ∧ rows' = rows ++ new := by
  unfold executeSql at h
  split at h
  · cases h
  · dsimp only at h
    split at h
    · rename_i new hnew
      exact ⟨new, hnew, (Except.ok.inj h).symm⟩
    · cases h

/-- An update sets the fields of its first object on the rows it reaches. -/
theorem executeSql_update {raw : Value} {rows rows' : List Row} (h : executeSql .update raw rows = .ok rows') :
    ∃ fields : List (String × BindValue), ∃ p : Row → Bool, updateFields (raw.atIndex 0) = .ok fields ∧
      rows' = rows.map fun r => if p r then r.update fields else r := by
  unfold executeSql at h
  split at h
  · cases h
  · dsimp only at h
    split at h
    · cases h
    · rename_i fields hfields
      split at h
      · rename_i c tree _
        split at h
        · exact ⟨fields, reached c tree, hfields, (Except.ok.inj h).symm⟩
        · cases h
      · cases h

/-- A delete keeps the rows it does not reach. -/
theorem executeSql_delete {raw : Value} {rows rows' : List Row} (h : executeSql .delete raw rows = .ok rows') :
    ∃ p : Row → Bool, rows' = rows.filter p := by
  unfold executeSql at h
  split at h
  · cases h
  · dsimp only at h
    split at h
    · rename_i c tree _
      split at h
      · exact ⟨fun r => !reached c tree r, (Except.ok.inj h).symm⟩
      · cases h
    · cases h

section Update

variable {tx : SqlStatementTx}

/-- An update that passes its rule sets only fields the rule lists, when it lists any. -/
theorem mem_fields_of_dealWithUpdateRule {upd : Value} {fields : List String}
    (h : dealWithUpdateRule tx upd = .ok ()) (hf : (upd.get "Fields").elems.mapM asStr = .ok fields)
    (hne : fields ≠ []) : ∀ n ∈ (tx.raw.atIndex 0).getMemberNames, n ∈ fields := by
  unfold dealWithUpdateRule at h
  rw [hf, Except.ok_bind] at h
  have hne' : (!fields.isEmpty) = true := by simpa using hne
  simp only [hne', if_true] at h
  split at h
  · simp [throw, throwThe, MonadExceptOf.throw] at h
  · intro n hn
    have hreq := Except.forM_eq_ok h n hn
    unfold requireMember at hreq
    split at hreq
    · exact List.contains_iff_mem.mp ‹_›
    · cases hreq

/-- `buildRaw` keeps an update's record first. -/
theorem buildRaw_update {r raw : Value} (hop : tx.opType = .update) (h : buildRaw tx r = .ok raw) :
    raw.atIndex 0 = tx.raw.atIndex 0 := by
  unfold buildRaw at h
  rw [hop] at h
  cases h
  cases tx.raw.atIndex 0 <;> simp [append, atIndex, elems]

end Update

/-- After a delete, a counted sender's count is its number of rows left. -/
theorem adjustInsertCount_spec {ins : Value} {f sender : String} {limit : Nat} {rows : List Row}
    {count count' : Option Nat} (hcount : ins.isMember "Count" = true)
    (hf : asStr ((ins.get "Count").get "AccountField") = .ok f)
    (hL : asIntOfIntegral ((ins.get "Count").get "CountLimit") = .ok limit) (hpos : 0 < limit)
    (h : adjustInsertCount (some ins) sender rows count = .ok count') :
    count' = count.map fun _ => ownedRows f sender rows := by
  have hlim : (limit : Int) > 0 := by exact_mod_cast hpos
  simp only [adjustInsertCount, hcount, Bool.not_true, Bool.false_eq_true, if_false, hf, hL,
    Except.ok_bind, hlim, if_true] at h
  exact (Except.ok.inj h).symm

/-! ## The bound over runs -/

/-- Each account holds at most its count of rows naming it in `f`, and no count is above `limit`. -/
def CountBound (f : String) (limit : Nat) (t : Table) : Prop :=
  ∀ X, ownedRows f X t.rows ≤ (t.counts X).getD 0 ∧ (t.counts X).getD 0 ≤ limit

/-- A table rule that counts inserts on a named field `f` up to `limit` and lets updates set only
`fields`, a non-empty list without `f`. -/
structure CountedRule (rules : Value) (f : String) (limit : Nat) (fields : List String) : Prop where
  insert_rule : ruleFor rules .insert = some (rules.get "Insert")
  count_member : (rules.get "Insert").isMember "Count" = true
  account_field : asStr (((rules.get "Insert").get "Count").get "AccountField") = .ok f
  count_limit : asIntOfIntegral (((rules.get "Insert").get "Count").get "CountLimit") = .ok limit
  limit_pos : 0 < limit
  field_named : f ≠ ""
  update_rule : ruleFor rules .update = some (rules.get "Update")
  update_fields : ((rules.get "Update").get "Fields").elems.mapM asStr = .ok fields
  fields_ne : fields ≠ []
  not_updatable : f ∉ fields

theorem countBound_empty (f : String) (limit : Nat) : CountBound f limit ⟨[], fun _ => none⟩ := by
  intro X
  simp [ownedRows]

section Step

variable {rules : Value} {f : String} {limit : Nat} {fields : List String} {tx : SqlStatementTx}
  {t t' : Table}

/-- The rows an insert adds name the sender, and there are no more of them than the `Raw` has. -/
theorem insert_added {ins raw : Value} {mapRule : List (String × String)} {new : List Row}
    (hop : tx.opType = .insert) (hf : f ≠ "") (hsender : tx.account ≠ "$tx_hash")
    (hmap : insertMapRule ins = .ok mapRule)
    (hrows : ∀ v ∈ tx.raw.elems, checkInsertFields tx mapRule v = .ok () ∧ checkInsertAccount tx mapRule f v = .ok ())
    (hraw : buildRaw tx ins = .ok raw) (hnew : raw.elems.mapM rowOf = .ok new) :
    new.length ≤ tx.raw.size ∧ ∀ X, X ≠ tx.account → ownedRows f X new = 0 := by
  obtain ⟨filled, rfl, hfill⟩ := buildRaw_insert hop hraw
  have hrow := Except.mapM_eq_ok hnew
  simp only [elems_array] at hrow
  refine ⟨?_, fun X hX => ownedRows_eq_zero fun r hr hown => hX ?_⟩
  · rw [← hrow.length_eq, ← hfill.length_eq]
    cases h : tx.raw <;> simp [elems, Value.size]
  · -- follow the row back through `rowOf` and the filling to the object of the `Raw` it came from
    obtain ⟨v', hv', hrv⟩ := Except.mem_of_mapM_eq_ok hnew hr
    obtain ⟨v, hv, hvv⟩ := hfill.exists_of_mem_right hv'
    exact owned_of_insert hmap (hrows v hv).1 (hrows v hv).2 hf hvv hrv hsender hown

theorem recount_of_ne_delete {rows : List Row} {count count' : Option Nat} (hop : tx.opType ≠ .delete)
    (h : recount rules tx rows count = .ok count') : count' = count := by
  have hb : (tx.opType == .delete) = false := beq_false_of_ne hop
  simp only [recount, hb, Bool.false_eq_true, if_false] at h
  exact (Except.ok.inj h).symm

theorem ruleCount_of_delete {rule : Option Value} {count : Option Nat} (hop : tx.opType = .delete) :
    ruleCount rule tx count = .ok count := by
  cases rule <;> simp only [ruleCount, hop] <;> rfl

theorem insert_countBound (hr : CountedRule rules f limit fields) (hop : tx.opType = .insert)
    (hsender : tx.account ≠ "$tx_hash") (ht : CountBound f limit t) (h : applyStatement rules tx t = .ok t') :
    CountBound f limit t' := by
  obtain ⟨count, raw, rows, count', hcount, hraw, hrows, hcount', rfl⟩ := applyStatement_eq_ok h
  rw [hop, hr.insert_rule] at hcount hraw
  rw [hop] at hrows
  simp only [ruleCount, hop] at hcount
  obtain ⟨mapRule, hmap, hchecks, rfl, hle⟩ :=
    dealWithInsertRule_spec hr.count_member hr.account_field hr.count_limit hr.limit_pos hcount
  obtain ⟨new, hnew, rfl⟩ := executeSql_insert hrows
  obtain ⟨hlen, hother⟩ := insert_added hop hr.field_named hsender hmap hchecks hraw hnew
  have hc' := recount_of_ne_delete (by simp [hop]) hcount'
  subst hc'
  intro X
  by_cases hX : X = tx.account
  · subst hX
    have hold := (ht tx.account).1
    have hmine := ownedRows_le_length f tx.account new
    simp only [Function.update_self, Option.getD_some, ownedRows_append]
    omega
  · simp only [Function.update_of_ne hX, ownedRows_append, hother X hX, Nat.add_zero]
    exact ht X

theorem update_countBound (hr : CountedRule rules f limit fields) (hop : tx.opType = .update)
    (ht : CountBound f limit t) (h : applyStatement rules tx t = .ok t') : CountBound f limit t' := by
  obtain ⟨count, raw, rows, count', hcount, hraw, hrows, hcount', rfl⟩ := applyStatement_eq_ok h
  rw [hop, hr.update_rule] at hcount hraw
  rw [hop] at hrows
  simp only [ruleCount, hop] at hcount
  obtain ⟨u, hupd, hcount⟩ := Except.bind_eq_ok hcount
  cases hcount
  have hc' := recount_of_ne_delete (by simp [hop]) hcount'
  subst hc'
  obtain ⟨set, p, hset, rfl⟩ := executeSql_update hrows
  -- the fields the update sets are the members of its record, none of them `f`
  have hkeys : f ∉ set.map Prod.fst := by
    rw [keys_of_rowOf hset, buildRaw_update hop hraw]
    exact fun hf => hr.not_updatable (mem_fields_of_dealWithUpdateRule hupd hr.update_fields hr.fields_ne f hf)
  have hlook : ∀ r : Row, (if p r then r.update set else r).lookup f = r.lookup f := by
    intro r
    split
    · exact lookup_update_of_not_mem hkeys r
    · rfl
  intro X
  simp only [Function.update_eq_self, ownedRows_map_of_lookup hlook]
  exact ht X

theorem delete_countBound (hr : CountedRule rules f limit fields) (hop : tx.opType = .delete)
    (ht : CountBound f limit t) (h : applyStatement rules tx t = .ok t') : CountBound f limit t' := by
  obtain ⟨count, raw, rows, count', hcount, hraw, hrows, hcount', rfl⟩ := applyStatement_eq_ok h
  rw [ruleCount_of_delete hop] at hcount
  cases hcount
  rw [hop] at hrows
  obtain ⟨p, rfl⟩ := executeSql_delete hrows
  simp only [recount, hop, beq_self_eq_true, if_true, hr.insert_rule] at hcount'
  have hc' := adjustInsertCount_spec hr.count_member hr.account_field hr.count_limit hr.limit_pos hcount'
  subst hc'
  intro X
  have hX := ht X
  have hfil := ownedRows_filter_le f X p t.rows
  by_cases hXs : X = tx.account
  · subst hXs
    simp only [Function.update_self]
    cases hc : t.counts tx.account with
    | none =>
      rw [hc] at hX
      simp only [Option.map_none, Option.getD_none] at hX ⊢
      omega
    | some n =>
      rw [hc] at hX
      simp only [Option.map_some, Option.getD_some] at hX ⊢
      omega
  · simp only [Function.update_of_ne hXs]
    omega

/-- One statement keeps the bound. -/
theorem applyStatement_countBound (hr : CountedRule rules f limit fields) (hsender : tx.account ≠ "$tx_hash")
    (ht : CountBound f limit t) (h : applyStatement rules tx t = .ok t') : CountBound f limit t' := by
  cases hop : tx.opType with
  | insert => exact insert_countBound hr hop hsender ht h
  | update => exact update_countBound hr hop ht h
  | delete => exact delete_countBound hr hop ht h

end Step

/-! ## What an accepted rule gives -/

section Accepted

variable {isAccountID : String → Bool} {sender : String}

theorem checkOperationRule_parts {rules raw : Value} (h : checkOperationRule isAccountID sender rules raw = .ok ()) :
    ∃ vecFields accountField b s, (rules.isMember "Insert" = true →
      checkInsertRule isAccountID vecFields (rules.get "Insert") = .ok (accountField, b, s)) ∧
      checkUpdateRule vecFields accountField rules = .ok () := by
  unfold checkOperationRule at h
  obtain ⟨vecFields, _, h⟩ := Except.bind_eq_ok h
  dsimp only at h
  split at h
  · obtain ⟨⟨accountField, b, s⟩, hins, h⟩ := Except.bind_eq_ok h
    obtain ⟨u, hupd, _⟩ := Except.bind_eq_ok h
    exact ⟨vecFields, accountField, b, s, fun _ => hins, hupd⟩
  · rename_i hi
    rw [pure_bind] at h
    obtain ⟨u, hupd, _⟩ := Except.bind_eq_ok h
    exact ⟨vecFields, "", false, none, fun h' => absurd h' hi, hupd⟩

theorem checkInsertCount_ok {vecFields : List String} {c : Value} {a : String}
    (h : checkInsertCount vecFields c = .ok a) :
    asStr (c.get "AccountField") = .ok a ∧ ∃ L, asIntOfIntegral (c.get "CountLimit") = .ok L ∧ 0 < L := by
  unfold checkInsertCount at h
  split at h
  · cases h
  obtain ⟨af, haf, h⟩ := Except.bind_eq_ok h
  obtain ⟨u, _, h⟩ := Except.bind_eq_ok h
  dsimp only at h
  split at h
  · cases h
  obtain ⟨L, hL, h⟩ := Except.bind_eq_ok h
  split at h
  · cases h
  rename_i hpos
  cases h
  exact ⟨haf, L, hL, by omega⟩

theorem checkInsertRule_count {vecFields : List String} {ins : Value} {a : String} {b : Bool}
    {s : Option (String × String)} (h : checkInsertRule isAccountID vecFields ins = .ok (a, b, s))
    (hc : ins.isMember "Count" = true) : checkInsertCount vecFields (ins.get "Count") = .ok a := by
  unfold checkInsertRule at h
  dsimp only at h
  rw [if_pos hc] at h
  obtain ⟨a', ha', h⟩ := Except.bind_eq_ok h
  rw [pure_bind] at h
  split at h
  · cases h
  split at h
  · obtain ⟨s', _, h⟩ := Except.bind_eq_ok h
    cases h
    exact ha'
  · cases h
    exact ha'

theorem checkUpdateRule_counted {vecFields : List String} {a : String} {rules : Value}
    (h : checkUpdateRule vecFields a rules = .ok ()) (ha : a ≠ "") :
    rules.isMember "Update" = true ∧ checkUpdateFields vecFields a (rules.get "Update") = .ok () := by
  have hne : (!a.isEmpty) = true := by simpa using ha
  unfold checkUpdateRule at h
  split at h
  · rename_i hu
    dsimp only at h
    split at h
    · cases h
    obtain ⟨u, hf, _⟩ := Except.bind_eq_ok h
    exact ⟨hu, hf⟩
  · cases h

theorem checkUpdateFields_counted {vecFields : List String} {a : String} {upd : Value}
    (h : checkUpdateFields vecFields a upd = .ok ()) (ha : a ≠ "") :
    ∀ x ∈ (upd.get "Fields").elems, ∃ name, asStr x = .ok name ∧ name ≠ a := by
  have hne : (!a.isEmpty) = true := by simpa using ha
  unfold checkUpdateFields at h
  split at h
  · intro x hx
    obtain ⟨name, hname, h⟩ := Except.bind_eq_ok (Except.forM_eq_ok h x hx)
    obtain ⟨u, _, h⟩ := Except.bind_eq_ok h
    refine ⟨name, hname, fun heq => ?_⟩
    simp [heq] at h
  · cases h
/-- A rule that passes the create check, counts inserts on a named field and lists the fields an
update may set is a `CountedRule`. -/
theorem countedRule_of_accepted {rules raw : Value} {f : String} {L : Int}
    (h : checkOperationRule isAccountID sender rules raw = .ok ())
    (hc : (rules.get "Insert").isMember "Count" = true)
    (haf : asStr (((rules.get "Insert").get "Count").get "AccountField") = .ok f) (hf : f ≠ "")
    (hL : asIntOfIntegral (((rules.get "Insert").get "Count").get "CountLimit") = .ok L)
    (hne : ((rules.get "Update").get "Fields").elems ≠ []) :
    ∃ fields, CountedRule rules f L.toNat fields := by
  have hi : rules.isMember "Insert" = true := isMember_of_get_isMember hc
  obtain ⟨vecFields, a, b, s, hins, hupd⟩ := checkOperationRule_parts h
  obtain ⟨haf', L', hL', hpos⟩ := checkInsertCount_ok (checkInsertRule_count (hins hi) hc)
  -- the account field the create check found is the one the rule names
  have ha : a = f := Except.ok.inj (haf'.symm.trans haf)
  subst ha
  have hLL : L' = L := Except.ok.inj (hL'.symm.trans hL)
  subst hLL
  obtain ⟨hu, hfields⟩ := checkUpdateRule_counted hupd hf
  have hnames := checkUpdateFields_counted hfields hf
  obtain ⟨fields, hmap⟩ := Except.exists_mapM_eq_ok fun x hx =>
    (hnames x hx).imp fun _ hn => hn.1
  have hfree : a ∉ fields := by
    intro hmem
    obtain ⟨x, hx, hxa⟩ := Except.mem_of_mapM_eq_ok hmap hmem
    obtain ⟨name, hname, hne'⟩ := hnames x hx
    exact hne' (Except.ok.inj (hname.symm.trans hxa))
  have hlen := (Except.mapM_eq_ok hmap).length_eq
  refine ⟨fields, ⟨?_, hc, haf', ?_, by omega, hf, ?_, hmap, ?_, hfree⟩⟩
  · simp [ruleFor, RecordOp.ruleKey, hi]
  · rw [hL', Int.toNat_of_nonneg (by omega)]
  · simp [ruleFor, RecordOp.ruleKey, hu]
  · intro hnil
    subst hnil
    exact hne (List.eq_nil_of_length_eq_zero hlen)

end Accepted

/-- Every run from a table within the bound stays within it, failed statements included. -/
theorem runStatements_countBound {rules : Value} {f : String} {limit : Nat} {fields : List String}
    (hr : CountedRule rules f limit fields) :
    ∀ (txs : List SqlStatementTx) (t : Table), (∀ tx ∈ txs, tx.account ≠ "$tx_hash") →
      CountBound f limit t → CountBound f limit (runStatements rules txs t)
  | [], _, _, ht => ht
  | tx :: txs, t, hs, ht => by
    have hrest : ∀ tx ∈ txs, tx.account ≠ "$tx_hash" := fun tx' h' => hs tx' (List.mem_cons_of_mem tx h')
    unfold runStatements
    split
    · rename_i t' h
      exact runStatements_countBound hr txs t' hrest
        (applyStatement_countBound hr (hs tx List.mem_cons_self) ht h)
    · exact runStatements_countBound hr txs t hrest ht

/-- Under a rule that passes the create check, counts inserts on a named field `f` up to `L` and
lists the fields an update may set, no account ever holds more than `L` rows whose `f` names it. -/
theorem owned_rows_within_insert_limit {isAccountID : String → Bool} {sender : String} {rules raw : Value}
    {f : String} {L : Int} (h : checkOperationRule isAccountID sender rules raw = .ok ())
    (hc : (rules.get "Insert").isMember "Count" = true)
    (haf : asStr (((rules.get "Insert").get "Count").get "AccountField") = .ok f) (hf : f ≠ "")
    (hL : asIntOfIntegral (((rules.get "Insert").get "Count").get "CountLimit") = .ok L)
    (hne : ((rules.get "Update").get "Fields").elems ≠ []) (txs : List SqlStatementTx)
    (hs : ∀ tx ∈ txs, tx.account ≠ "$tx_hash") (X : String) :
    (ownedRows f X (runStatements rules txs ⟨[], fun _ => none⟩).rows : Int) ≤ L := by
  obtain ⟨fields, hr⟩ := countedRule_of_accepted h hc haf hf hL hne
  have hb := runStatements_countBound hr txs _ hs (countBound_empty f L.toNat) X
  have hpos := hr.limit_pos
  omega

/-- The rule of `insert_limit_passed_by_update` with `id` as the one field an update may set:
the update that hands `zA`'s row to `zB` is refused, and `zB` holds one row. -/
theorem owned_rows_within_insert_limit_owner :
    let rules : Value := .object [("Delete", single "Condition" (single "owner" (.string "$account"))),
      ("Insert", single "Count" (.object [("AccountField", .string "owner"), ("CountLimit", .int 1)])),
      ("Update", single "Fields" (.array [.string "id"]))]
    let fields : Value := .array [.object [("field", .string "id"), ("type", .string "int")],
      .object [("field", .string "owner"), ("type", .string "varchar")]]
    let txs : List SqlStatementTx := [⟨"zA", "h1", .insert, .array [.object [("id", .int 1), ("owner", .string "zA")]]⟩,
      ⟨"zA", "h2", .update, .array [single "owner" (.string "zB"), single "id" (.int 1)]⟩,
      ⟨"zB", "h3", .insert, .array [.object [("id", .int 2), ("owner", .string "zB")]]⟩]
    checkOperationRule (fun _ => true) "zO" rules fields = .ok () ∧
      (ownedRows "owner" "zB" (runStatements rules txs ⟨[], fun _ => none⟩).rows : Int) ≤ 1 := by
  intro rules fields txs
  exact ⟨rfl, owned_rows_within_insert_limit (rfl : checkOperationRule (fun _ => true) "zO" rules fields = .ok ())
    rfl rfl (by decide) rfl (List.cons_ne_nil (Value.string "id") []) txs (by decide) "zB"⟩

end Ripple
