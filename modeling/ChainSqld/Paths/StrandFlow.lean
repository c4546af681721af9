import Mathlib.Data.List.Sort
import Mathlib.Algebra.Group.Nat.Defs
import Mathlib.Algebra.Group.Int.Defs
import ChainSqld.Lib.StateExcept

/-!
# The multi-strand flow and its accounting

`flow` over all strands (`StrandFlow.h`) asks the strands for liquidity pass after pass. Each
pass keeps the amounts in and out of the strand it finds best in `savedIns` and `savedOuts`,
multisets summed from the smallest, and sets what remains to deliver and to spend to `outReq`
and `sendMax` less those sums. The pass that reaches `maxTries` fails the payment; after the loop
the sums are checked against `outReq`.

The strands themselves (the offers and trust lines they cross, the sandbox they write) are not
modelled: a pass is given by `best`, the amounts of the strand that pass finds best, or none when
all are dry, as a function of the loop's variables so far. The amounts are those of the four
instantiations in `Flow.cpp`, through `FlowAmount`.

* `flowLoop_fuel`: the loop is bounded by its count of tries alone, so `maxTries` as fuel is
  enough, and `flowLoop_curTry`: it ends having counted fewer than `maxTries` tries;
* `Accounting`: what an amount type must do for the loop to keep to its budgets;
* `savePass_inv`, `flowLoop_inv`: then a pass, and the whole loop, keep the saved amounts within
  `outReq` and `sendMax` without any arithmetic throwing;
* `flow_within`: the amounts `flow` returns are within its budgets, and it never returns
  `tefEXCEPTION`.
-/

set_option autoImplicit false

namespace Ripple

/-- The operations of the amounts `flow` is instantiated with (`TInAmt`, `TOutAmt`):
`beast::zero`, `signum`, `+`, `-` and `<`; the arithmetic of `IOUAmount` may throw. -/
class FlowAmount (A : Type) where
  zero : A
  signum : A → Int
  add : A → A → Except String A
  sub : A → A → Except String A
  lt : A → A → Bool

namespace StrandFlow

open FlowAmount

section Collections

variable {A : Type} [FlowAmount A]

/-- The `sum` lambda: zero for an empty collection, else `std::accumulate` from the first
element over the others. -/
def sum : List A → Except String A
  | [] => .ok zero
  | x :: xs => xs.foldlM add x

/-- `flat_multiset::insert`: the new element goes after every element it is not below. -/
def multisetInsert (x : A) (col : List A) : List A :=
  col.orderedInsert (fun a b => lt a b = true) x

theorem forall_mem_multisetInsert {p : A → Prop} {o : A} {l : List A} (ho : p o)
    (hl : ∀ x ∈ l, p x) : ∀ x ∈ multisetInsert o l, p x := by
  intro x hx
  rcases (List.mem_orderedInsert _).mp hx with rfl | hx
  · exact ho
  · exact hl x hx

end Collections

/-- What the accounting reads of the strand a pass finds best: `BestStrand::in` and `out`. -/
structure BestStrand (TIn TOut : Type) where
  inAmt : TIn
  out : TOut

/-- The variables of the loop: `remainingIn`, `remainingOut`, `savedIns`, `savedOuts`,
`curTry`. -/
structure FlowState (TIn TOut : Type) where
  remainingIn : Option TIn
  remainingOut : TOut
  savedIns : List TIn
  savedOuts : List TOut
  curTry : Nat

/-- `maxTries`. -/
def maxTries : Nat := 1000

/-- What `flow` returns, by its code; `tesSUCCESS` and `tecPATH_PARTIAL` carry `actualIn` and
`actualOut`. -/
inductive FlowResult (TIn TOut : Type) where
  | tesSUCCESS (actualIn : TIn) (actualOut : TOut)
  | tecPATH_PARTIAL (actualIn : TIn) (actualOut : TOut)
  | tecPATH_DRY
  | telFAILED_PROCESSING
  | tefEXCEPTION

variable {TIn TOut : Type} [FlowAmount TIn] [FlowAmount TOut]

/-! ## The model -/

/-- `sendMax`: `sendMaxST` when it is given and `sendMaxInit >= beast::zero`. -/
def sendMaxOf (sendMaxST : Option TIn) : Option TIn :=
  let sendMaxInit := sendMaxST.getD zero
  if sendMaxST.isSome ∧ 0 ≤ signum sendMaxInit then some sendMaxInit else none

/-- The variables before the first pass: `remainingIn` is `sendMax`, `remainingOut` is
`outReq`. -/
def initState (outReq : TOut) (sendMax : Option TIn) : FlowState TIn TOut :=
  ⟨sendMax, outReq, [], [], 0⟩

/-- `if (sendMax) remainingIn = *sendMax - sum (savedIns);` -/
def remainingInAfter (sendMax remainingIn : Option TIn) (savedIns : List TIn) :
    Except String (Option TIn) :=
  match sendMax with
  | some m => do pure (some (← sub m (← sum savedIns)))
  | none => pure remainingIn

/-- A pass that found a best strand: its amounts are saved, and what remains is recomputed from
the sums, the amount in only under a `sendMax`. -/
def savePass (outReq : TOut) (sendMax : Option TIn) (st : FlowState TIn TOut)
    (best : BestStrand TIn TOut) : Except String (FlowState TIn TOut) := do
  let savedIns := multisetInsert best.inAmt st.savedIns
  let savedOuts := multisetInsert best.out st.savedOuts
  let remainingOut ← sub outReq (← sum savedOuts)
  let remainingIn ← remainingInAfter sendMax st.remainingIn savedIns
  pure { st with savedIns, savedOuts, remainingOut, remainingIn }

/-- The `while` loop, given the tries left: a pass runs while something remains to deliver and,
under a `sendMax`, to spend. It counts a try and fails the payment at `maxTries`
(`telFAILED_PROCESSING`, `none` here); it ends the loop when `best` finds no strand. -/
def flowLoop (outReq : TOut) (sendMax : Option TIn)
    (best : FlowState TIn TOut → Option (BestStrand TIn TOut)) :
    Nat → FlowState TIn TOut → Except String (Option (FlowState TIn TOut))
  | 0, _ => .ok none
  | tries + 1, st =>
    if 0 < signum st.remainingOut ∧ st.remainingIn.all (fun r => decide (0 < signum r)) then
      let st := { st with curTry := st.curTry + 1 }
      if maxTries ≤ st.curTry then .ok none
      else
        match best st with
        | none => .ok (some st)
        | some b => do flowLoop outReq sendMax best tries (← savePass outReq sendMax st b)
    else .ok (some st)

/-- The checks after the loop, from what remains to spend and the sums `actualIn` and
`actualOut`; `fillOrKill` is the check of an offer crossing without partial payment, which
needs all of `sendMax` spent. -/
def flowResult [DecidableEq TOut] (outReq : TOut) (partialPayment offerCrossing : Bool)
    (remainingIn : Option TIn) (actualIn : TIn) (actualOut : TOut) : FlowResult TIn TOut :=
  let fillOrKill : FlowResult TIn TOut :=
    if offerCrossing && !partialPayment && remainingIn.any (fun r => decide (signum r ≠ 0)) then
      .tecPATH_PARTIAL actualIn actualOut
    else .tesSUCCESS actualIn actualOut
  if actualOut ≠ outReq then
    if lt outReq actualOut then .tefEXCEPTION
    else if !partialPayment then
      if !offerCrossing then .tecPATH_PARTIAL actualIn actualOut else fillOrKill
    else if signum actualOut = 0 then .tecPATH_DRY
    else fillOrKill
  else fillOrKill

/-- `flow` over all strands: the loop from `outReq` and `sendMax`, then the checks of its sums. -/
def flow [DecidableEq TOut] (outReq : TOut) (partialPayment offerCrossing : Bool)
    (sendMaxST : Option TIn) (best : FlowState TIn TOut → Option (BestStrand TIn TOut)) :
    Except String (FlowResult TIn TOut) := do
  let sendMax := sendMaxOf sendMaxST
  match ← flowLoop outReq sendMax best maxTries (initState outReq sendMax) with
  | none => pure .telFAILED_PROCESSING
  | some st =>
    let actualOut ← sum st.savedOuts
    let actualIn ← sum st.savedIns
    pure (flowResult outReq partialPayment offerCrossing st.remainingIn actualIn actualOut)

/-! ## Counting tries -/

/-- A pass keeps the count of tries. -/
theorem savePass_curTry {outReq : TOut} {sendMax : Option TIn} {st st' : FlowState TIn TOut}
    {b : BestStrand TIn TOut} (h : savePass outReq sendMax st b = .ok st') : st'.curTry = st.curTry := by
  unfold savePass at h
  obtain ⟨_, -, h⟩ := Except.bind_eq_ok h
  obtain ⟨_, -, h⟩ := Except.bind_eq_ok h
  obtain ⟨_, -, h⟩ := Except.bind_eq_ok h
  cases h
  rfl

/-- **The loop ends by its count.** Once the tries left and those counted make `maxTries`, more
fuel changes nothing: the source's `while`, bounded by `curTry` alone, is `flowLoop` given
`maxTries` tries. -/
theorem flowLoop_fuel (outReq : TOut) (sendMax : Option TIn)
    (best : FlowState TIn TOut → Option (BestStrand TIn TOut)) (k : Nat) :
    ∀ (n : Nat) (st : FlowState TIn TOut), st.curTry < maxTries → st.curTry + n = maxTries →
      flowLoop outReq sendMax best (n + k) st = flowLoop outReq sendMax best n st
  | 0, st, hlt, hn => by omega
  | n + 1, st, hlt, hn => by
    rw [Nat.add_right_comm]
    simp only [flowLoop]
    split_ifs with hgo hmax
    · rfl
    · split
      · rfl
      · rename_i b _
        cases hs : savePass outReq sendMax { st with curTry := st.curTry + 1 } b with
        | error e => rfl
        | ok st' =>
          -- the pass counted one try, so the tries left still make up `maxTries`
          have hc : st'.curTry = st.curTry + 1 := savePass_curTry hs
          exact flowLoop_fuel outReq sendMax best k n st' (by omega) (by omega)
    · rfl

/-- The loop ends, unless the payment fails, having counted fewer than `maxTries` tries. -/
theorem flowLoop_curTry (outReq : TOut) (sendMax : Option TIn)
    (best : FlowState TIn TOut → Option (BestStrand TIn TOut)) :
    ∀ (n : Nat) (st st' : FlowState TIn TOut), st.curTry < maxTries →
      flowLoop outReq sendMax best n st = .ok (some st') → st'.curTry < maxTries
  | 0, _, _, _, h => by cases h
  | n + 1, st, st', hlt, h => by
    simp only [flowLoop] at h
    split_ifs at h with hgo hmax
    · cases h
    · split at h
      · cases h
        exact Nat.lt_of_not_le hmax
      · obtain ⟨st'', hs, h⟩ := Except.bind_eq_ok h
        have hc : st''.curTry = st.curTry + 1 := savePass_curTry hs
        exact flowLoop_curTry outReq sendMax best n st'' st' (by omega) h
    · cases h
      exact hlt

/-! ## Budgets -/

/-- What the loop needs of an amount type to keep to a budget, for the amounts `valid` picks out
and an invariant `Within T l R` of a budget `T`, the amounts `l` saved against it and what
remains `R`: valid amounts are not negative; with nothing saved all of a valid budget remains;
saving a valid amount not above what remains finds the new sum and remainder and keeps the
invariant; and under it the sum is found and is not above the budget. -/
structure Accounting (A : Type) [FlowAmount A] (valid : A → Prop) (Within : A → List A → A → Prop) :
    Prop where
  signum_nonneg : ∀ {a}, valid a → 0 ≤ signum a
  within_nil : ∀ {T}, valid T → Within T [] T
  within_insert : ∀ {T l R o}, Within T l R → valid o → lt R o = false →
    ∃ S R', sum (multisetInsert o l) = .ok S ∧ sub T S = .ok R' ∧ Within T (multisetInsert o l) R'
  sum_le : ∀ {T l R}, Within T l R → ∃ S, sum l = .ok S ∧ lt T S = false

/-- The invariant of the loop: the saved outs are within `outReq`, and under a `sendMax` the saved
ins are within it; without one nothing remains to spend. -/
def FlowInv (WIn : TIn → List TIn → TIn → Prop) (WOut : TOut → List TOut → TOut → Prop)
    (outReq : TOut) (sendMax : Option TIn) (st : FlowState TIn TOut) : Prop :=
  WOut outReq st.savedOuts st.remainingOut ∧
    match sendMax with
    | some m => ∃ r, st.remainingIn = some r ∧ WIn m st.savedIns r
    | none => st.remainingIn = none

/-- A `best` that keeps to the bounds each strand is asked to respect: it moves valid amounts,
the out not above what remains to deliver and the in not above what remains to spend. -/
def Respects (vIn : TIn → Prop) (vOut : TOut → Prop)
    (best : FlowState TIn TOut → Option (BestStrand TIn TOut)) : Prop :=
  ∀ st b, best st = some b → vIn b.inAmt ∧ vOut b.out ∧ lt st.remainingOut b.out = false ∧
    ∀ r, st.remainingIn = some r → lt r b.inAmt = false

/-- The amounts a result carries are within `outReq` and, when given, `sendMax`; a
`tefEXCEPTION` is not within them. -/
def FlowResult.Within (outReq : TOut) (sendMax : Option TIn) : FlowResult TIn TOut → Prop
  | .tesSUCCESS actualIn actualOut =>
    lt outReq actualOut = false ∧ ∀ m, sendMax = some m → lt m actualIn = false
  | .tecPATH_PARTIAL actualIn actualOut =>
    lt outReq actualOut = false ∧ ∀ m, sendMax = some m → lt m actualIn = false
  | .tecPATH_DRY => True
  | .telFAILED_PROCESSING => True
  | .tefEXCEPTION => False

theorem remainingInAfter_some {m : TIn} {l : List TIn} {S R : TIn} (hS : sum l = .ok S)
    (hR : sub m S = .ok R) (r : Option TIn) : remainingInAfter (some m) r l = .ok (some R) := by
  simp only [remainingInAfter, hS, hR, Except.ok_bind, Except.pure_eq_ok]

/-- A pass whose sums and differences are found. -/
theorem savePass_eq {outReq : TOut} {sendMax : Option TIn} {st : FlowState TIn TOut}
    {b : BestStrand TIn TOut} {S R : TOut} {rIn : Option TIn}
    (hS : sum (multisetInsert b.out st.savedOuts) = .ok S) (hR : sub outReq S = .ok R)
    (hIn : remainingInAfter sendMax st.remainingIn (multisetInsert b.inAmt st.savedIns) = .ok rIn) :
    savePass outReq sendMax st b =
      .ok { st with
        savedIns := multisetInsert b.inAmt st.savedIns
        savedOuts := multisetInsert b.out st.savedOuts
        remainingOut := R
        remainingIn := rIn } := by
  simp only [savePass, hS, hR, hIn, Except.ok_bind, Except.pure_eq_ok]

/-- `sendMax` is `sendMaxST` when that is not negative. -/
theorem sendMaxOf_of_nonneg {sendMaxST : Option TIn} (h : ∀ m, sendMaxST = some m → 0 ≤ signum m) :
    sendMaxOf sendMaxST = sendMaxST := by
  cases sendMaxST with
  | none => rfl
  | some m => simp [sendMaxOf, h m rfl]

/-- Sums within the budgets make a result within them, whatever the code. -/
theorem flowResult_within [DecidableEq TOut] {outReq : TOut} {sendMax : Option TIn}
    (partialPayment offerCrossing : Bool) (remainingIn : Option TIn) {actualIn : TIn} {actualOut : TOut}
    (hout : lt outReq actualOut = false) (hin : ∀ m, sendMax = some m → lt m actualIn = false) :
    (flowResult outReq partialPayment offerCrossing remainingIn actualIn actualOut).Within outReq sendMax := by
  unfold flowResult
  split_ifs <;> simp_all [FlowResult.Within]

section Invariant

variable {vIn : TIn → Prop} {vOut : TOut → Prop} {WIn : TIn → List TIn → TIn → Prop}
  {WOut : TOut → List TOut → TOut → Prop}
  (hIn : Accounting TIn vIn WIn) (hOut : Accounting TOut vOut WOut)
include hIn hOut

theorem flowInv_init {outReq : TOut} {sendMax : Option TIn} (hreq : vOut outReq)
    (hsend : ∀ m, sendMax = some m → vIn m) :
    FlowInv WIn WOut outReq sendMax (initState outReq sendMax) := by
  unfold FlowInv
  refine ⟨hOut.within_nil hreq, ?_⟩
  cases sendMax with
  | none => rfl
  | some m => exact ⟨m, rfl, hIn.within_nil (hsend m rfl)⟩

/-- **A pass keeps the budgets.** Saving a best strand within the bounds finds every sum and
difference and keeps the invariant. -/
theorem savePass_inv {outReq : TOut} {sendMax : Option TIn} {st : FlowState TIn TOut}
    {b : BestStrand TIn TOut} (hinv : FlowInv WIn WOut outReq sendMax st) (hvIn : vIn b.inAmt)
    (hvOut : vOut b.out) (hout : lt st.remainingOut b.out = false)
    (hin : ∀ r, st.remainingIn = some r → lt r b.inAmt = false) :
    ∃ st', savePass outReq sendMax st b = .ok st' ∧ FlowInv WIn WOut outReq sendMax st' := by
  obtain ⟨hO, hI⟩ := hinv
  obtain ⟨S, R, hS, hR, hW⟩ := hOut.within_insert hO hvOut hout
  cases sendMax with
  | none => exact ⟨_, savePass_eq hS hR rfl, hW, hI⟩
  | some m =>
    obtain ⟨r, hr, hWr⟩ := hI
    obtain ⟨SI, RI, hSI, hRI, hWI⟩ := hIn.within_insert hWr hvIn (hin r hr)
    exact ⟨_, savePass_eq hS hR (remainingInAfter_some hSI hRI _), hW, RI, rfl, hWI⟩

/-- **The loop keeps the budgets.** From a state within them and with a `best` within its
bounds, the loop never throws, and the state it ends in is within the budgets. -/
theorem flowLoop_inv {outReq : TOut} {sendMax : Option TIn}
    {best : FlowState TIn TOut → Option (BestStrand TIn TOut)} (hbest : Respects vIn vOut best) :
    ∀ (n : Nat) (st : FlowState TIn TOut), FlowInv WIn WOut outReq sendMax st →
      ∃ res, flowLoop outReq sendMax best n st = .ok res ∧
        ∀ st', res = some st' → FlowInv WIn WOut outReq sendMax st'
  | 0, _, _ => ⟨none, rfl, fun _ h => by cases h⟩
  | n + 1, st, hinv => by
    simp only [flowLoop]
    -- the invariant does not read the count of tries
    have hinv1 : FlowInv WIn WOut outReq sendMax { st with curTry := st.curTry + 1 } := hinv
    split_ifs with hgo hmax
    · exact ⟨none, rfl, fun _ h => by cases h⟩
    · split
      · exact ⟨_, rfl, fun st' h => by cases h; exact hinv1⟩
      · rename_i b hb
        obtain ⟨hvIn, hvOut, hout, hin⟩ := hbest _ b hb
        obtain ⟨st', hs, hinv'⟩ := savePass_inv hIn hOut hinv1 hvIn hvOut hout hin
        rw [hs, Except.ok_bind]
        exact flowLoop_inv hbest n st' hinv'
    · exact ⟨_, rfl, fun st' h => by cases h; exact hinv⟩

/-- **The flow keeps to its budgets.** For amount types that keep the accounting, a valid
`outReq` and `sendMax` and a `best` within its bounds, whatever `flow` returns carries amounts
within `outReq` and `sendMax`, and it is never `tefEXCEPTION`; under a `sendMax` nothing
throws. -/
theorem flow_within [DecidableEq TOut] {outReq : TOut} (hreq : vOut outReq) {sendMaxST : Option TIn}
    (hsend : ∀ m, sendMaxST = some m → vIn m) (partialPayment offerCrossing : Bool)
    {best : FlowState TIn TOut → Option (BestStrand TIn TOut)} (hbest : Respects vIn vOut best) :
    (∀ res, flow outReq partialPayment offerCrossing sendMaxST best = .ok res →
        res.Within outReq sendMaxST) ∧
      (sendMaxST.isSome → ∃ res, flow outReq partialPayment offerCrossing sendMaxST best = .ok res) := by
  have hmax : sendMaxOf sendMaxST = sendMaxST :=
    sendMaxOf_of_nonneg fun m hm => hIn.signum_nonneg (hsend m hm)
  obtain ⟨r, hr, hexit⟩ := flowLoop_inv hIn hOut hbest maxTries _ (flowInv_init hIn hOut hreq hsend)
  simp only [flow, hmax, hr, Except.ok_bind]
  cases r with
  | none => exact ⟨fun res h => by cases h; trivial, fun _ => ⟨_, rfl⟩⟩
  | some st =>
    obtain ⟨hO, hI⟩ := hexit st rfl
    obtain ⟨S, hS, hSle⟩ := hOut.sum_le hO
    simp only [hS, Except.ok_bind]
    cases sendMaxST with
    | none =>
      refine ⟨fun res h => ?_, fun h => by cases h⟩
      obtain ⟨SI, -, h⟩ := Except.bind_eq_ok h
      cases h
      exact flowResult_within _ _ _ hSle (fun m hm => by cases hm)
    | some m =>
      obtain ⟨r, -, hW⟩ := hI
      obtain ⟨SI, hSI, hSIle⟩ := hIn.sum_le hW
      simp only [hSI, Except.ok_bind, Except.pure_eq_ok]
      refine ⟨fun res h => ?_, fun _ => ⟨_, rfl⟩⟩
      cases h
      exact flowResult_within _ _ _ hSle (fun m' hm => by cases hm; exact hSIle)

end Invariant

/-- The accounting of `flow` over amounts `TIn`, `TOut` keeps to its budgets: for every valid
`outReq` and `sendMax` and every `best` that moves valid amounts within the bounds it is asked to
respect, the amounts `flow` returns are within `outReq` and `sendMax` and it never returns
`tefEXCEPTION`; nothing throws under a `sendMax`; and the loop ends, unless it fails the
payment, having counted fewer than `maxTries` tries. -/
def KeepsBudgets (TIn TOut : Type) [FlowAmount TIn] [FlowAmount TOut] [DecidableEq TOut]
    (vIn : TIn → Prop) (vOut : TOut → Prop) : Prop :=
  ∀ (outReq : TOut) (sendMaxST : Option TIn) (partialPayment offerCrossing : Bool)
    (best : FlowState TIn TOut → Option (BestStrand TIn TOut)),
    vOut outReq → (∀ m, sendMaxST = some m → vIn m) → Respects vIn vOut best →
      (∀ res, flow outReq partialPayment offerCrossing sendMaxST best = .ok res →
          res.Within outReq sendMaxST) ∧
        (sendMaxST.isSome → ∃ res, flow outReq partialPayment offerCrossing sendMaxST best = .ok res) ∧
        ∀ st, flowLoop outReq (sendMaxOf sendMaxST) best maxTries
            (initState outReq (sendMaxOf sendMaxST)) = .ok (some st) → st.curTry < maxTries

/-- Amount types that keep the accounting keep the budgets of `flow`. -/
theorem keepsBudgets [DecidableEq TOut] {vIn : TIn → Prop} {vOut : TOut → Prop}
    {WIn : TIn → List TIn → TIn → Prop} {WOut : TOut → List TOut → TOut → Prop}
    (hIn : Accounting TIn vIn WIn) (hOut : Accounting TOut vOut WOut) :
    KeepsBudgets TIn TOut vIn vOut := by
  intro outReq sendMaxST partialPayment offerCrossing best hreq hsend hbest
  obtain ⟨hres, hok⟩ := flow_within hIn hOut hreq hsend partialPayment offerCrossing hbest
  have hstart : (initState outReq (sendMaxOf sendMaxST) : FlowState TIn TOut).curTry < maxTries := by
    simp [initState, maxTries]
  exact ⟨hres, hok, fun st => flowLoop_curTry _ _ _ _ _ st hstart⟩

end StrandFlow

end Ripple
