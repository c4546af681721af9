import Mathlib
import ChainSqld.Consensus.CloseTime

/-!
# When to close, and when there is consensus

The pure decisions of a consensus round, from `Consensus.cpp` and `LedgerTiming.h`:

* `shouldCloseLedger` closes the open ledger when the timings are out of range or half the network has
  closed; otherwise an idle ledger waits for the idle interval and a busy one for the minimum open
  time and half the last round's time (`shouldCloseLedger_of_lt_min_close`);
* `checkConsensusReached` counts the share of agreeing proposers, and `checkConsensus` declares
  consensus only after the minimum time and with that share reached (`checkConsensus_yes`), or
  that the network moved on when enough proposers finished (`checkConsensus_movedOn`);
* `getNextLedgerTimeResolution` moves the close-time resolution one bin at most, coarser after a
  disagreement and finer after a run of agreements (`getNextLedgerTimeResolution_mem`,
  `le_getNextLedgerTimeResolution`, `getNextLedgerTimeResolution_le`).

Durations of the consensus clock are milliseconds, as `Int`; counts of proposers are `std::size_t`,
as `Nat`.
-/

set_option autoImplicit false

namespace Ripple

/-- The fields of `ConsensusParms` the round reads beyond the close-time vote, with their defaults;
durations of the consensus clock in milliseconds, `proposeINTERVAL` in seconds. -/
structure ConsensusTimingParms extends ConsensusParms where
  proposeINTERVAL : Int := 12
  minCONSENSUS_PCT : Nat := 80
  ledgerIDLE_INTERVAL : Int := 15000
  ledgerMIN_CONSENSUS : Int := 1950
  ledgerMIN_CLOSE : Int := 2000
  avMIN_CONSENSUS_TIME : Int := 5000

/-- `ConsensusState`: whether we have consensus. -/
inductive ConsensusState
  | No
  | MovedOn
  | Yes
deriving DecidableEq, Repr

variable (parms : ConsensusTimingParms)

/-- `shouldCloseLedger`. -/
def shouldCloseLedger (anyTransactions : Bool) (prevProposers proposersClosed proposersValidated : Nat)
    (prevRoundTime timeSincePrevClose openTime idleInterval : Int) : Bool :=
  -- unexpected timings: just close
  if prevRoundTime < -1000 || prevRoundTime > 600000 || timeSincePrevClose > 600000 then true
  -- more than half of the network has closed
  else if proposersClosed + proposersValidated > prevProposers / 2 then true
  else if !anyTransactions then decide (timeSincePrevClose ≥ idleInterval)
  -- keep the ledger open the minimum time, and at least half as long as the last round took
  else if openTime < parms.ledgerMIN_CLOSE then false
  else if openTime < prevRoundTime.tdiv 2 then false
  else true

/-- `checkConsensusReached`: alone, we agree; otherwise the share of agreeing proposers, with us
when we count ourselves, must reach the percentage. -/
def checkConsensusReached (agreeing total : Nat) (count_self : Bool) (minConsensusPct : Nat) : Bool :=
  if total = 0 then true
  else
    let agreeing := if count_self then agreeing + 1 else agreeing
    let total := if count_self then total + 1 else total
    decide (agreeing * 100 / total ≥ minConsensusPct)

/-- `checkConsensus`. -/
def checkConsensus (prevProposers currentProposers currentAgree currentFinished : Nat)
    (previousAgreeTime currentAgreeTime : Int) (proposing : Bool) : ConsensusState :=
  if currentAgreeTime ≤ parms.ledgerMIN_CONSENSUS then .No
  -- fewer than three quarters of the last round's proposers: do not rush
  else if currentProposers < prevProposers * 3 / 4 ∧ currentAgreeTime < previousAgreeTime + parms.ledgerMIN_CONSENSUS then
    .No
  else if checkConsensusReached currentAgree currentProposers proposing parms.minCONSENSUS_PCT then .Yes
  else if checkConsensusReached currentFinished currentProposers false parms.minCONSENSUS_PCT then .MovedOn
  else .No

/-- `ledgerPossibleTimeResolutions`, in seconds. -/
def ledgerPossibleTimeResolutions : List UInt32 := [10, 20, 30, 60, 90, 120]

/-- `getNextLedgerTimeResolution`: one bin coarser when the last close time was not agreed, one bin
finer every eighth ledger while it was. A resolution outside the bins is kept. -/
def getNextLedgerTimeResolution (previousResolution : UInt32) (previousAgree : Bool) (ledgerSeq : UInt32) : UInt32 :=
  match ledgerPossibleTimeResolutions.idxOf? previousResolution with
  | none => previousResolution
  | some i =>
    if !previousAgree && ledgerSeq % 1 == 0 && i + 1 < ledgerPossibleTimeResolutions.length then
      ledgerPossibleTimeResolutions.getD (i + 1) previousResolution
    else if previousAgree && ledgerSeq % 8 == 0 && i != 0 then
      ledgerPossibleTimeResolutions.getD (i - 1) previousResolution
    else previousResolution

/-! ## Closing -/

/-- **A busy ledger stays open its minimum time.** With transactions to apply, timings in range and
no more than half the network closed, a ledger open less than `ledgerMIN_CLOSE` is not closed. -/
theorem shouldCloseLedger_of_lt_min_close {prevProposers proposersClosed proposersValidated : Nat}
    {prevRoundTime timeSincePrevClose openTime idleInterval : Int} (hprev : -1000 ≤ prevRoundTime ∧ prevRoundTime ≤ 600000)
    (hsince : timeSincePrevClose ≤ 600000) (hclosed : proposersClosed + proposersValidated ≤ prevProposers / 2)
    (hopen : openTime < parms.ledgerMIN_CLOSE) :
    shouldCloseLedger parms true prevProposers proposersClosed proposersValidated prevRoundTime timeSincePrevClose
      openTime idleInterval = false := by
  have h1 : (decide (prevRoundTime < -1000) || decide (prevRoundTime > 600000) || decide (timeSincePrevClose > 600000)) =
      false := by
    simp only [Bool.or_eq_false_iff, decide_eq_false_iff_not]
    omega
  unfold shouldCloseLedger
  rw [if_neg (by simp only [h1]; decide), if_neg (by omega), if_neg (by decide), if_pos hopen]

/-! ## Consensus -/

/-- **Consensus is declared only with enough agreement, after the minimum time.** -/
theorem checkConsensus_yes {prevProposers currentProposers currentAgree currentFinished : Nat}
    {previousAgreeTime currentAgreeTime : Int} {proposing : Bool}
    (h : checkConsensus parms prevProposers currentProposers currentAgree currentFinished previousAgreeTime
      currentAgreeTime proposing = .Yes) :
    parms.ledgerMIN_CONSENSUS < currentAgreeTime ∧
      checkConsensusReached currentAgree currentProposers proposing parms.minCONSENSUS_PCT = true := by
  unfold checkConsensus at h
  split_ifs at h with h1 h2 h3
  exact ⟨lt_of_not_ge h1, h3⟩

/-- The network moved on only when enough proposers finished without our agreement. -/
theorem checkConsensus_movedOn {prevProposers currentProposers currentAgree currentFinished : Nat}
    {previousAgreeTime currentAgreeTime : Int} {proposing : Bool}
    (h : checkConsensus parms prevProposers currentProposers currentAgree currentFinished previousAgreeTime
      currentAgreeTime proposing = .MovedOn) :
    parms.ledgerMIN_CONSENSUS < currentAgreeTime ∧
      checkConsensusReached currentAgree currentProposers proposing parms.minCONSENSUS_PCT = false ∧
      checkConsensusReached currentFinished currentProposers false parms.minCONSENSUS_PCT = true := by
  unfold checkConsensus at h
  split_ifs at h with h1 h2 h3 h4
  exact ⟨lt_of_not_ge h1, by simpa using h3, h4⟩

/-! ## The close-time resolution -/

theorem getNextLedgerTimeResolution_cases (previousResolution : UInt32) (previousAgree : Bool) (ledgerSeq : UInt32) :
    getNextLedgerTimeResolution previousResolution previousAgree ledgerSeq = previousResolution ∨
      ∃ i, ledgerPossibleTimeResolutions.idxOf? previousResolution = some i ∧
        (previousAgree = false ∧ i + 1 < ledgerPossibleTimeResolutions.length ∧
            getNextLedgerTimeResolution previousResolution previousAgree ledgerSeq =
              ledgerPossibleTimeResolutions.getD (i + 1) previousResolution ∨
          previousAgree = true ∧ i ≠ 0 ∧
            getNextLedgerTimeResolution previousResolution previousAgree ledgerSeq =
              ledgerPossibleTimeResolutions.getD (i - 1) previousResolution) := by
  unfold getNextLedgerTimeResolution
  split
  · exact Or.inl rfl
  · rename_i i hi
    split_ifs with h1 h2
    · simp only [Bool.and_eq_true, Bool.not_eq_eq_eq_not, Bool.not_true, decide_eq_true_eq] at h1
      exact Or.inr ⟨i, hi, Or.inl ⟨h1.1.1, h1.2, rfl⟩⟩
    · simp only [Bool.and_eq_true, bne_iff_ne, ne_eq] at h2
      exact Or.inr ⟨i, hi, Or.inr ⟨h2.1.1, h2.2, rfl⟩⟩
    · exact Or.inl rfl

theorem getD_eq_getElem {l : List UInt32} {i : Nat} (h : i < l.length) (d : UInt32) : l.getD i d = l[i] := by
  rw [List.getD_eq_getElem?_getD, List.getElem?_eq_getElem h, Option.getD_some]

theorem getD_of_idxOf? {r : UInt32} {i : Nat} (h : ledgerPossibleTimeResolutions.idxOf? r = some i) :
    i < ledgerPossibleTimeResolutions.length ∧ ledgerPossibleTimeResolutions.getD i r = r := by
  obtain ⟨hi, he, -⟩ := List.idxOf?_eq_some_iff.mp h
  exact ⟨hi, by rw [getD_eq_getElem hi, he]⟩

/-- The bins grow strictly. -/
theorem getD_lt_getD_succ : ∀ i < ledgerPossibleTimeResolutions.length - 1,
    ledgerPossibleTimeResolutions.getD i 0 < ledgerPossibleTimeResolutions.getD (i + 1) 0 := by
  decide

/-- The resolution stays one of the bins. -/
theorem getNextLedgerTimeResolution_mem {previousResolution : UInt32} (h : previousResolution ∈ ledgerPossibleTimeResolutions)
    (previousAgree : Bool) (ledgerSeq : UInt32) :
    getNextLedgerTimeResolution previousResolution previousAgree ledgerSeq ∈ ledgerPossibleTimeResolutions := by
  rcases getNextLedgerTimeResolution_cases previousResolution previousAgree ledgerSeq with he | ⟨i, hi, ⟨-, hlt, he⟩ | ⟨-, -, he⟩⟩
  · rw [he]; exact h
  · rw [he, getD_eq_getElem hlt]; exact List.getElem_mem hlt
  · have hlt : i - 1 < ledgerPossibleTimeResolutions.length := by
      have := (getD_of_idxOf? hi).1
      omega
    rw [he, getD_eq_getElem hlt]; exact List.getElem_mem hlt

/-- After a disagreement the resolution never gets finer. -/
theorem le_getNextLedgerTimeResolution (previousResolution : UInt32) (ledgerSeq : UInt32) :
    previousResolution ≤ getNextLedgerTimeResolution previousResolution false ledgerSeq := by
  rcases getNextLedgerTimeResolution_cases previousResolution false ledgerSeq with he | ⟨i, hi, ⟨-, hlt, he⟩ | ⟨h, -, -⟩⟩
  · rw [he]
    exact UInt32.le_refl _
  · obtain ⟨-, hr⟩ := getD_of_idxOf? hi
    have hs := getD_lt_getD_succ i (by omega)
    rw [getD_eq_getElem (by omega)] at hr hs
    rw [getD_eq_getElem hlt] at hs
    rw [he, getD_eq_getElem hlt, ← hr]
    exact UInt32.le_of_lt hs
  · exact absurd h Bool.false_ne_true

/-- After an agreement the resolution never gets coarser. -/
theorem getNextLedgerTimeResolution_le (previousResolution : UInt32) (ledgerSeq : UInt32) :
    getNextLedgerTimeResolution previousResolution true ledgerSeq ≤ previousResolution := by
  rcases getNextLedgerTimeResolution_cases previousResolution true ledgerSeq with he | ⟨i, hi, ⟨h, -, -⟩ | ⟨-, hi0, he⟩⟩
  · rw [he]
    exact UInt32.le_refl _
  · exact absurd h (by decide)
  · obtain ⟨hlt, hr⟩ := getD_of_idxOf? hi
    have hs := getD_lt_getD_succ (i - 1) (by omega)
    rw [Nat.sub_add_cancel (Nat.pos_of_ne_zero hi0), getD_eq_getElem hlt] at hs
    rw [getD_eq_getElem hlt] at hr
    rw [getD_eq_getElem (by omega)] at hs
    rw [he, getD_eq_getElem (by omega), ← hr]
    exact UInt32.le_of_lt hs

end Ripple
