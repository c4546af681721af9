import Mathlib.Algebra.Group.Nat.Defs
import Mathlib.Data.List.Sort
import ChainSqld.Lib.CircularBuffer

/-!
# The fee metrics of the transaction queue

`TxQ::FeeMetrics` learns from each ledger that closes how many transactions a ledger is expected
to hold (`txnsExpected_`) and the median fee level its transactions paid
(`escalationMultiplier_`). An open ledger holding more transactions than expected charges a fee
level that grows with the square of their count (`TxQ.SeriesFee`).

* `mulDiv_eq`: `mulDiv` is the exact quotient clipped to `2 ^ 64 - 1`, with a flag saying whether
  it fits;
* `Bounded`: `txnsExpected_` lies between `minimumTxnCount_` and `maximumTxnCount_`, and every
  count of the recent history exceeds `minimumTxnCount_`; `update_bounded` keeps it, so every run
  from the constructor does (`runUpdates_bounded`), and with room for one count in the history
  every run is defined (`runUpdates_isSome`);
* `update_escalationMultiplier`: after a ledger with fee levels, sorted `a`, the multiplier is
  `max ((a[n/2] + a[(n-1)/2] + 1) / 2) minimumMultiplier_` computed in `std::uint64_t`, which is
  the rounded-up mean of the two middle levels as long as their sum stays below `2 ^ 64 - 1`
  (`update_escalationMultiplier_of_lt`) and wraps around past it
  (`update_escalationMultiplier_of_wrap`).

Counts (`std::size_t`) are natural numbers: a ledger holds far fewer than `2 ^ 60` transactions,
so `txnsExpected_ * 9 + max` never wraps. Fee levels are `std::uint64_t` and wrap.
-/

set_option autoImplicit false

namespace Ripple

/-- `mulDiv`: `value * mul / div` computed in 128 bits, clipped to the largest `std::uint64_t`
with `false` when it does not fit; a division by zero throws. -/
def mulDiv (value mul div : UInt64) : Except String (Bool × UInt64) :=
  if div = 0 then .error "Integer Division by zero."
  else
    let result := value.toNat * mul.toNat / div.toNat
    if result > 2 ^ 64 - 1 then .ok (false, UInt64.ofNat (2 ^ 64 - 1))
    else .ok (true, UInt64.ofNat result)

/-- **`mulDiv` is the exact quotient while it fits**, and the largest value with `false` after. -/
theorem mulDiv_eq {value mul div : UInt64} (h : div ≠ 0) :
    mulDiv value mul div = .ok (decide (value.toNat * mul.toNat / div.toNat < 2 ^ 64),
      UInt64.ofNat (min (value.toNat * mul.toNat / div.toNat) (2 ^ 64 - 1))) := by
  unfold mulDiv
  rw [if_neg h]
  by_cases hfit : value.toNat * mul.toNat / div.toNat < 2 ^ 64
  · rw [if_neg (by omega), decide_eq_true hfit, min_eq_left (by omega)]
  · rw [if_pos (by omega), decide_eq_false hfit, min_eq_right (by omega)]

theorem toNat_ofNat_min (n : Nat) : (UInt64.ofNat (min n (2 ^ 64 - 1))).toNat = min n (2 ^ 64 - 1) := by
  rw [UInt64.toNat_ofNat', Nat.mod_eq_of_lt (by omega)]

namespace TxQ

/-- `TxQ::baseLevel`, the fee level of a transaction paying the reference fee. -/
def baseLevel : UInt64 := 256

/-- The fields of `TxQ::Setup` that the fee metrics read, with their defaults. -/
structure Setup where
  ledgersInQueue : Nat := 20
  minimumEscalationMultiplier : UInt32 := 256 * 500
  minimumTxnInLedger : UInt32 := 5
  minimumTxnInLedgerSA : UInt32 := 1000
  targetTxnInLedger : UInt32 := 50
  maximumTxnInLedger : Option UInt32 := none
  zeroBaseFeeTransactionFeeLevel : UInt64 := 256000
  standAlone : Bool := false

/-- `getFeeLevelPaid`: the fee paid in drops scaled to fee levels, clipped when it overflows; a
transaction whose reference cost is zero pays `zeroBaseFeeTransactionFeeLevel`. -/
def getFeeLevelPaid (feeDrops baseRefLevel refTxnCostDrops : UInt64) (setup : Setup) : Except String UInt64 :=
  if refTxnCostDrops = 0 then .ok setup.zeroBaseFeeTransactionFeeLevel
  else (mulDiv feeDrops baseRefLevel refTxnCostDrops).map Prod.snd

/-- A level is the scaled fee, or the largest `std::uint64_t` when that does not fit. -/
theorem getFeeLevelPaid_eq {feeDrops baseRefLevel refTxnCostDrops : UInt64} (setup : Setup)
    (h : refTxnCostDrops ≠ 0) :
    getFeeLevelPaid feeDrops baseRefLevel refTxnCostDrops setup =
      .ok (UInt64.ofNat (min (feeDrops.toNat * baseRefLevel.toNat / refTxnCostDrops.toNat) (2 ^ 64 - 1))) := by
  rw [getFeeLevelPaid, if_neg h, mulDiv_eq h]
  rfl

/-- `TxQ::FeeMetrics`. The constants come from the setup, with the target at least the minimum
and the maximum, when there is one, at least the target; the history of recent counts is a
circular buffer of `ledgersInQueue` counts. -/
structure FeeMetrics where
  minimumTxnCount : Nat
  targetTxnCount : Nat
  maximumTxnCount : Option Nat
  txnsExpected : Nat
  recentTxnCounts : CircularBuffer Nat
  minimumMultiplier : UInt64
  escalationMultiplier : UInt64
  min_le_target : minimumTxnCount ≤ targetTxnCount
  target_le_max : ∀ n, maximumTxnCount = some n → targetTxnCount ≤ n

namespace FeeMetrics

/-- The constructor `FeeMetrics (Setup const&, beast::Journal)`. -/
def new (setup : Setup) : FeeMetrics :=
  let minimumTxnCount := (if setup.standAlone then setup.minimumTxnInLedgerSA else setup.minimumTxnInLedger).toNat
  let targetTxnCount :=
    if setup.targetTxnInLedger.toNat < minimumTxnCount then minimumTxnCount else setup.targetTxnInLedger.toNat
  { minimumTxnCount
    targetTxnCount
    maximumTxnCount := setup.maximumTxnInLedger.map fun m =>
      if m.toNat < targetTxnCount then targetTxnCount else m.toNat
    txnsExpected := minimumTxnCount
    recentTxnCounts := CircularBuffer.new setup.ledgersInQueue
    minimumMultiplier := setup.minimumEscalationMultiplier.toUInt64
    escalationMultiplier := setup.minimumEscalationMultiplier.toUInt64
    min_le_target := by
      simp only [targetTxnCount]
      split <;> omega
    target_le_max := by
      intro n hn
      obtain ⟨m, -, rfl⟩ := Option.map_eq_some_iff.mp hn
      split <;> omega }

/-- `boost::algorithm::clamp (v, lo, hi)`. -/
def clamp (v lo hi : Nat) : Nat := if v < lo then lo else if hi < v then hi else v

/-- The next expected count from the largest recent count: grow to it at once, or shrink a tenth of
the way towards it. -/
def nextExpected (txnsExpected maxRecent : Nat) : Nat :=
  if maxRecent ≥ txnsExpected then maxRecent else (txnsExpected * 9 + maxRecent) / 10

/-- The part of `update` that follows the count of `size` transactions: after a time leap the
count clamped to the target and the history cleared; after a ledger above the expected count or
the target, the count recorded and `nextExpected` of the largest recorded count, capped by the
maximum. `none` where the source dereferences `max_element` of an empty history, which a history
of capacity zero is after a push. -/
def updateExpected (fm : FeeMetrics) (size : Nat) (timeLeap : Bool) : Option FeeMetrics :=
  if timeLeap then
    some { fm with
      txnsExpected := clamp size fm.minimumTxnCount fm.targetTxnCount
      recentTxnCounts := fm.recentTxnCounts.clear }
  else if size > fm.txnsExpected ∨ size > fm.targetTxnCount then
    let recent := fm.recentTxnCounts.pushBack size
    match recent.items.max? with
    | none => none
    | some iter =>
      let next := nextExpected fm.txnsExpected iter
      some { fm with
        recentTxnCounts := recent
        txnsExpected := min next (fm.maximumTxnCount.getD next) }
  else some fm

/-- `std::sort` of the fee levels. -/
def sortLevels (levels : List UInt64) : List UInt64 := levels.mergeSort fun a b => decide (a ≤ b)

/-- `feeLevels[(size - 1) / 2]` and `feeLevels[size / 2]`: the two middle levels, one and the same
for an odd number of levels. -/
def lowerMiddle (feeLevels : List UInt64) : UInt64 := feeLevels.getD ((feeLevels.length - 1) / 2) 0

def upperMiddle (feeLevels : List UInt64) : UInt64 := feeLevels.getD (feeLevels.length / 2) 0

/-- The multiplier from the sorted fee levels: the minimum for an empty ledger, else the mean of
the two middle levels rounded up, in `std::uint64_t`, and at least the minimum. -/
def escalation (minimumMultiplier : UInt64) (feeLevels : List UInt64) : UInt64 :=
  if feeLevels = [] then minimumMultiplier
  else max ((upperMiddle feeLevels + lowerMiddle feeLevels + 1) / 2) minimumMultiplier

/-- `FeeMetrics::update` from the fee levels of the ledger's transactions (`getFeeLevelPaid` of
each): they are sorted, the expected count follows their number, the multiplier their median.
Returns the number of transactions and the new metrics. -/
def update (fm : FeeMetrics) (levels : List UInt64) (timeLeap : Bool) : Option (Nat × FeeMetrics) :=
  let feeLevels := sortLevels levels
  (fm.updateExpected feeLevels.length timeLeap).map fun fm' =>
    (feeLevels.length, { fm' with escalationMultiplier := escalation fm'.minimumMultiplier feeLevels })

/-- The metrics after a run of ledgers, each given by its fee levels and whether it came after a
time leap; `none` if an update is undefined. -/
def runUpdates (fm : FeeMetrics) : List (List UInt64 × Bool) → Option FeeMetrics
  | [] => some fm
  | (levels, timeLeap) :: rest =>
    match fm.update levels timeLeap with
    | none => none
    | some (_, fm') => runUpdates fm' rest

/-- `FeeMetrics::getSnapshot`. -/
structure Snapshot where
  txnsExpected : Nat
  escalationMultiplier : UInt64

def getSnapshot (fm : FeeMetrics) : Snapshot := ⟨fm.txnsExpected, fm.escalationMultiplier⟩

/-! ## The expected count stays in its bounds -/

/-- What every update keeps: the expected count between the minimum and the maximum, and every
recorded count above the minimum. -/
structure Bounded (fm : FeeMetrics) : Prop where
  min_le : fm.minimumTxnCount ≤ fm.txnsExpected
  le_max : ∀ n, fm.maximumTxnCount = some n → fm.txnsExpected ≤ n
  recent_gt : ∀ c ∈ fm.recentTxnCounts.items, fm.minimumTxnCount < c

theorem bounded_new (setup : Setup) : (new setup).Bounded where
  min_le := le_rfl
  le_max n hn := (new setup).min_le_target.trans ((new setup).target_le_max n hn)
  recent_gt _ hc := absurd hc List.not_mem_nil

theorem clamp_le {v lo hi : Nat} (h : lo ≤ hi) : lo ≤ clamp v lo hi ∧ clamp v lo hi ≤ hi := by
  unfold clamp
  split_ifs <;> omega

/-- Growing to a count above the minimum, or shrinking towards it, stays at the minimum or above. -/
theorem le_nextExpected {lo te mx : Nat} (hte : lo ≤ te) (hmx : lo < mx) : lo ≤ nextExpected te mx := by
  unfold nextExpected
  split <;> omega

/-- A value capped by an optional maximum is below the maximum. -/
theorem min_getD_le {a n : Nat} {o : Option Nat} (h : o = some n) : min a (o.getD a) ≤ n := by
  rw [h, Option.getD_some]
  exact min_le_right _ _

theorem le_min_getD {lo a : Nat} {o : Option Nat} (ha : lo ≤ a) (ho : ∀ n, o = some n → lo ≤ n) :
    lo ≤ min a (o.getD a) := by
  cases o with
  | none => simpa using ha
  | some n => exact le_min ha (ho n rfl)

variable {fm fm' : FeeMetrics} {size : Nat} {timeLeap : Bool}

/-- **Everything one `updateExpected` can do**: clamp after a time leap; record the count and move
towards the largest recorded one; or nothing. -/
theorem updateExpected_cases (h : fm.updateExpected size timeLeap = some fm') :
    (timeLeap = true ∧ fm' = { fm with
        txnsExpected := clamp size fm.minimumTxnCount fm.targetTxnCount
        recentTxnCounts := fm.recentTxnCounts.clear }) ∨
    (timeLeap = false ∧ (size > fm.txnsExpected ∨ size > fm.targetTxnCount) ∧
      ∃ iter, (fm.recentTxnCounts.pushBack size).items.max? = some iter ∧
        fm' = { fm with
          recentTxnCounts := fm.recentTxnCounts.pushBack size
          txnsExpected := min (nextExpected fm.txnsExpected iter)
            (fm.maximumTxnCount.getD (nextExpected fm.txnsExpected iter)) }) ∨
    (timeLeap = false ∧ ¬(size > fm.txnsExpected ∨ size > fm.targetTxnCount) ∧ fm' = fm) := by
  unfold updateExpected at h
  cases timeLeap with
  | true => exact Or.inl ⟨rfl, (Option.some.inj h).symm⟩
  | false =>
    simp only [Bool.false_eq_true, if_false] at h
    split at h
    · split at h
      · cases h
      · exact Or.inr (Or.inl ⟨rfl, ‹_›, _, ‹_›, (Option.some.inj h).symm⟩)
    · exact Or.inr (Or.inr ⟨rfl, ‹_›, (Option.some.inj h).symm⟩)

/-- `updateExpected` leaves the constants and the capacity of the history alone. -/
theorem updateExpected_consts (h : fm.updateExpected size timeLeap = some fm') :
    fm'.minimumTxnCount = fm.minimumTxnCount ∧ fm'.targetTxnCount = fm.targetTxnCount ∧
      fm'.maximumTxnCount = fm.maximumTxnCount ∧ fm'.minimumMultiplier = fm.minimumMultiplier ∧
      fm'.recentTxnCounts.capacity = fm.recentTxnCounts.capacity := by
  rcases updateExpected_cases h with ⟨-, rfl⟩ | ⟨-, -, _, -, rfl⟩ | ⟨-, -, rfl⟩
  · exact ⟨rfl, rfl, rfl, rfl, CircularBuffer.capacity_clear _⟩
  · exact ⟨rfl, rfl, rfl, rfl, CircularBuffer.capacity_pushBack _ _⟩
  · exact ⟨rfl, rfl, rfl, rfl, rfl⟩

/-- **One update keeps the bounds.** The count recorded exceeds the expected count or the target,
both at least the minimum, so the largest recorded count exceeds the minimum, and moving towards
it keeps the expected count above the minimum; the cap keeps it below the maximum. -/
theorem updateExpected_bounded (hb : fm.Bounded) (h : fm.updateExpected size timeLeap = some fm') :
    fm'.Bounded := by
  have hlt := fm.min_le_target
  have hmax := fm.target_le_max
  rcases updateExpected_cases h with ⟨-, rfl⟩ | ⟨-, hsize, iter, hiter, rfl⟩ | ⟨-, -, rfl⟩
  · obtain ⟨hlo, hhi⟩ := clamp_le (v := size) hlt
    exact ⟨hlo, fun n hn => hhi.trans (hmax n hn), fun c hc => absurd hc List.not_mem_nil⟩
  · -- every recorded count, the new one included, exceeds the minimum
    have hrec : ∀ c ∈ (fm.recentTxnCounts.pushBack size).items, fm.minimumTxnCount < c := by
      intro c hc
      rcases CircularBuffer.mem_pushBack hc with hc | rfl
      · exact hb.recent_gt c hc
      · have := hb.min_le
        omega
    have hnext := le_nextExpected hb.min_le (hrec iter (List.max?_mem hiter))
    exact ⟨le_min_getD hnext fun M hM => hlt.trans (hmax M hM), fun n hn => min_getD_le hn, hrec⟩
  · exact hb

theorem update_eq {levels : List UInt64} {n : Nat} (h : fm.update levels timeLeap = some (n, fm')) :
    ∃ fm₀, fm.updateExpected (sortLevels levels).length timeLeap = some fm₀ ∧
      n = (sortLevels levels).length ∧
      fm' = { fm₀ with escalationMultiplier := escalation fm₀.minimumMultiplier (sortLevels levels) } := by
  obtain ⟨fm₀, h₀, heq⟩ := Option.map_eq_some_iff.mp h
  exact ⟨fm₀, h₀, (Prod.mk.inj heq).1.symm, (Prod.mk.inj heq).2.symm⟩

theorem update_bounded {levels : List UInt64} {n : Nat} (hb : fm.Bounded)
    (h : fm.update levels timeLeap = some (n, fm')) : fm'.Bounded := by
  obtain ⟨fm₀, h₀, -, rfl⟩ := update_eq h
  obtain ⟨hmin, hmax, hrec⟩ := updateExpected_bounded hb h₀
  exact ⟨hmin, hmax, hrec⟩

theorem update_consts {levels : List UInt64} {n : Nat} (h : fm.update levels timeLeap = some (n, fm')) :
    fm'.minimumTxnCount = fm.minimumTxnCount ∧ fm'.maximumTxnCount = fm.maximumTxnCount ∧
      fm'.minimumMultiplier = fm.minimumMultiplier ∧
      fm'.recentTxnCounts.capacity = fm.recentTxnCounts.capacity := by
  obtain ⟨fm₀, h₀, -, rfl⟩ := update_eq h
  obtain ⟨h1, -, h3, h4, h5⟩ := updateExpected_consts h₀
  exact ⟨h1, h3, h4, h5⟩

/-- **Every run keeps the bounds**: `txnsExpected_` stays between `minimumTxnCount_` and
`maximumTxnCount_` after any ledgers and time leaps. -/
theorem runUpdates_bounded : ∀ (fm : FeeMetrics) (ledgers : List (List UInt64 × Bool)) {fm' : FeeMetrics},
    fm.Bounded → fm.runUpdates ledgers = some fm' → fm'.Bounded
  | _, [], _, hb, h => by
    cases h
    exact hb
  | fm, (levels, timeLeap) :: rest, _, hb, h => by
    unfold runUpdates at h
    split at h
    · cases h
    · exact runUpdates_bounded _ rest (update_bounded hb ‹_›) h

/-- With room for one count in the history, an update is defined. -/
theorem updateExpected_isSome (hc : 0 < fm.recentTxnCounts.capacity) :
    (fm.updateExpected size timeLeap).isSome := by
  unfold updateExpected
  cases timeLeap with
  | true => rfl
  | false =>
    simp only [Bool.false_eq_true, if_false]
    split
    · have hmem := CircularBuffer.mem_pushBack_self fm.recentTxnCounts size hc
      split
      · rename_i hnone
        exact absurd (List.max?_eq_none_iff.mp hnone ▸ hmem) List.not_mem_nil
      · rfl
    · rfl

/-- With room for one count in the history, every run is defined. -/
theorem runUpdates_isSome : ∀ (fm : FeeMetrics) (ledgers : List (List UInt64 × Bool)),
    0 < fm.recentTxnCounts.capacity → (fm.runUpdates ledgers).isSome
  | _, [], _ => rfl
  | fm, (levels, timeLeap) :: rest, hc => by
    unfold runUpdates
    split
    · rename_i hnone
      have hsome : (fm.updateExpected (sortLevels levels).length timeLeap).isSome := updateExpected_isSome hc
      obtain ⟨fm₀, h₀⟩ := Option.isSome_iff_exists.mp hsome
      simp [update, h₀] at hnone
    · rename_i n fm₁ h₁
      exact runUpdates_isSome fm₁ rest ((update_consts h₁).2.2.2 ▸ hc)

/-! ## The multiplier is the median, in `std::uint64_t` -/

theorem sortLevels_sorted (levels : List UInt64) : (sortLevels levels).Pairwise (· ≤ ·) := by
  have h := @List.pairwise_mergeSort _ (fun a b : UInt64 => decide (a ≤ b))
    (fun a b c hab hbc => by simp only [decide_eq_true_eq] at *; exact UInt64.le_trans hab hbc)
    (fun a b => by simp only [Bool.or_eq_true, decide_eq_true_eq]; exact UInt64.le_total a b) levels
  exact h.imp fun hab => by simpa using hab

theorem length_sortLevels (levels : List UInt64) : (sortLevels levels).length = levels.length :=
  (List.mergeSort_perm _ _).length_eq

/-- In a sorted list the lower middle level is at most the upper one. -/
theorem lowerMiddle_le_upperMiddle {l : List UInt64} (hl : l.Pairwise (· ≤ ·)) (hne : l ≠ []) :
    lowerMiddle l ≤ upperMiddle l := by
  have hn : 0 < l.length := List.length_pos_iff.mpr hne
  have hi : (l.length - 1) / 2 < l.length := by omega
  have hj : l.length / 2 < l.length := by omega
  unfold lowerMiddle upperMiddle
  rw [List.getD_eq_getElem?_getD, List.getD_eq_getElem?_getD, List.getElem?_eq_getElem hi,
    List.getElem?_eq_getElem hj, Option.getD_some, Option.getD_some]
  rcases Nat.lt_or_eq_of_le (show (l.length - 1) / 2 ≤ l.length / 2 by omega) with hlt | heq
  · exact List.pairwise_iff_getElem.mp hl _ _ hi hj hlt
  · simp only [heq]
    exact UInt64.le_refl _

/-- The multiplier of a non-empty ledger: the sum of the middle levels plus one wraps modulo
`2 ^ 64` before it is halved. -/
theorem escalation_toNat (minimumMultiplier : UInt64) {l : List UInt64} (hne : l ≠ []) :
    (escalation minimumMultiplier l).toNat =
      max (((upperMiddle l).toNat + (lowerMiddle l).toNat + 1) % 2 ^ 64 / 2) minimumMultiplier.toNat := by
  have h1 : (1 : UInt64).toNat = 1 := rfl
  have h2 : (2 : UInt64).toNat = 2 := rfl
  rw [escalation, if_neg hne, UInt64.toNat_max, UInt64.toNat_div, UInt64.toNat_add, UInt64.toNat_add, h1, h2,
    Nat.mod_add_mod]

theorem update_escalationMultiplier_nil {n : Nat} (h : fm.update [] timeLeap = some (n, fm')) :
    fm'.escalationMultiplier = fm.minimumMultiplier := by
  obtain ⟨fm₀, h₀, -, rfl⟩ := update_eq h
  show escalation fm₀.minimumMultiplier (sortLevels []) = fm.minimumMultiplier
  have hnil : sortLevels [] = [] := List.mergeSort_nil
  rw [escalation, if_pos hnil]
  exact (updateExpected_consts h₀).2.2.2.1

/-- **After a ledger with transactions**, the multiplier is the rounded-up mean of the two middle
fee levels computed modulo `2 ^ 64`, or the minimum. -/
theorem update_escalationMultiplier {levels : List UInt64} {n : Nat} (h : fm.update levels timeLeap = some (n, fm'))
    (hne : levels ≠ []) :
    fm'.escalationMultiplier.toNat =
      max (((upperMiddle (sortLevels levels)).toNat + (lowerMiddle (sortLevels levels)).toNat + 1) % 2 ^ 64 / 2)
        fm.minimumMultiplier.toNat := by
  obtain ⟨fm₀, h₀, -, rfl⟩ := update_eq h
  have hs : sortLevels levels ≠ [] := by
    rw [← List.length_pos_iff, length_sortLevels]
    exact List.length_pos_iff.mpr hne
  rw [← (updateExpected_consts h₀).2.2.2.1]
  exact escalation_toNat _ hs

/-- While the two middle levels add up below `2 ^ 64 - 1` the multiplier is their rounded-up mean,
which lies between them, or the minimum. -/
theorem update_escalationMultiplier_of_lt {levels : List UInt64} {n : Nat}
    (h : fm.update levels timeLeap = some (n, fm')) (hne : levels ≠ [])
    (hfit : (upperMiddle (sortLevels levels)).toNat + (lowerMiddle (sortLevels levels)).toNat + 1 < 2 ^ 64) :
    fm'.escalationMultiplier.toNat =
        max (((lowerMiddle (sortLevels levels)).toNat + (upperMiddle (sortLevels levels)).toNat + 1) / 2)
          fm.minimumMultiplier.toNat ∧
      (lowerMiddle (sortLevels levels)).toNat ≤
        ((lowerMiddle (sortLevels levels)).toNat + (upperMiddle (sortLevels levels)).toNat + 1) / 2 ∧
      ((lowerMiddle (sortLevels levels)).toNat + (upperMiddle (sortLevels levels)).toNat + 1) / 2 ≤
        (upperMiddle (sortLevels levels)).toNat := by
  have hs : sortLevels levels ≠ [] := by
    rw [← List.length_pos_iff, length_sortLevels]
    exact List.length_pos_iff.mpr hne
  have hle := UInt64.le_iff_toNat_le.mp (lowerMiddle_le_upperMiddle (sortLevels_sorted levels) hs)
  rw [update_escalationMultiplier h hne, Nat.mod_eq_of_lt hfit]
  refine ⟨by rw [Nat.add_comm (upperMiddle _).toNat], by omega, by omega⟩

/-- **The median wraps around**: once the two middle levels add up to `2 ^ 64 - 1` or more, the
multiplier is their rounded-up mean less `2 ^ 63`, or the minimum. -/
theorem update_median_wraps {levels : List UInt64} {n : Nat} (h : fm.update levels timeLeap = some (n, fm'))
    (hne : levels ≠ [])
    (hwrap : 2 ^ 64 ≤ (upperMiddle (sortLevels levels)).toNat + (lowerMiddle (sortLevels levels)).toNat + 1) :
    fm'.escalationMultiplier.toNat =
      max (((upperMiddle (sortLevels levels)).toNat + (lowerMiddle (sortLevels levels)).toNat + 1) / 2 - 2 ^ 63)
        fm.minimumMultiplier.toNat := by
  have hhi := (upperMiddle (sortLevels levels)).toNat_lt
  have hlo := (lowerMiddle (sortLevels levels)).toNat_lt
  obtain ⟨s, hs⟩ : ∃ s, s = (upperMiddle (sortLevels levels)).toNat + (lowerMiddle (sortLevels levels)).toNat + 1 :=
    ⟨_, rfl⟩
  rw [← hs] at hwrap
  -- the sum is below `2 ^ 65`, so taking it modulo `2 ^ 64` subtracts `2 ^ 64` once
  have hhalf : s % 2 ^ 64 / 2 = s / 2 - 2 ^ 63 := by
    rw [Nat.mod_eq_sub_mod hwrap, Nat.mod_eq_of_lt (by omega)]
    omega
  rw [update_escalationMultiplier h hne, ← hs, hhalf]

/-- A single transaction at the largest level leaves the multiplier at `2 ^ 63 - 1`, half its
level. -/
theorem update_median_wraps_top :
    ∃ n fm', (new {}).update [UInt64.ofNat (2 ^ 64 - 1)] false = some (n, fm') ∧
      fm'.escalationMultiplier.toNat = 2 ^ 63 - 1 := by
  obtain ⟨⟨n, fm'⟩, h⟩ := Option.isSome_iff_exists.mp
    (show ((new {}).update [UInt64.ofNat (2 ^ 64 - 1)] false).isSome = true by decide +kernel)
  have hsort : sortLevels [UInt64.ofNat (2 ^ 64 - 1)] = [UInt64.ofNat (2 ^ 64 - 1)] := List.mergeSort_singleton _
  have htop : (UInt64.ofNat (2 ^ 64 - 1)).toNat = 2 ^ 64 - 1 :=
    UInt64.toNat_ofNat'.trans (Nat.mod_eq_of_lt (by omega))
  have hmid : (upperMiddle [UInt64.ofNat (2 ^ 64 - 1)]).toNat = 2 ^ 64 - 1 ∧
      (lowerMiddle [UInt64.ofNat (2 ^ 64 - 1)]).toNat = 2 ^ 64 - 1 := ⟨htop, htop⟩
  have hmin : (new {}).minimumMultiplier.toNat = 128000 := rfl
  refine ⟨n, fm', h, ?_⟩
  rw [update_median_wraps h (List.cons_ne_nil _ _) (by rw [hsort, hmid.1, hmid.2]; omega), hsort, hmid.1,
    hmid.2, hmin]
  omega

end FeeMetrics

end TxQ

end Ripple
