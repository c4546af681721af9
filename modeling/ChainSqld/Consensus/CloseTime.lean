import Mathlib.Algebra.Group.Nat.Defs
import Mathlib.Algebra.Group.Int.Defs
import ChainSqld.Lib.OrdMap
import ChainSqld.Lib.RunningMax

/-!
# Agreeing on the close time

`Consensus::updateOurPositions` erases the peer positions that have gone stale and counts the
close times of the others, each as `asCloseTime` rounds it, with our own when we are proposing,
in a map ordered by time. It then walks the map in time order, keeping a time whose votes reach
`threshVote` and raising `threshVote` to them: the time kept last is the consensus close time, and
there is consensus on it when its votes also reach `threshConsensus`. Both thresholds are
`participantsNeeded` of the number of participants and a percentage.

* `mem_freshPositions_iff`: a peer position is fresh when it was seen less than `proposeFRESHNESS`
  seconds ago; the cutoff is converted back to a `std::uint32_t` time point, so within that many
  seconds of the epoch it wraps and only a position seen in the clock's last seconds is fresh;
* `mem_votes_entries`: the vote map holds each time voted for with its number of votes;
* `updateOurPositions_of_ne_nil`: the walk is a `RunningMax` scan of that map, so the close time
  agreed on is the latest of the most voted times when their votes reach `threshVote`, and the
  epoch otherwise (`RunningMax.foldl_step_counts`);
* `participantsNeeded_mem`: for `P ≥ 1` and a percentage up to `100`, `participantsNeeded P pct`
  is between `1` and `P`, as long as `P * pct + pct / 2` fits in an `int`;
  `participantsNeeded_overflow`: beyond that the product wraps and the answer is negative.

Time points count seconds in a `std::uint32_t`; `int` arithmetic is `Int32`. The disputed
transactions that `updateOurPositions` also revotes are not part of this model.
-/

set_option autoImplicit false

namespace Ripple

/-- A `NetClock::time_point`: seconds since the network epoch, in a `std::uint32_t`. -/
structure NetTime where
  ticks : UInt32

namespace NetTime

/-- The epoch, `time_point{}`. -/
def epoch : NetTime := ⟨0⟩

theorem toNat_injective : Function.Injective fun t : NetTime => t.ticks.toNat := by
  rintro ⟨a⟩ ⟨b⟩ h
  exact congrArg NetTime.mk (UInt32.toNat_inj.mp h)

/-- Time points are ordered as their counts of seconds. -/
instance : LinearOrder NetTime := LinearOrder.lift' _ toNat_injective

instance : OrderBot NetTime where
  bot := epoch
  bot_le t := show (0 : UInt32).toNat ≤ t.ticks.toNat from Nat.zero_le _

/-- A time point less a number of seconds, as `now_ - parms.proposeFRESHNESS` passed on as a
`NetClock::time_point`: the difference is taken in 64 bits, and the conversion back to the clock's
`std::uint32_t` keeps its low 32 bits, so a time before the epoch wraps to the far future. -/
def subSeconds (t : NetTime) (d : Int) : NetTime := ⟨UInt32.ofInt ((t.ticks.toNat : Int) - d)⟩

theorem toNat_subSeconds (t : NetTime) (d : Int) :
    ((t.subSeconds d).ticks.toNat : Int) = ((t.ticks.toNat : Int) - d) % 2 ^ 32 := by
  have h0 : 0 ≤ ((t.ticks.toNat : Int) - d) % 2 ^ 32 := Int.emod_nonneg _ (by decide)
  have h1 : ((t.ticks.toNat : Int) - d) % 2 ^ 32 < 2 ^ 32 := Int.emod_lt_of_pos _ (by decide)
  rw [subSeconds, UInt32.ofInt, UInt32.toNat_ofNat', Nat.mod_eq_of_lt (by omega), Int.toNat_of_nonneg h0]

/-- No later than `d` seconds before `t`. Within `d` seconds of the epoch the difference wraps to
the end of the clock. -/
theorem le_subSeconds_iff {t u : NetTime} {d : Int} (hd : 0 ≤ d) (hd' : d ≤ 2 ^ 32) :
    u ≤ t.subSeconds d ↔
      (u.ticks.toNat : Int) + d ≤ t.ticks.toNat + (if (t.ticks.toNat : Int) < d then 2 ^ 32 else 0) := by
  have hlt := t.ticks.toNat_lt
  have h := toNat_subSeconds t d
  show u.ticks.toNat ≤ (t.subSeconds d).ticks.toNat ↔ _
  split_ifs <;> omega

end NetTime

/-- `roundCloseTime`: the nearest multiple of the resolution, rounding up at the midpoint; the
epoch stays the epoch. The sum is taken in the clock's `std::uint32_t`. -/
def roundCloseTime (closeTime : NetTime) (closeResolution : UInt32) : NetTime :=
  if closeTime = NetTime.epoch then closeTime
  else
    let closeTime := closeTime.ticks + closeResolution / 2
    ⟨closeTime - closeTime % closeResolution⟩

/-- `effCloseTime`: the rounded close time, at least a second after the prior one. -/
def effCloseTime (closeTime : NetTime) (resolution : UInt32) (priorCloseTime : NetTime) : NetTime :=
  if closeTime = NetTime.epoch then closeTime
  else max (roundCloseTime closeTime resolution) ⟨priorCloseTime.ticks + 1⟩

/-- The fields of `ConsensusParms` that the close-time vote reads, with their defaults; the
freshness is in seconds. -/
structure ConsensusParms where
  proposeFRESHNESS : Int := 20
  avINIT_CONSENSUS_PCT : Nat := 50
  avMID_CONSENSUS_TIME : Nat := 50
  avMID_CONSENSUS_PCT : Nat := 65
  avLATE_CONSENSUS_TIME : Nat := 85
  avLATE_CONSENSUS_PCT : Nat := 70
  avSTUCK_CONSENSUS_TIME : Nat := 200
  avSTUCK_CONSENSUS_PCT : Nat := 95
  avCT_CONSENSUS_PCT : Nat := 75
  useRoundedCloseTime : Bool := true

/-- A `ConsensusProposal`, by what the close-time vote reads: the close time it proposes, and
`time_`, when it was last seen. -/
structure ConsensusProposal where
  closeTime : NetTime
  time : NetTime
deriving DecidableEq

/-- `isStale`: last seen no later than the cutoff. -/
def ConsensusProposal.isStale (p : ConsensusProposal) (cutoff : NetTime) : Bool :=
  decide (p.time ≤ cutoff)

/-- `participantsNeeded`: how many of `participants` make up `percent` of them, rounded to the
nearest, and at least one. -/
def participantsNeeded (participants percent : Int32) : Int32 :=
  let result := (participants * percent + percent / 2) / 100
  if result = 0 then 1 else result

/-- Without wrap-around, the quotient of `participantsNeeded` is that of the integers. -/
theorem toInt_participantsNeeded_quot {P pct : Int32} (hP : 0 ≤ P.toInt) (h0 : 0 ≤ pct.toInt)
    (h100 : pct.toInt ≤ 100) (hfit : P.toInt * pct.toInt + pct.toInt / 2 < 2 ^ 31) :
    ((P * pct + pct / 2) / 100).toInt = (P.toInt * pct.toInt + pct.toInt / 2) / 100 := by
  have hbmod : ∀ n : Int, 0 ≤ n → n < 2 ^ 31 → n.bmod (2 ^ 32) = n := fun n hn hn' =>
    Int.bmod_eq_of_le (by omega) (by omega)
  have hmul : 0 ≤ P.toInt * pct.toInt := Int.mul_nonneg hP h0
  have hhalf : (pct / 2).toInt = pct.toInt / 2 := by
    rw [Int32.toInt_div, show (2 : Int32).toInt = 2 from rfl, Int.tdiv_eq_ediv_of_nonneg h0]
    exact hbmod _ (by omega) (by omega)
  rw [Int32.toInt_div, Int32.toInt_add, Int32.toInt_mul, hhalf, hbmod _ hmul (by omega),
    hbmod _ (by omega) hfit, show (100 : Int32).toInt = 100 from rfl, Int.tdiv_eq_ediv_of_nonneg (by omega)]
  exact hbmod _ (by omega) (by omega)

/-- **The participants needed are between one and all**, for `P ≥ 1` participants and a percentage
up to `100`, as long as `P * pct + pct / 2` fits in an `int`. -/
theorem participantsNeeded_mem {P pct : Int32} (hP : 1 ≤ P.toInt) (h0 : 0 ≤ pct.toInt) (h100 : pct.toInt ≤ 100)
    (hfit : P.toInt * pct.toInt + pct.toInt / 2 < 2 ^ 31) :
    1 ≤ (participantsNeeded P pct).toInt ∧ (participantsNeeded P pct).toInt ≤ P.toInt := by
  have hq := toInt_participantsNeeded_quot (by omega) h0 h100 hfit
  have hmul : 0 ≤ P.toInt * pct.toInt := Int.mul_nonneg (by omega) h0
  have hle : P.toInt * pct.toInt ≤ P.toInt * 100 := Int.mul_le_mul_of_nonneg_left h100 (by omega)
  dsimp only [participantsNeeded]
  split
  · exact ⟨le_refl _, hP⟩
  · rename_i hne
    -- a quotient that is not zero is at least one, and `(100 P + 50) / 100` is `P`
    have hne' : (P.toInt * pct.toInt + pct.toInt / 2) / 100 ≠ 0 := by
      rw [← hq]
      exact fun h => hne (Int32.toInt_inj.mp (h.trans Int32.toInt_zero.symm))
    rw [hq]
    constructor <;> omega

/-- Beyond an `int`, the product wraps: a hundred percent of `21474837` participants is negative. -/
theorem participantsNeeded_overflow : (participantsNeeded 21474837 100).toInt = -21474835 := by decide

/-- The part of a `Consensus` round that the close-time vote reads. -/
structure Consensus where
  /-- `currPeerPositions_`: each peer's `NodeID` with its latest position. -/
  currPeerPositions : List (Nat × ConsensusProposal)
  /-- `result_->position`, our own. -/
  position : ConsensusProposal
  /-- `mode_ == ConsensusMode::proposing`. -/
  proposing : Bool
  convergePercent : Nat
  now : NetTime
  closeResolution : UInt32
  /-- `previousLedger_.closeTime()`. -/
  previousCloseTime : NetTime

namespace Consensus

/-- `++closeTimeVotes[t]`: a time not yet in the map counts from zero. -/
def addVote (closeTimeVotes : OrdMap NetTime Int) (t : NetTime) : OrdMap NetTime Int :=
  closeTimeVotes.set t ((closeTimeVotes.find? t).getD 0 + 1)

variable (parms : ConsensusParms) (c : Consensus)

/-- `asCloseTime`. -/
def asCloseTime (raw : NetTime) : NetTime :=
  if parms.useRoundedCloseTime then roundCloseTime raw c.closeResolution
  else effCloseTime raw c.closeResolution c.previousCloseTime

/-- The peer positions left once the stale ones are erased. -/
def freshPositions : List (Nat × ConsensusProposal) :=
  c.currPeerPositions.filter fun p => !p.2.isStale (c.now.subSeconds parms.proposeFRESHNESS)

/-- **Which peer positions are fresh.** A position is kept when it was seen less than
`proposeFRESHNESS` seconds before `now_`. Within `proposeFRESHNESS` seconds of the epoch the cutoff
wraps to the end of the clock, and only a position seen in its last seconds is kept. -/
theorem mem_freshPositions_iff (e : Nat × ConsensusProposal) (h0 : 0 ≤ parms.proposeFRESHNESS)
    (h1 : parms.proposeFRESHNESS ≤ 2 ^ 32) :
    e ∈ freshPositions parms c ↔ e ∈ c.currPeerPositions ∧
      (c.now.ticks.toNat : Int) + (if (c.now.ticks.toNat : Int) < parms.proposeFRESHNESS then 2 ^ 32 else 0) <
        e.2.time.ticks.toNat + parms.proposeFRESHNESS := by
  simp only [freshPositions, List.mem_filter, ConsensusProposal.isStale, Bool.not_eq_eq_eq_not,
    Bool.not_true, decide_eq_false_iff_not]
  apply and_congr_right
  intro _
  rw [NetTime.le_subSeconds_iff h0 h1]
  omega

/-- Five seconds after the epoch, a position seen at three seconds counts as stale. -/
example : freshPositions {} ⟨[(1, ⟨⟨0⟩, ⟨3⟩⟩)], ⟨⟨0⟩, ⟨3⟩⟩, false, 0, ⟨5⟩, 30, ⟨0⟩⟩ = [] := by decide

/-- `neededWeight`: the percentage a close time needs, rising as the round takes longer. -/
def neededWeight : Nat :=
  if c.convergePercent < parms.avMID_CONSENSUS_TIME then parms.avINIT_CONSENSUS_PCT
  else if c.convergePercent < parms.avLATE_CONSENSUS_TIME then parms.avMID_CONSENSUS_PCT
  else if c.convergePercent < parms.avSTUCK_CONSENSUS_TIME then parms.avLATE_CONSENSUS_PCT
  else parms.avSTUCK_CONSENSUS_PCT

/-- The close-time vote of `updateOurPositions`: the peer positions kept, `consensusCloseTime` and
`haveCloseTimeConsensus_`. -/
def updateOurPositions : List (Nat × ConsensusProposal) × NetTime × Bool :=
  let fresh := freshPositions parms c
  let closeTimeVotes := fresh.foldl (fun votes p => addVote votes (asCloseTime parms c p.2.closeTime)) OrdMap.empty
  if fresh = [] then (fresh, asCloseTime parms c c.position.closeTime, true)
  else
    let participants : Int32 := Int32.ofNat fresh.length
    let closeTimeVotes :=
      if c.proposing then addVote closeTimeVotes (asCloseTime parms c c.position.closeTime) else closeTimeVotes
    let participants := if c.proposing then participants + 1 else participants
    let threshVote := participantsNeeded participants (Int32.ofNat (neededWeight parms c))
    let threshConsensus := participantsNeeded participants (Int32.ofNat parms.avCT_CONSENSUS_PCT)
    -- the walk in time order keeps a time reaching `threshVote` and raises `threshVote` to it
    let s := closeTimeVotes.entries.foldl (RunningMax.step threshConsensus.toInt) ⟨NetTime.epoch, threshVote.toInt, false⟩
    (fresh, s.kept, s.reached)

/-- The close times voted for: those of the fresh peer positions, then ours when proposing. -/
def closeTimesVoted : List NetTime :=
  (freshPositions parms c).map (fun p => asCloseTime parms c p.2.closeTime) ++
    if c.proposing then [asCloseTime parms c c.position.closeTime] else []

theorem find?_addVote (votes : OrdMap NetTime Int) (t t' : NetTime) :
    (addVote votes t).find? t' = if t' = t then some ((votes.find? t).getD 0 + 1) else votes.find? t' :=
  OrdMap.find?_set _ _ _ _

/-- After the votes `W`, the entry of a time has grown by its number of votes in `W`. -/
theorem find?_foldl_addVote (t : NetTime) : ∀ (W : List NetTime) (votes : OrdMap NetTime Int),
    (W.foldl addVote votes).find? t = if t ∈ W then some ((votes.find? t).getD 0 + W.count t) else votes.find? t
  | [], votes => by simp
  | u :: W, votes => by
    rw [List.foldl_cons, find?_foldl_addVote t W, find?_addVote]
    by_cases htu : t = u
    · subst htu
      by_cases htW : t ∈ W
      · simp only [htW, if_true, List.mem_cons_self, List.count_cons_self, Option.getD_some]
        push_cast
        congr 1
        omega
      · simp [htW, List.count_eq_zero_of_not_mem htW]
    · simp [htu, List.count_cons_of_ne (Ne.symm htu)]

/-- **The vote map** of the votes `W` holds each time of `W` with its number of votes, and nothing
else. -/
theorem mem_votes_entries (W : List NetTime) (e : NetTime × Int) :
    e ∈ (W.foldl addVote OrdMap.empty).entries ↔ e.1 ∈ W ∧ e.2 = W.count e.1 := by
  obtain ⟨t, n⟩ := e
  rw [← OrdMap.find?_eq_some_iff, find?_foldl_addVote]
  by_cases ht : t ∈ W <;> simp [ht, eq_comm]

/-- With a fresh peer position, `updateOurPositions` scans the vote map of the close times voted
for, from thresholds taken of their number. -/
theorem updateOurPositions_of_ne_nil (hfresh : freshPositions parms c ≠ []) :
    updateOurPositions parms c =
      let V := closeTimesVoted parms c
      let threshVote := participantsNeeded (Int32.ofNat V.length) (Int32.ofNat (neededWeight parms c))
      let threshConsensus := participantsNeeded (Int32.ofNat V.length) (Int32.ofNat parms.avCT_CONSENSUS_PCT)
      let s := (V.foldl addVote OrdMap.empty).entries.foldl (RunningMax.step threshConsensus.toInt)
        ⟨NetTime.epoch, threshVote.toInt, false⟩
      (freshPositions parms c, s.kept, s.reached) := by
  unfold updateOurPositions closeTimesVoted
  rw [if_neg hfresh]
  -- our own vote, when proposing, is the last one and makes one more participant
  cases c.proposing
  · simp only [Bool.false_eq_true, if_false, List.append_nil, List.foldl_map, List.length_map]
  · simp only [if_true, List.foldl_append, List.foldl_map, List.foldl_cons, List.foldl_nil, List.length_append,
      List.length_map, List.length_singleton, Int32.ofNat_add]
    rfl

/-- **The most voted close time.** With a fresh peer position, let `V` be the close times voted
for and `M` the greatest number of votes for one time: the close time agreed on is the latest time
with `M` votes when `M` reaches `threshVote`, and the epoch otherwise; there is consensus on it
exactly when `M` reaches both `threshVote` and `threshConsensus`. The thresholds lie between one
and the number of participants when that number times the percentage fits in an `int`. -/
theorem close_time_most_voted (hfresh : freshPositions parms c ≠ []) :
    let V := closeTimesVoted parms c
    let threshVote := participantsNeeded (Int32.ofNat V.length) (Int32.ofNat (neededWeight parms c))
    let threshConsensus := participantsNeeded (Int32.ofNat V.length) (Int32.ofNat parms.avCT_CONSENSUS_PCT)
    (updateOurPositions parms c).2.1 =
        (if threshVote.toInt ≤ RunningMax.maxCount V then RunningMax.latestWith V (RunningMax.maxCount V)
          else NetTime.epoch) ∧
      ((updateOurPositions parms c).2.2 = true ↔
        threshVote.toInt ≤ RunningMax.maxCount V ∧ threshConsensus.toInt ≤ RunningMax.maxCount V) ∧
      ∀ P pct : Int32, 1 ≤ P.toInt → 0 ≤ pct.toInt → pct.toInt ≤ 100 → P.toInt * pct.toInt + pct.toInt / 2 < 2 ^ 31 →
        1 ≤ (participantsNeeded P pct).toInt ∧ (participantsNeeded P pct).toInt ≤ P.toInt := by
  intro V threshVote threshConsensus
  have hV : V ≠ [] := by
    simp only [V, closeTimesVoted]
    exact fun h => hfresh (List.map_eq_nil_iff.mp (List.append_eq_nil_iff.mp h).1)
  obtain ⟨hkept, hflag⟩ := RunningMax.foldl_step_counts hV (V.foldl addVote OrdMap.empty).sorted
    (mem_votes_entries V) threshVote.toInt threshConsensus.toInt
  rw [updateOurPositions_of_ne_nil parms c hfresh]
  exact ⟨hkept, hflag, fun _ _ => participantsNeeded_mem⟩

/-- One peer and ourselves proposing `100`, rounded to `90` at a resolution of thirty seconds: both
votes agree on it. -/
theorem close_time_most_voted_pair :
    (updateOurPositions {} ⟨[(1, ⟨⟨100⟩, ⟨50⟩⟩)], ⟨⟨100⟩, ⟨50⟩⟩, true, 0, ⟨40⟩, 30, ⟨0⟩⟩).2.1 = ⟨90⟩ ∧
      (updateOurPositions {} ⟨[(1, ⟨⟨100⟩, ⟨50⟩⟩)], ⟨⟨100⟩, ⟨50⟩⟩, true, 0, ⟨40⟩, 30, ⟨0⟩⟩).2.2 = true := by
  obtain ⟨hkept, hflag, -⟩ :=
    close_time_most_voted {} ⟨[(1, ⟨⟨100⟩, ⟨50⟩⟩)], ⟨⟨100⟩, ⟨50⟩⟩, true, 0, ⟨40⟩, 30, ⟨0⟩⟩ (by decide)
  exact ⟨hkept.trans (by decide), hflag.mpr (by decide)⟩

end Consensus

end Ripple
