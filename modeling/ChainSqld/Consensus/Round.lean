import ChainSqld.Consensus.DisputedTx
import ChainSqld.Consensus.Timing

/-!
# A consensus round

The generic `Consensus` of `Consensus.h`: the phases of a round, the positions of the peers, the
transaction sets acquired, and our result with its disputes, driven by five entry points:
`startRound`, `peerProposal`, `gotTxSet`, `timerEntry` and `simulate`.

The application plugs in through an adaptor. Each call here takes a snapshot of it (`Adaptor`):
the parameters, the clock, and the answers it gives to `acquireTxSet`, `acquireLedger`,
`getPrevLedger`, `onClose`, `hasOpenTransactions`, `proposersValidated` and `proposersFinished`.
What the adaptor is told (`relay`, `propose`, `onAccept`, the mode changes) changes nothing here.
The transaction sets are the adaptor's type, used through the operations the generic code calls on
them (`TxSetOps`); a transaction is its ID.

`timerEntry` can start a new round from within, and a new round can run the timer again
(`handleWrongLedger`, `startRoundInternal`); that recursion runs on a number of nested calls `fuel`,
and a call past it does nothing.
-/

set_option autoImplicit false

namespace Ripple

namespace Round

/-- `ConsensusPhase`. -/
inductive ConsensusPhase
  | «open»
  | establish
  | accepted
deriving DecidableEq, Repr

/-- `ConsensusMode`. -/
inductive ConsensusMode
  | proposing
  | observing
  | wrongLedger
  | switchedLedger
deriving DecidableEq, Repr

/-- The ledger a round builds on, by what the round reads of it. Close times are `NetClock` time
points, the resolution is in seconds. -/
structure Ledger (LedgerID : Type) where
  id : LedgerID
  seq : UInt32
  closeTime : NetTime
  parentCloseTime : NetTime
  closeAgree : Bool
  closeTimeResolution : UInt32

/-- `ConsensusProposal`: a position on the transactions and the close time, on a prior ledger. -/
structure Proposal (NodeID LedgerID SetID : Type) where
  prevLedger : LedgerID
  position : SetID
  closeTime : NetTime
  time : NetTime
  proposeSeq : UInt32
  nodeID : NodeID

namespace Proposal

variable {NodeID LedgerID SetID : Type}

/-- `seqJoin`. -/
def seqJoin : UInt32 := 0

/-- `seqLeave`. -/
def seqLeave : UInt32 := 0xffffffff

def isInitial (p : Proposal NodeID LedgerID SetID) : Bool := p.proposeSeq == seqJoin

def isBowOut (p : Proposal NodeID LedgerID SetID) : Bool := p.proposeSeq == seqLeave

/-- `isStale`: last seen no later than the cutoff. -/
def isStale (p : Proposal NodeID LedgerID SetID) (cutoff : NetTime) : Bool := decide (p.time ≤ cutoff)

/-- `changePosition`: a new position and close time, and the next sequence number unless we left. -/
def changePosition (p : Proposal NodeID LedgerID SetID) (newPosition : SetID) (newCloseTime now : NetTime) :
    Proposal NodeID LedgerID SetID :=
  { p with position := newPosition, closeTime := newCloseTime, time := now,
           proposeSeq := if p.proposeSeq != seqLeave then p.proposeSeq + 1 else p.proposeSeq }

/-- `bowOut`. -/
def bowOut (p : Proposal NodeID LedgerID SetID) (now : NetTime) : Proposal NodeID LedgerID SetID :=
  { p with time := now, proposeSeq := seqLeave }

/-- What the close-time vote reads of a proposal. -/
def closeTimeView (p : Proposal NodeID LedgerID SetID) : ConsensusProposal := ⟨p.closeTime, p.time⟩

end Proposal

/-- The operations of the adaptor's transaction sets that the generic code calls: `id`, `exists`,
`compare`, and `insert` and `erase` of `MutableTxSet`. -/
structure TxSetOps (TxSet TxID SetID : Type) where
  id : TxSet → SetID
  «exists» : TxSet → TxID → Bool
  compare : TxSet → TxSet → List (TxID × Bool)
  insert : TxSet → TxID → TxSet
  erase : TxSet → TxID → TxSet

/-- `ConsensusTimer`: a start on the consensus clock and the duration read, in milliseconds. -/
structure ConsensusTimer where
  start : Int
  dur : Int

namespace ConsensusTimer

def reset (tp : Int) : ConsensusTimer := ⟨tp, 0⟩

/-- `tick` to a time point. -/
def tick (t : ConsensusTimer) (tp : Int) : ConsensusTimer := { t with dur := tp - t.start }

/-- `tick` by a fixed duration. -/
def tickBy (t : ConsensusTimer) (fixed : Int) : ConsensusTimer := { t with dur := t.dur + fixed }

end ConsensusTimer

/-- `ConsensusCloseTimes`: the initial close times of the peers, and ours. -/
structure ConsensusCloseTimes where
  peers : OrdMap NetTime Int
  self : NetTime

/-- `ConsensusResult`: our set and position, and the disputes with the sets compared so far. -/
structure Result (NodeID LedgerID SetID TxID TxSet : Type) where
  set : TxSet
  position : Proposal NodeID LedgerID SetID
  disputes : List (TxID × DisputedTx TxID NodeID)
  compares : List SetID
  roundTime : ConsensusTimer
  state : ConsensusState
  proposers : Nat

/-- The state of `Consensus`. -/
structure Consensus (NodeID LedgerID SetID TxID TxSet : Type) where
  phase : ConsensusPhase
  mode : ConsensusMode
  firstRound : Bool
  haveCloseTimeConsensus : Bool
  convergePercent : Int
  openTime : ConsensusTimer
  closeResolution : UInt32
  prevRoundTime : Int
  now : NetTime
  prevCloseTime : NetTime
  prevLedgerID : LedgerID
  previousLedger : Ledger LedgerID
  acquired : List (SetID × TxSet)
  result : Option (Result NodeID LedgerID SetID TxID TxSet)
  rawCloseTimes : ConsensusCloseTimes
  currPeerPositions : List (NodeID × Proposal NodeID LedgerID SetID)
  recentPeerPositions : List (NodeID × List (Proposal NodeID LedgerID SetID))
  prevProposers : Nat
  deadNodes : List NodeID

/-- A snapshot of the adaptor for one call. -/
structure Adaptor (NodeID LedgerID SetID TxSet : Type) where
  parms : ConsensusTimingParms
  clockNow : Int
  acquireTxSet : SetID → Option TxSet
  acquireLedger : LedgerID → Option (Ledger LedgerID)
  getPrevLedger : LedgerID → Ledger LedgerID → ConsensusMode → LedgerID
  onClose : Ledger LedgerID → NetTime → ConsensusMode → TxSet × Proposal NodeID LedgerID SetID
  hasOpenTransactions : Bool
  proposersValidated : LedgerID → Nat
  proposersFinished : LedgerID → Nat

variable {NodeID LedgerID SetID TxID TxSet : Type} [DecidableEq NodeID] [DecidableEq LedgerID] [DecidableEq SetID]
  [DecidableEq TxID]

/-- The constructor: no round yet, waiting in the accepted phase. -/
def Consensus.init (prevLedgerID : LedgerID) (previousLedger : Ledger LedgerID) (clockNow : Int) :
    Consensus NodeID LedgerID SetID TxID TxSet where
  phase := .accepted
  mode := .observing
  firstRound := true
  haveCloseTimeConsensus := false
  convergePercent := 0
  openTime := ConsensusTimer.reset clockNow
  closeResolution := 30
  prevRoundTime := 0
  now := NetTime.epoch
  prevCloseTime := NetTime.epoch
  prevLedgerID := prevLedgerID
  previousLedger := previousLedger
  acquired := []
  result := none
  rawCloseTimes := ⟨OrdMap.empty, NetTime.epoch⟩
  currPeerPositions := []
  recentPeerPositions := []
  prevProposers := 0
  deadNodes := []

variable (ops : TxSetOps TxSet TxID SetID)

/-! ## Disputes -/

/-- A peer whose set we have votes on a new dispute by that set. -/
def setPeerVote (acquired : List (SetID × TxSet)) (txID : TxID) (dtx : DisputedTx TxID NodeID)
    (pit : NodeID × Proposal NodeID LedgerID SetID) : DisputedTx TxID NodeID :=
  match acquired.lookup pit.2.position with
  | some cit => dtx.setVote pit.1 (ops.exists cit txID)
  | none => dtx

/-- The dispute on a transaction newly found to differ: our vote is whether our set has it, and each
peer whose set we have votes whether that set has it. -/
def newDispute (acquired : List (SetID × TxSet)) (peers : List (NodeID × Proposal NodeID LedgerID SetID))
    (set : TxSet) (txID : TxID) : DisputedTx TxID NodeID :=
  peers.foldl (setPeerVote ops acquired txID) (DisputedTx.new txID (ops.exists set txID))

/-- A difference found by `compare` becomes a dispute, unless it is one already. -/
def addDispute (acquired : List (SetID × TxSet)) (peers : List (NodeID × Proposal NodeID LedgerID SetID)) (set : TxSet)
    (disputes : List (TxID × DisputedTx TxID NodeID)) (id : TxID × Bool) : List (TxID × DisputedTx TxID NodeID) :=
  if (disputes.lookup id.1).isSome then disputes
  else (AssocList.emplace disputes id.1 (newDispute ops acquired peers set id.1)).2

/-- `createDisputes`: against a set not compared yet, a dispute for each transaction on which it
differs from ours and that has none. -/
def createDisputes (acquired : List (SetID × TxSet)) (peers : List (NodeID × Proposal NodeID LedgerID SetID))
    (o : TxSet) (r : Result NodeID LedgerID SetID TxID TxSet) : Result NodeID LedgerID SetID TxID TxSet :=
  if ops.id o ∈ r.compares then r
  else
    let r := { r with compares := r.compares ++ [ops.id o] }
    if ops.id r.set = ops.id o then r
    else { r with disputes := (ops.compare r.set o).foldl (addDispute ops acquired peers r.set) r.disputes }

/-- `updateDisputes`: a peer took the position `other`; compare it if it is new, and set the peer's
vote on every dispute. -/
def updateDisputes (acquired : List (SetID × TxSet)) (peers : List (NodeID × Proposal NodeID LedgerID SetID))
    (node : NodeID) (other : TxSet) (r : Result NodeID LedgerID SetID TxID TxSet) :
    Result NodeID LedgerID SetID TxID TxSet :=
  let r := if ops.id other ∈ r.compares then r else createDisputes ops acquired peers other r
  { r with disputes := AssocList.mapVals (fun _ d => d.setVote node (ops.exists other d.tx)) r.disputes }

/-- A peer's votes taken back from every dispute. -/
def unVoteAll (peer : NodeID) (r : Result NodeID LedgerID SetID TxID TxSet) : Result NodeID LedgerID SetID TxID TxSet :=
  { r with disputes := AssocList.mapVals (fun _ d => d.unVote peer) r.disputes }

/-- The loop of `gotTxSet` and `updateOurPositions`: every peer proposing `id` votes by `set`. -/
def updatePeersOn (acquired : List (SetID × TxSet)) (peers : List (NodeID × Proposal NodeID LedgerID SetID))
    (id : SetID) (set : TxSet) (r : Result NodeID LedgerID SetID TxID TxSet) : Result NodeID LedgerID SetID TxID TxSet :=
  peers.foldl (fun r it => if it.2.position = id then updateDisputes ops acquired peers it.1 set r else r) r

/-! ## Transaction sets and proposals -/

/-- `gotTxSet`. -/
def gotTxSet (now : NetTime) (txSet : TxSet) (s : Consensus NodeID LedgerID SetID TxID TxSet) :
    Consensus NodeID LedgerID SetID TxID TxSet :=
  if s.phase = .accepted then s
  else
    let s := { s with now := now }
    let id := ops.id txSet
    let e := AssocList.emplace s.acquired id txSet
    -- a set already processed
    if !e.1 then s
    else
      let s := { s with acquired := e.2 }
      match s.result with
      | none => s
      | some r => { s with result := some (updatePeersOn ops s.acquired s.currPeerPositions id txSet r) }

/-- The end of `peerProposalInternal`: the peer's new position is compared now if we have its set,
or once the set is acquired. -/
def takePosition (a : Adaptor NodeID LedgerID SetID TxSet) (peerID : NodeID) (newPeerPos : Proposal NodeID LedgerID SetID)
    (s : Consensus NodeID LedgerID SetID TxID TxSet) : Consensus NodeID LedgerID SetID TxID TxSet :=
  match s.acquired.lookup newPeerPos.position with
  | none =>
    match a.acquireTxSet newPeerPos.position with
    | some set => gotTxSet ops s.now set s
    | none => s
  | some set => { s with result := s.result.map (updateDisputes ops s.acquired s.currPeerPositions peerID set) }

/-- `peerProposalInternal`: whether the position was taken, and the state. -/
def peerProposalInternal (a : Adaptor NodeID LedgerID SetID TxSet) (now : NetTime)
    (newPeerPos : Proposal NodeID LedgerID SetID) (s : Consensus NodeID LedgerID SetID TxID TxSet) :
    Bool × Consensus NodeID LedgerID SetID TxID TxSet :=
  if s.phase = .accepted then (false, s)
  else
    let s := { s with now := now }
    let peerID := newPeerPos.nodeID
    if newPeerPos.prevLedger ≠ s.prevLedgerID then (false, s)
    else if peerID ∈ s.deadNodes then (false, s)
    else
      let peerPos := s.currPeerPositions.lookup peerID
      -- an older proposal than the one we hold
      if (peerPos.map fun p => decide (newPeerPos.proposeSeq ≤ p.proposeSeq)).getD false then (false, s)
      else if newPeerPos.isBowOut then
        (true, { s with
          result := s.result.map (unVoteAll peerID),
          currPeerPositions := if peerPos.isSome then AssocList.erase s.currPeerPositions peerID else s.currPeerPositions,
          deadNodes := if peerID ∈ s.deadNodes then s.deadNodes else s.deadNodes ++ [peerID] })
      else
        let s := { s with currPeerPositions := AssocList.assign s.currPeerPositions peerID newPeerPos }
        let s := if newPeerPos.isInitial then
            { s with rawCloseTimes := { s.rawCloseTimes with
                peers := Ripple.Consensus.addVote s.rawCloseTimes.peers newPeerPos.closeTime } }
          else s
        (true, takePosition ops a peerID newPeerPos s)

/-- `peerProposal`: the position is kept among the last ten of its peer, then processed. -/
def peerProposal (a : Adaptor NodeID LedgerID SetID TxSet) (now : NetTime) (newPeerPos : Proposal NodeID LedgerID SetID)
    (s : Consensus NodeID LedgerID SetID TxID TxSet) : Bool × Consensus NodeID LedgerID SetID TxID TxSet :=
  let peerID := newPeerPos.nodeID
  let props := (s.recentPeerPositions.lookup peerID).getD []
  let props := (if props.length ≥ 10 then props.tail else props) ++ [newPeerPos]
  peerProposalInternal ops a now newPeerPos
    { s with recentPeerPositions := AssocList.assign s.recentPeerPositions peerID props }

/-- `playbackProposals`: the recent positions on our prior ledger, processed again. -/
def playbackProposals (a : Adaptor NodeID LedgerID SetID TxSet) (s : Consensus NodeID LedgerID SetID TxID TxSet) :
    Consensus NodeID LedgerID SetID TxID TxSet :=
  s.recentPeerPositions.foldl (fun s it =>
      it.2.foldl (fun s pos => if pos.prevLedger = s.prevLedgerID then (peerProposalInternal ops a s.now pos s).2 else s) s)
    s

/-! ## Closing and updating our position -/

/-- The loop of `closeLedger`: the disputes with a peer whose set we have. -/
def disputePeer (acquired : List (SetID × TxSet)) (peers : List (NodeID × Proposal NodeID LedgerID SetID))
    (r : Result NodeID LedgerID SetID TxID TxSet) (pit : NodeID × Proposal NodeID LedgerID SetID) :
    Result NodeID LedgerID SetID TxID TxSet :=
  match acquired.lookup pit.2.position with
  | some o => createDisputes ops acquired peers o r
  | none => r

/-- `closeLedger`: our initial position, shared in `acquired_`, and the disputes with every peer
whose set we have. -/
def closeLedger (a : Adaptor NodeID LedgerID SetID TxSet) (s : Consensus NodeID LedgerID SetID TxID TxSet) :
    Consensus NodeID LedgerID SetID TxID TxSet :=
  let s := { s with phase := .establish, rawCloseTimes := { s.rawCloseTimes with self := s.now } }
  let initial := a.onClose s.previousLedger s.now s.mode
  let r : Result NodeID LedgerID SetID TxID TxSet :=
    ⟨initial.1, initial.2, [], [], ConsensusTimer.reset a.clockNow, .No, 0⟩
  let s := { s with acquired := (AssocList.emplace s.acquired (ops.id r.set) r.set).2 }
  { s with result := some (s.currPeerPositions.foldl (disputePeer ops s.acquired s.currPeerPositions) r) }

/-- The body of `updateOurPositions`'s loop over the disputes: the dispute revotes, and a changed vote
adds the transaction to, or removes it from, the copy of our set (made from `set` when first needed). -/
def revote (percentTime : Int) (proposing : Bool) (parms : ConsensusParms) (set : TxSet)
    (acc : List (TxID × DisputedTx TxID NodeID) × Option TxSet) (it : TxID × DisputedTx TxID NodeID) :
    List (TxID × DisputedTx TxID NodeID) × Option TxSet :=
  let u := it.2.updateVote percentTime proposing parms
  (acc.1 ++ [(it.1, u.2)],
    if u.1 then some (if u.2.ourVote then ops.insert (acc.2.getD set) u.2.tx else ops.erase (acc.2.getD set) it.1)
    else acc.2)

/-- The loop of `updateOurPositions` over the disputes, with the changed set if a vote changed. -/
def updateVotes (percentTime : Int) (proposing : Bool) (parms : ConsensusParms) (set : TxSet)
    (disputes : List (TxID × DisputedTx TxID NodeID)) : List (TxID × DisputedTx TxID NodeID) × Option TxSet :=
  disputes.foldl (revote ops percentTime proposing parms set) ([], none)

/-- What the close-time vote reads of the round; the peers are numbered by their place. -/
def closeTimeView (s : Consensus NodeID LedgerID SetID TxID TxSet) (r : Result NodeID LedgerID SetID TxID TxSet) :
    Ripple.Consensus where
  currPeerPositions := s.currPeerPositions.zipIdx.map fun e => (e.2, e.1.2.closeTimeView)
  position := r.position.closeTimeView
  proposing := s.mode = .proposing
  convergePercent := toSizeT s.convergePercent
  now := s.now
  closeResolution := s.closeResolution
  previousCloseTime := s.previousLedger.closeTime

/-- `updateOurPositions`: stale peers are dropped with their votes, the disputes revote, the close
time is voted on (`Ripple.Consensus.updateOurPositions`), and a changed set or close time, or a stale
position of ours, becomes our new position. -/
def updateOurPositions (a : Adaptor NodeID LedgerID SetID TxSet) (s : Consensus NodeID LedgerID SetID TxID TxSet) :
    Consensus NodeID LedgerID SetID TxID TxSet :=
  match s.result with
  | none => s
  | some r =>
    let parms := a.parms
    let peerCutoff := s.now.subSeconds parms.proposeFRESHNESS
    let ourCutoff := s.now.subSeconds parms.proposeINTERVAL
    let kept := s.currPeerPositions.filter fun it => !it.2.isStale peerCutoff
    let r := (s.currPeerPositions.filter fun it => it.2.isStale peerCutoff).foldl (fun r it => unVoteAll it.1 r) r
    let votes := updateVotes ops s.convergePercent (s.mode = .proposing) parms.toConsensusParms r.set r.disputes
    let r := { r with disputes := votes.1 }
    let closeTimes := Ripple.Consensus.updateOurPositions parms.toConsensusParms (closeTimeView s r)
    let consensusCloseTime := closeTimes.2.1
    let ourNewSet :=
      if votes.2.isNone && (consensusCloseTime ≠
          Ripple.Consensus.asCloseTime parms.toConsensusParms (closeTimeView s r) r.position.closeTime ||
          r.position.isStale ourCutoff) then some r.set
      else votes.2
    let s := { s with currPeerPositions := kept, haveCloseTimeConsensus := closeTimes.2.2 }
    match ourNewSet with
    | none => { s with result := some r }
    | some newSet =>
      let newID := ops.id newSet
      let r := { r with set := newSet, position := r.position.changePosition newID consensusCloseTime s.now }
      let e := AssocList.emplace s.acquired newID newSet
      let s := { s with acquired := e.2 }
      if e.1 then { s with result := some (updatePeersOn ops s.acquired kept newID newSet r) }
      else { s with result := some r }

/-- `haveConsensus`: whether the peers agreeing with our position make a consensus, recorded in the
result's state. -/
def haveConsensus (a : Adaptor NodeID LedgerID SetID TxSet) (s : Consensus NodeID LedgerID SetID TxID TxSet) :
    Bool × Consensus NodeID LedgerID SetID TxID TxSet :=
  match s.result with
  | none => (false, s)
  | some r =>
    let agree := (s.currPeerPositions.filter fun it => it.2.position = r.position.position).length
    let disagree := (s.currPeerPositions.filter fun it => it.2.position ≠ r.position.position).length
    let state := checkConsensus a.parms s.prevProposers (agree + disagree) agree (a.proposersFinished s.prevLedgerID)
      s.prevRoundTime r.roundTime.dur (s.mode = .proposing)
    (state ≠ .No, { s with result := some { r with state := state } })

/-- `leaveConsensus`: a proposing node bows out and only observes. -/
def leaveConsensus (s : Consensus NodeID LedgerID SetID TxID TxSet) : Consensus NodeID LedgerID SetID TxID TxSet :=
  if s.mode = .proposing then
    { s with
      result := s.result.map fun r => if !r.position.isBowOut then { r with position := r.position.bowOut s.now } else r,
      mode := .observing }
  else s

/-! ## Phases -/

/-- `phaseOpen`: close the ledger when `shouldCloseLedger` says so. -/
def phaseOpen (a : Adaptor NodeID LedgerID SetID TxSet) (s : Consensus NodeID LedgerID SetID TxID TxSet) :
    Consensus NodeID LedgerID SetID TxID TxSet :=
  let proposersClosed := s.currPeerPositions.length
  let proposersValidated := a.proposersValidated s.prevLedgerID
  let s := { s with openTime := s.openTime.tick a.clockNow }
  let previousCloseCorrect := s.mode ≠ .wrongLedger && s.previousLedger.closeAgree &&
    s.previousLedger.closeTime ≠ ⟨s.previousLedger.parentCloseTime.ticks + 1⟩
  let lastCloseTime := if previousCloseCorrect then s.previousLedger.closeTime else s.prevCloseTime
  let sinceClose : Int :=
    if lastCloseTime ≤ s.now then ((s.now.ticks - lastCloseTime.ticks).toNat : Int) * 1000
    else -(((lastCloseTime.ticks - s.now.ticks).toNat : Int) * 1000)
  let idleInterval := max a.parms.ledgerIDLE_INTERVAL (((2 * s.previousLedger.closeTimeResolution).toNat : Int) * 1000)
  if shouldCloseLedger a.parms a.hasOpenTransactions s.prevProposers proposersClosed proposersValidated
      s.prevRoundTime sinceClose s.openTime.dur idleInterval then closeLedger ops a s
  else s

/-- `phaseEstablish`: once the round has gone the minimum time, update our position, and accept when
there is consensus on the transactions and on the close time. -/
def phaseEstablish (a : Adaptor NodeID LedgerID SetID TxSet) (s : Consensus NodeID LedgerID SetID TxID TxSet) :
    Consensus NodeID LedgerID SetID TxID TxSet :=
  match s.result with
  | none => s
  | some r =>
    let r := { r with roundTime := r.roundTime.tick a.clockNow, proposers := s.currPeerPositions.length }
    let s := { s with
      result := some r,
      convergePercent := (r.roundTime.dur * 100).tdiv (max s.prevRoundTime a.parms.avMIN_CONSENSUS_TIME) }
    if r.roundTime.dur < a.parms.ledgerMIN_CONSENSUS then s
    else
      let c := haveConsensus a (updateOurPositions ops a s)
      let s := c.2
      if !c.1 then s
      else if !s.haveCloseTimeConsensus then s
      else
        { s with
          prevProposers := s.currPeerPositions.length,
          prevRoundTime := (s.result.map fun r => r.roundTime.dur).getD s.prevRoundTime,
          phase := .accepted }

/-- `startRoundInternal`, with the timer it may run at once. -/
def startRoundInternal (timer : Consensus NodeID LedgerID SetID TxID TxSet → Consensus NodeID LedgerID SetID TxID TxSet)
    (a : Adaptor NodeID LedgerID SetID TxSet) (now : NetTime) (prevLedgerID : LedgerID) (prevLedger : Ledger LedgerID)
    (mode : ConsensusMode) (s : Consensus NodeID LedgerID SetID TxID TxSet) : Consensus NodeID LedgerID SetID TxID TxSet :=
  let s := { s with
    phase := .open, mode := mode, now := now, prevLedgerID := prevLedgerID, previousLedger := prevLedger,
    result := none, convergePercent := 0, haveCloseTimeConsensus := false,
    openTime := ConsensusTimer.reset a.clockNow, currPeerPositions := [], acquired := [],
    rawCloseTimes := ⟨OrdMap.empty, NetTime.epoch⟩, deadNodes := [],
    closeResolution := getNextLedgerTimeResolution prevLedger.closeTimeResolution prevLedger.closeAgree (prevLedger.seq + 1) }
  let s := playbackProposals ops a s
  -- we may be falling behind: do not wait for the timer
  if s.currPeerPositions.length > s.prevProposers / 2 then timer s else s

/-- `handleWrongLedger`: leave consensus, start over on the ledger the network is on, and switch to it
once we have it. -/
def handleWrongLedger (timer : Consensus NodeID LedgerID SetID TxID TxSet → Consensus NodeID LedgerID SetID TxID TxSet)
    (a : Adaptor NodeID LedgerID SetID TxSet) (lgrId : LedgerID) (s : Consensus NodeID LedgerID SetID TxID TxSet) :
    Consensus NodeID LedgerID SetID TxID TxSet :=
  let s := leaveConsensus s
  let s := if s.prevLedgerID ≠ lgrId then
      playbackProposals ops a { s with
        prevLedgerID := lgrId,
        result := s.result.map fun r => { r with disputes := [], compares := [] },
        currPeerPositions := [],
        rawCloseTimes := { s.rawCloseTimes with peers := OrdMap.empty },
        deadNodes := [] }
    else s
  if s.previousLedger.id = s.prevLedgerID then s
  else
    match a.acquireLedger s.prevLedgerID with
    | some newLedger => startRoundInternal ops timer a s.now lgrId newLedger .switchedLedger s
    | none => { s with mode := .wrongLedger }

/-- `checkLedger`: are we on the ledger the network is on? -/
def checkLedger (timer : Consensus NodeID LedgerID SetID TxID TxSet → Consensus NodeID LedgerID SetID TxID TxSet)
    (a : Adaptor NodeID LedgerID SetID TxSet) (s : Consensus NodeID LedgerID SetID TxID TxSet) :
    Consensus NodeID LedgerID SetID TxID TxSet :=
  let netLgr := a.getPrevLedger s.prevLedgerID s.previousLedger s.mode
  if netLgr ≠ s.prevLedgerID then handleWrongLedger ops timer a netLgr s
  else if s.previousLedger.id ≠ s.prevLedgerID then handleWrongLedger ops timer a netLgr s
  else s

/-- `timerEntry`, with the number of nested calls it may make. -/
def timerEntry (a : Adaptor NodeID LedgerID SetID TxSet) (now : NetTime) :
    Nat → Consensus NodeID LedgerID SetID TxID TxSet → Consensus NodeID LedgerID SetID TxID TxSet
  | 0, s => s
  | fuel + 1, s =>
    if s.phase = .accepted then s
    else
      let s := checkLedger ops (fun s => timerEntry a s.now fuel s) a { s with now := now }
      match s.phase with
      | .open => phaseOpen ops a s
      | .establish => phaseEstablish ops a s
      | .accepted => s

/-- `startRound`. -/
def startRound (a : Adaptor NodeID LedgerID SetID TxSet) (fuel : Nat) (now : NetTime) (prevLedgerID : LedgerID)
    (prevLedger : Ledger LedgerID) (proposing : Bool) (s : Consensus NodeID LedgerID SetID TxID TxSet) :
    Consensus NodeID LedgerID SetID TxID TxSet :=
  let s := if s.firstRound then
      { s with prevRoundTime := a.parms.ledgerIDLE_INTERVAL, prevCloseTime := prevLedger.closeTime, firstRound := false }
    else { s with prevCloseTime := s.rawCloseTimes.self }
  let startMode : ConsensusMode := if proposing then .proposing else .observing
  -- handed the wrong ledger: try to acquire the right one
  let start : Ledger LedgerID × ConsensusMode :=
    if prevLedger.id ≠ prevLedgerID then
      match a.acquireLedger prevLedgerID with
      | some newLedger => (newLedger, startMode)
      | none => (prevLedger, .wrongLedger)
    else (prevLedger, startMode)
  startRoundInternal ops (fun s => timerEntry ops a s.now fuel s) a now prevLedgerID start.1 start.2 s

/-- `simulate`: close now and accept after the given delay. -/
def simulate (a : Adaptor NodeID LedgerID SetID TxSet) (now : NetTime) (consensusDelay : Option Int)
    (s : Consensus NodeID LedgerID SetID TxID TxSet) : Consensus NodeID LedgerID SetID TxID TxSet :=
  let s := closeLedger ops a { s with now := now }
  match s.result with
  | none => s
  | some r =>
    let r := { r with roundTime := r.roundTime.tickBy (consensusDelay.getD 100), proposers := s.currPeerPositions.length }
    { s with result := some r, prevProposers := s.currPeerPositions.length, prevRoundTime := r.roundTime.dur,
             phase := .accepted }

/-! ## Runs -/

/-- A call into the round. -/
inductive Event (NodeID LedgerID SetID TxSet : Type)
  | startRound (now : NetTime) (prevLedgerID : LedgerID) (prevLedger : Ledger LedgerID) (proposing : Bool)
  | peerProposal (now : NetTime) (newPeerPos : Proposal NodeID LedgerID SetID)
  | gotTxSet (now : NetTime) (txSet : TxSet)
  | timerEntry (now : NetTime)
  | simulate (now : NetTime) (consensusDelay : Option Int)

/-- One call, with the adaptor as it answers during it. -/
def step (fuel : Nat) (a : Adaptor NodeID LedgerID SetID TxSet) :
    Event NodeID LedgerID SetID TxSet → Consensus NodeID LedgerID SetID TxID TxSet → Consensus NodeID LedgerID SetID TxID TxSet
  | .startRound now prevLedgerID prevLedger proposing, s => startRound ops a fuel now prevLedgerID prevLedger proposing s
  | .peerProposal now newPeerPos, s => (peerProposal ops a now newPeerPos s).2
  | .gotTxSet now txSet, s => gotTxSet ops now txSet s
  | .timerEntry now, s => timerEntry ops a now fuel s
  | .simulate now consensusDelay, s => simulate ops a now consensusDelay s

/-- A run of calls. -/
def run (fuel : Nat) : List (Adaptor NodeID LedgerID SetID TxSet × Event NodeID LedgerID SetID TxSet) →
    Consensus NodeID LedgerID SetID TxID TxSet → Consensus NodeID LedgerID SetID TxID TxSet
  | [], s => s
  | e :: es, s => run fuel es (step ops fuel e.1 e.2 s)

end Round

end Ripple
