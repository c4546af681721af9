import ChainSqld.Consensus.RoundDisputes

/-!
# The round's invariant over whole runs

- `InvExcept E`: the sets acquired are keyed by their IDs, the peers are distinct, and a result's
  disputes agree with the peers (`DisputesAgree`), except for the peers in `E`; `Inv` is `InvExcept`
  with no exception;
- every handler keeps `Inv`: `gotTxSet_inv`, `peerProposalInternal_inv`, `playbackProposals_inv`,
  `closeLedger_inv`, `updateOurPositions_inv`, `phaseEstablish_inv`, `startRoundInternal_inv`,
  `handleWrongLedger_inv`, `timerEntry_inv` (by induction on the nested calls), `startRound_inv`,
  `simulate_inv`;
- so does every run of calls from any state that has it (`run_inv`), the constructor's in particular.
-/

set_option autoImplicit false
set_option linter.unusedSectionVars false

namespace Ripple

namespace Round

variable {NodeID LedgerID SetID TxID TxSet : Type} [DecidableEq NodeID] [DecidableEq LedgerID] [DecidableEq SetID]
  [DecidableEq TxID]

variable (ops : TxSetOps TxSet TxID SetID)

/-- The invariant of a round, but for the peers in `E`, which may still hold old votes and propose a set
not compared yet. -/
structure InvExcept (E : NodeID → Prop) (s : Consensus NodeID LedgerID SetID TxID TxSet) : Prop where
  acquiredIds : ∀ k o, s.acquired.lookup k = some o → ops.id o = k
  peersNodup : (AssocList.keys s.currPeerPositions).Nodup
  agree : ∀ r, s.result = some r → DisputesAgree ops s.acquired s.currPeerPositions E E r

/-- The invariant of a round. -/
abbrev Inv (s : Consensus NodeID LedgerID SetID TxID TxSet) : Prop := InvExcept ops (fun _ => False) s

variable {ops} {E : NodeID → Prop} {s : Consensus NodeID LedgerID SetID TxID TxSet}

/-! ## Framing -/

theorem InvExcept.of_eq (h : InvExcept ops E s) {s' : Consensus NodeID LedgerID SetID TxID TxSet}
    (ha : s'.acquired = s.acquired) (hp : s'.currPeerPositions = s.currPeerPositions) (hr : s'.result = s.result) :
    InvExcept ops E s' where
  acquiredIds := ha ▸ h.acquiredIds
  peersNodup := hp ▸ h.peersNodup
  agree r hr' := ha ▸ hp ▸ h.agree r (hr ▸ hr')

theorem acquiredIds_emplace {acquired : List (SetID × TxSet)} (h : ∀ k o, acquired.lookup k = some o → ops.id o = k)
    (o : TxSet) : ∀ k o', (AssocList.emplace acquired (ops.id o) o).2.lookup k = some o' → ops.id o' = k := by
  intro k o' hk
  rw [AssocList.lookup_emplace] at hk
  split at hk
  · exact h k o' hk
  · split at hk
    · rename_i hko
      rw [Option.some.injEq] at hk
      rw [← hk, hko]
    · exact h k o' hk

/-- A result with nothing compared, among no peers, agrees. -/
theorem agree_cleared {acquired : List (SetID × TxSet)} {r : Result NodeID LedgerID SetID TxID TxSet} :
    DisputesAgree ops acquired [] (fun _ => False) (fun _ => False) { r with disputes := [], compares := [] } :=
  (DisputesAgree.empty rfl rfl).mono (fun _ h => h) fun _ h => by
    rcases h with h | ⟨_, hm⟩
    · exact h
    · exact absurd hm List.not_mem_nil

/-! ## Sets and proposals -/

/-- A set arrives. The exempted peers must propose sets we do not have: those proposing this one vote
by it. -/
theorem gotTxSet_inv (hl : ops.Lawful) (h : InvExcept ops E s)
    (hE : ∀ p, E p → ∀ pos, s.currPeerPositions.lookup p = some pos → s.acquired.lookup pos.position = none)
    (now : NetTime) (txSet : TxSet) : Inv ops (gotTxSet ops now txSet s) := by
  have hfree : Inv ops s := ⟨h.acquiredIds, h.peersNodup, fun r hr => (h.agree r hr).unexemptAll hE⟩
  unfold gotTxSet
  split_ifs with hph
  · exact hfree
  · extract_lets s₁ id e
    split_ifs with he
    · exact hfree.of_eq rfl rfl rfl
    · have hnew : s.acquired.lookup (ops.id txSet) = none := by
        rw [AssocList.emplace_fst] at he
        cases hc : s.acquired.lookup (ops.id txSet) with
        | none => rfl
        | some _ =>
          rw [hc] at he
          exact absurd rfl he
      split
      · rename_i hr
        exact ⟨acquiredIds_emplace h.acquiredIds txSet, h.peersNodup, fun r hr' => absurd (hr.symm.trans hr') (by simp)⟩
      · rename_i r hr
        refine ⟨acquiredIds_emplace h.acquiredIds txSet, h.peersNodup, ?_⟩
        rintro _ ⟨⟩
        -- an exempted peer proposing this set was visited; the others still propose sets we do not have
        refine ((h.agree r hr).updatePeersOn hl h.peersNodup txSet hnew).unexemptAll fun p hp pos hpos => ?_
        rw [AssocList.lookup_emplace, hnew, if_neg (hp.2 pos hpos)]
        exact hE p hp.1 pos hpos

/-- The end of `peerProposalInternal`: the peer, exempted since its position changed, votes by its set
when we have it, and otherwise proposes a set we do not have. -/
theorem takePosition_inv (hl : ops.Lawful) (a : Adaptor NodeID LedgerID SetID TxSet) {q : NodeID}
    {pos : Proposal NodeID LedgerID SetID} (h : InvExcept ops (· = q) s) (hq : s.currPeerPositions.lookup q = some pos) :
    Inv ops (takePosition ops a q pos s) := by
  unfold takePosition
  split
  · rename_i hnone
    have hE : ∀ p, p = q → ∀ pos', s.currPeerPositions.lookup p = some pos' → s.acquired.lookup pos'.position = none := by
      rintro p rfl pos' hp
      rw [hq, Option.some.injEq] at hp
      rw [← hp]
      exact hnone
    split
    · exact gotTxSet_inv hl h hE _ _
    · exact ⟨h.acquiredIds, h.peersNodup, fun r hr => (h.agree r hr).unexemptAll hE⟩
  · rename_i set hset
    refine ⟨h.acquiredIds, h.peersNodup, fun r' hr' => ?_⟩
    obtain ⟨r, hr, rfl⟩ := Option.map_eq_some_iff.mp hr'
    exact ((h.agree r hr).updateDisputes hl h.peersNodup hq hset (h.acquiredIds _ _ hset)).mono
      (fun _ hp => hp.2 hp.1) fun _ hp => hp.2 hp.1

theorem peerProposalInternal_inv (hl : ops.Lawful) (h : Inv ops s) (a : Adaptor NodeID LedgerID SetID TxSet)
    (now : NetTime) (newPeerPos : Proposal NodeID LedgerID SetID) :
    Inv ops (peerProposalInternal ops a now newPeerPos s).2 := by
  unfold peerProposalInternal
  split
  · exact h
  · extract_lets s₁ peerID
    split
    · exact h.of_eq rfl rfl rfl
    · split
      · exact h.of_eq rfl rfl rfl
      · split
        · exact h.of_eq rfl rfl rfl
        · split
          · -- a bow-out: the peer leaves with its votes
            refine ⟨h.acquiredIds, ?_, fun r' hr' => ?_⟩
            · dsimp only
              split
              · exact AssocList.nodup_erase h.peersNodup _
              · exact h.peersNodup
            · obtain ⟨r, hr, rfl⟩ := Option.map_eq_some_iff.mp hr'
              exact (h.agree r hr).bowOut _
          · -- a new position: the peer is exempted until it votes by it
            rename_i s₂ _ s₃ _ _ _ _
            have h₂ : InvExcept ops (· = peerID) s₂ :=
              ⟨h.acquiredIds, AssocList.nodup_assign h.peersNodup _ _, fun r hr =>
                ((h.agree r hr).assign _ _).mono (fun _ hp => hp.resolve_left id) fun _ hp => hp.resolve_left id⟩
            have hq : s₂.currPeerPositions.lookup peerID = some newPeerPos := by
              show (AssocList.assign s.currPeerPositions peerID newPeerPos).lookup peerID = _
              rw [AssocList.lookup_assign, if_pos rfl]
            have h₃ : InvExcept ops (· = peerID) s₃ := by
              unfold s₃
              split
              · exact h₂.of_eq rfl rfl rfl
              · exact h₂
            exact takePosition_inv hl a h₃ (by unfold s₃; split <;> exact hq)

theorem peerProposal_inv (hl : ops.Lawful) (h : Inv ops s) (a : Adaptor NodeID LedgerID SetID TxSet)
    (now : NetTime) (newPeerPos : Proposal NodeID LedgerID SetID) : Inv ops (peerProposal ops a now newPeerPos s).2 := by
  unfold peerProposal
  extract_lets peerID props props'
  refine peerProposalInternal_inv hl ?_ a now newPeerPos
  exact h.of_eq rfl rfl rfl

theorem playbackProposals_inv (hl : ops.Lawful) (h : Inv ops s) (a : Adaptor NodeID LedgerID SetID TxSet) :
    Inv ops (playbackProposals ops a s) := by
  unfold playbackProposals
  refine List.foldlRecOn _ _ h fun s₁ h₁ it _ => List.foldlRecOn _ _ h₁ fun s₂ h₂ pos _ => ?_
  split
  · exact peerProposalInternal_inv hl h₂ a _ pos
  · exact h₂

/-! ## Closing and updating our position -/

theorem closeLedger_inv (hl : ops.Lawful) (h : Inv ops s) (a : Adaptor NodeID LedgerID SetID TxSet) :
    Inv ops (closeLedger ops a s) := by
  have hids := acquiredIds_emplace h.acquiredIds (a.onClose s.previousLedger s.now s.mode).1
  refine ⟨hids, h.peersNodup, fun r hr => ?_⟩
  rw [closeLedger, Option.some.injEq] at hr
  subst hr
  -- every peer is yet to be compared, and the loop compares those whose set we have
  exact DisputesAgree.foldl_disputePeer hl h.peersNodup hids _ _
    (fun e he => AssocList.lookup_of_mem h.peersNodup he) (DisputesAgree.empty rfl rfl)

theorem updateOurPositions_inv (hl : ops.Lawful) (h : Inv ops s) (a : Adaptor NodeID LedgerID SetID TxSet) :
    Inv ops (updateOurPositions ops a s) := by
  unfold updateOurPositions
  split
  · exact h
  · rename_i r hr
    extract_lets parms peerCutoff ourCutoff kept r' votes r'' closeTimes consensusCloseTime ourNewSet s'
    have hkept : (AssocList.keys kept).Nodup := AssocList.nodup_filter h.peersNodup _
    -- the stale peers leave with their votes, and the disputes revote
    have hagree : DisputesAgree ops s.acquired kept (fun _ => False) (fun _ => False)
        { r' with disputes := votes.1, set := votes.2.getD r'.set } :=
      ((h.agree r hr).dropStale h.peersNodup _).updateVotes _ _ _ hl
    -- our new set, if any, is the revoted copy
    have hnone : ourNewSet = none → votes.2 = none := by
      intro hn
      simp only [ourNewSet] at hn
      split at hn
      · exact absurd hn (by simp)
      · exact hn
    have hsome : ∀ x, ourNewSet = some x → x = votes.2.getD r'.set := by
      intro x hx
      simp only [ourNewSet] at hx
      split at hx
      · rename_i hc
        rw [Option.some.injEq] at hx
        rw [← hx, Option.isNone_iff_eq_none.mp (Bool.and_eq_true_iff.mp hc).1]
        rfl
      · rw [hx]
        rfl
    clear_value ourNewSet
    cases ourNewSet with
    | none =>
      refine ⟨h.acquiredIds, hkept, ?_⟩
      rintro _ ⟨⟩
      rw [hnone rfl] at hagree
      exact hagree
    | some newSet =>
      dsimp -zeta only
      extract_lets newID r₃ e s₃
      have hagree₃ : DisputesAgree ops s.acquired kept (fun _ => False) (fun _ => False) r₃ :=
        hagree.congr (hsome newSet rfl) rfl rfl
      split
      · rename_i he
        have hnew : s.acquired.lookup newID = none := by
          rw [AssocList.emplace_fst] at he
          simpa using he
        refine ⟨acquiredIds_emplace h.acquiredIds newSet, hkept, ?_⟩
        rintro _ ⟨⟩
        exact (hagree₃.updatePeersOn hl hkept newSet hnew).mono (fun _ hp => hp.1) fun _ hp => hp.1
      · -- a set we have already: nothing more to acquire
        rename_i he
        have hsame : e.2 = s.acquired := by
          rw [AssocList.emplace_fst] at he
          cases hc : (s.acquired.lookup newID).isSome with
          | false =>
            rw [hc] at he
            exact absurd rfl he
          | true =>
            show (AssocList.emplace s.acquired newID newSet).2 = s.acquired
            rw [AssocList.emplace_of_isSome hc newSet]
        have hinv : Inv ops { s with currPeerPositions := kept, result := some r₃ } :=
          ⟨h.acquiredIds, hkept, by rintro _ ⟨⟩; exact hagree₃⟩
        exact hinv.of_eq hsame rfl rfl

theorem haveConsensus_inv (h : Inv ops s) (a : Adaptor NodeID LedgerID SetID TxSet) :
    Inv ops (haveConsensus a s).2 := by
  unfold haveConsensus
  split
  · exact h
  · rename_i r hr
    refine ⟨h.acquiredIds, h.peersNodup, ?_⟩
    rintro _ ⟨⟩
    exact (h.agree r hr).congr rfl rfl rfl

theorem leaveConsensus_inv (h : Inv ops s) : Inv ops (leaveConsensus s) := by
  unfold leaveConsensus
  split
  · refine ⟨h.acquiredIds, h.peersNodup, fun r' hr' => ?_⟩
    obtain ⟨r, hr, rfl⟩ := Option.map_eq_some_iff.mp hr'
    split
    · exact (h.agree r hr).congr rfl rfl rfl
    · exact h.agree r hr
  · exact h

/-! ## Phases -/

theorem phaseOpen_inv (hl : ops.Lawful) (h : Inv ops s) (a : Adaptor NodeID LedgerID SetID TxSet) :
    Inv ops (phaseOpen ops a s) := by
  unfold phaseOpen
  extract_lets proposersClosed proposersValidated s₁
  have h₁ : Inv ops s₁ := h.of_eq rfl rfl rfl
  split
  · exact closeLedger_inv hl h₁ a
  · exact h₁

theorem phaseEstablish_inv (hl : ops.Lawful) (h : Inv ops s) (a : Adaptor NodeID LedgerID SetID TxSet) :
    Inv ops (phaseEstablish ops a s) := by
  unfold phaseEstablish
  split
  · exact h
  · rename_i r hr
    extract_lets r₁ s₁
    have h₁ : Inv ops s₁ := by
      refine ⟨h.acquiredIds, h.peersNodup, ?_⟩
      rintro _ ⟨⟩
      exact (h.agree r hr).congr rfl rfl rfl
    have h₂ := haveConsensus_inv (updateOurPositions_inv hl h₁ a) a
    split
    · exact h₁
    · split
      · exact h₂
      · split
        · exact h₂
        · exact h₂.of_eq rfl rfl rfl

/-! ## Starting a round, the timer and the ledger -/

section Timer

variable (timer : Consensus NodeID LedgerID SetID TxID TxSet → Consensus NodeID LedgerID SetID TxID TxSet)

/-- A new round starts with nothing acquired and no peers: whatever the timer may do at once, as
long as it keeps the invariant. -/
theorem startRoundInternal_inv (hl : ops.Lawful) (ht : ∀ s, Inv ops s → Inv ops (timer s))
    (a : Adaptor NodeID LedgerID SetID TxSet) (now : NetTime) (prevLedgerID : LedgerID) (prevLedger : Ledger LedgerID)
    (mode : ConsensusMode) (s : Consensus NodeID LedgerID SetID TxID TxSet) :
    Inv ops (startRoundInternal ops timer a now prevLedgerID prevLedger mode s) := by
  unfold startRoundInternal
  extract_lets s₁ s₂
  have h₁ : Inv ops s₁ := ⟨fun k o hk => absurd hk (by simp [s₁]), List.nodup_nil, fun r hr => absurd hr (by simp [s₁])⟩
  have h₂ : Inv ops s₂ := playbackProposals_inv hl h₁ a
  split
  · exact ht s₂ h₂
  · exact h₂

theorem handleWrongLedger_inv (hl : ops.Lawful) (ht : ∀ s, Inv ops s → Inv ops (timer s))
    (h : Inv ops s) (a : Adaptor NodeID LedgerID SetID TxSet) (lgrId : LedgerID) :
    Inv ops (handleWrongLedger ops timer a lgrId s) := by
  unfold handleWrongLedger
  extract_lets s₁ src s₂
  have h₁ : Inv ops s₁ := leaveConsensus_inv h
  -- on another ledger, the peers and the comparisons are dropped
  have h₂ : Inv ops s₂ := by
    unfold s₂
    split
    · apply playbackProposals_inv hl ?_ a
      refine ⟨h₁.acquiredIds, List.nodup_nil, fun r' hr' => ?_⟩
      obtain ⟨r, -, rfl⟩ := Option.map_eq_some_iff.mp hr'
      exact agree_cleared
    · exact h₁
  split
  · exact h₂
  · split
    · exact startRoundInternal_inv timer hl ht a _ _ _ _ s₂
    · exact h₂.of_eq rfl rfl rfl

theorem checkLedger_inv (hl : ops.Lawful) (ht : ∀ s, Inv ops s → Inv ops (timer s)) (h : Inv ops s)
    (a : Adaptor NodeID LedgerID SetID TxSet) : Inv ops (checkLedger ops timer a s) := by
  unfold checkLedger
  extract_lets netLgr
  split
  · exact handleWrongLedger_inv timer hl ht h a netLgr
  · split
    · exact handleWrongLedger_inv timer hl ht h a netLgr
    · exact h

end Timer

/-- The timer keeps the invariant, by induction on the nested calls it may make. -/
theorem timerEntry_inv (hl : ops.Lawful) (a : Adaptor NodeID LedgerID SetID TxSet) (now : NetTime) :
    ∀ (fuel : Nat) (s : Consensus NodeID LedgerID SetID TxID TxSet), Inv ops s →
      Inv ops (timerEntry ops a now fuel s)
  | 0, _, h => h
  | fuel + 1, s, h => by
    rw [timerEntry]
    split
    · exact h
    · extract_lets s₁
      have h₁ : Inv ops s₁ := checkLedger_inv _ hl (fun s' h' => timerEntry_inv hl a s'.now fuel s' h')
        (show Inv ops { s with now := now } from h.of_eq rfl rfl rfl) a
      split
      · exact phaseOpen_inv hl h₁ a
      · exact phaseEstablish_inv hl h₁ a
      · exact h₁

theorem startRound_inv (hl : ops.Lawful) (a : Adaptor NodeID LedgerID SetID TxSet) (fuel : Nat) (now : NetTime)
    (prevLedgerID : LedgerID) (prevLedger : Ledger LedgerID) (proposing : Bool) :
    Inv ops (startRound ops a fuel now prevLedgerID prevLedger proposing s) := by
  unfold startRound
  exact startRoundInternal_inv _ hl (fun s' h' => timerEntry_inv hl a s'.now fuel s' h') a _ _ _ _ _

theorem simulate_inv (hl : ops.Lawful) (h : Inv ops s) (a : Adaptor NodeID LedgerID SetID TxSet) (now : NetTime)
    (consensusDelay : Option Int) : Inv ops (simulate ops a now consensusDelay s) := by
  unfold simulate
  extract_lets s₁
  have h₁ : Inv ops s₁ := closeLedger_inv hl (show Inv ops { s with now := now } from h.of_eq rfl rfl rfl) a
  split
  · exact h₁
  · rename_i r hr
    refine ⟨h₁.acquiredIds, h₁.peersNodup, ?_⟩
    rintro _ ⟨⟩
    exact (h₁.agree r hr).congr rfl rfl rfl

/-! ## Runs -/

theorem step_inv (hl : ops.Lawful) (fuel : Nat) (a : Adaptor NodeID LedgerID SetID TxSet)
    (ev : Event NodeID LedgerID SetID TxSet) (h : Inv ops s) : Inv ops (step ops fuel a ev s) := by
  cases ev with
  | startRound now prevLedgerID prevLedger proposing => exact startRound_inv hl a fuel now prevLedgerID prevLedger proposing
  | peerProposal now newPeerPos => exact peerProposal_inv hl h a now newPeerPos
  | gotTxSet now txSet => exact gotTxSet_inv hl h (fun _ hp => hp.elim) now txSet
  | timerEntry now => exact timerEntry_inv hl a now fuel s h
  | simulate now consensusDelay => exact simulate_inv hl h a now consensusDelay

/-- Every run of calls keeps the invariant. -/
theorem run_inv (hl : ops.Lawful) (fuel : Nat) :
    ∀ (es : List (Adaptor NodeID LedgerID SetID TxSet × Event NodeID LedgerID SetID TxSet))
      (s : Consensus NodeID LedgerID SetID TxID TxSet), Inv ops s → Inv ops (run ops fuel es s)
  | [], _, h => h
  | e :: es, _, h => run_inv hl fuel es _ (step_inv hl fuel e.1 e.2 h)

theorem init_inv (prevLedgerID : LedgerID) (previousLedger : Ledger LedgerID) (clockNow : Int) :
    Inv ops (Consensus.init prevLedgerID previousLedger clockNow : Consensus NodeID LedgerID SetID TxID TxSet) :=
  ⟨fun k o hk => absurd hk (by simp [Consensus.init]), List.nodup_nil,
    fun r hr => absurd hr (by simp [Consensus.init])⟩

/-! ## What the invariant says -/

variable (ops) in
/-- What a round's disputes are for: each counts the votes it holds and is keyed by its transaction; our
vote is whether our set has the transaction; only current peers vote, and a current peer whose set
we have votes whether that set has the transaction; and every transaction on which our set differs
from the set of a current peer is disputed. -/
def ResultAgrees (s : Consensus NodeID LedgerID SetID TxID TxSet) : Prop :=
  ∀ r, s.result = some r →
    (∀ t d, r.disputes.lookup t = some d →
      d.tx = t ∧ d.Tallied ∧ d.ourVote = ops.exists r.set t ∧
      (∀ p, (d.votes.lookup p).isSome → (s.currPeerPositions.lookup p).isSome) ∧
      ∀ p pos o, s.currPeerPositions.lookup p = some pos → s.acquired.lookup pos.position = some o →
        d.votes.lookup p = some (ops.exists o t)) ∧
    ∀ p pos o t, s.currPeerPositions.lookup p = some pos → s.acquired.lookup pos.position = some o →
      ops.exists r.set t ≠ ops.exists o t → (r.disputes.lookup t).isSome

theorem Inv.resultAgrees (h : Inv ops s) : ResultAgrees ops s := by
  intro r hr
  have hag := h.agree r hr
  refine ⟨fun t d hd => ?_, fun p pos o t hp ho hdiff => ?_⟩
  · have hok := hag.ok t d hd
    exact ⟨hok.keyed, hok.tallied, hok.ourVote, hok.voters, fun p pos o hp ho => hok.votes p pos o hp id ho⟩
  · -- the peer's set was compared, and the comparison disputed every difference
    have hk := hag.peersCompared p pos hp id (by rw [ho]; rfl)
    obtain ⟨o', ho', hd⟩ := hag.compared _ hk
    rw [ho, Option.some.injEq] at ho'
    exact hd t (ho' ▸ hdiff)

/-- In every state that any interleaving of calls reaches from the constructor, the round's disputes
agree with our set, the peers and the sets acquired. -/
theorem run_disputes_agree (hl : ops.Lawful) (fuel : Nat)
    (es : List (Adaptor NodeID LedgerID SetID TxSet × Event NodeID LedgerID SetID TxSet)) (prevLedgerID : LedgerID)
    (previousLedger : Ledger LedgerID) (clockNow : Int) :
    ResultAgrees ops (run ops fuel es (Consensus.init prevLedgerID previousLedger clockNow)) :=
  (run_inv hl fuel es _ (init_inv prevLedgerID previousLedger clockNow)).resultAgrees

/-- Transaction sets as lists of numbers, each its own ID. -/
def listOps : TxSetOps (List Nat) Nat (List Nat) where
  id s := s
  «exists» s t := decide (t ∈ s)
  compare a b := (a.filter fun t => decide (t ∉ b)).map (·, true) ++ (b.filter fun t => decide (t ∉ a)).map (·, false)
  insert s t := if t ∈ s then s else s ++ [t]
  erase s t := s.filter fun t' => t' != t

theorem listOps_lawful : listOps.Lawful where
  exists_insert s t t' := by
    by_cases ht : t ∈ s <;> by_cases he : t' = t <;> simp_all [listOps]
  exists_erase s t t' := by
    by_cases he : t' = t <;> simp_all [listOps]
  compare_complete a b t hne := by
    by_cases ha : t ∈ a <;> by_cases hb : t ∈ b <;> simp_all [listOps]
  exists_of_id a b hid t := by
    simp only [listOps] at hid
    rw [hid]

/-- A round on one ledger: we start proposing, a peer proposes the set {2}, and we close on {1}. -/
def sampleAdaptor : Adaptor Nat Nat (List Nat) (List Nat) where
  parms := {}
  clockNow := 0
  acquireTxSet id := some id
  acquireLedger _ := none
  getPrevLedger id _ _ := id
  onClose l now _ := ([1], ⟨l.id, [1], now, ⟨0⟩, 1, 0⟩)
  hasOpenTransactions := true
  proposersValidated _ := 1
  proposersFinished _ := 1

theorem run_disputes_agree_sample :
    ResultAgrees listOps
      (run listOps 1
        [(sampleAdaptor, .startRound ⟨0⟩ 0 ⟨0, 1, ⟨0⟩, ⟨0⟩, true, 30⟩ true),
          (sampleAdaptor, .peerProposal ⟨1⟩ ⟨0, [2], ⟨0⟩, ⟨1⟩, 0, 7⟩),
          (sampleAdaptor, .simulate ⟨2⟩ none)]
        (Consensus.init 0 ⟨0, 1, ⟨0⟩, ⟨0⟩, true, 30⟩ 0)) :=
  run_disputes_agree listOps_lawful 1 _ 0 _ 0

/-- In the sample run, closing disputes both transactions with the peer, which votes by its set. -/
example :
    ((run listOps 1
        [(sampleAdaptor, .startRound ⟨0⟩ 0 ⟨0, 1, ⟨0⟩, ⟨0⟩, true, 30⟩ true),
          (sampleAdaptor, .peerProposal ⟨1⟩ ⟨0, [2], ⟨0⟩, ⟨1⟩, 0, 7⟩),
          (sampleAdaptor, .simulate ⟨2⟩ none)]
        (Consensus.init 0 ⟨0, 1, ⟨0⟩, ⟨0⟩, true, 30⟩ 0)).result.map
      fun r => r.disputes.map fun e => (e.1, e.2.ourVote, e.2.votes)) =
      some [(1, true, [(7, false)]), (2, false, [(7, true)])] := by
  decide

end Round

end Ripple
