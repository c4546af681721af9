import ChainSqld.Consensus.RoundInvariant

/-!
# The phases of a round

`Consensus.h` asserts that a round has a result whenever it establishes (`phaseEstablish`,
`updateOurPositions`), ignores the positions of a peer that bowed out, and accepts a round only with
consensus on the transactions and on the close time. Over whole runs of calls:

- `Frame s s'`: a handler that neither opens, closes nor accepts a round keeps the phase, whether
  there is a result, and that no dead peer holds a position; `gotTxSet`, `takePosition`,
  `peerProposalInternal`, `playbackProposals`, `updateOurPositions`, `haveConsensus` and
  `leaveConsensus` are frames;
- `Shape`: no result while open, one while establishing, no dead peer among the positions; every
  run keeps it (`run_shape`), and with `Inv` a dead peer has no vote either;
- `AcceptedOK`: an accepted round's result is in consensus, and so is its close time; every run
  without `simulate`, which forces the acceptance, keeps it (`run_acceptedOK`).
-/

set_option autoImplicit false
set_option linter.unusedSectionVars false

namespace Ripple

namespace Round

variable {NodeID LedgerID SetID TxID TxSet : Type} [DecidableEq NodeID] {s : Consensus NodeID LedgerID SetID TxID TxSet}

/-- No dead peer holds a position. -/
def DeadGone (s : Consensus NodeID LedgerID SetID TxID TxSet) : Prop :=
  ∀ p ∈ s.deadNodes, s.currPeerPositions.lookup p = none

/-- What a handler that neither opens, closes nor accepts a round keeps. -/
structure Frame (s s' : Consensus NodeID LedgerID SetID TxID TxSet) : Prop where
  phase : s'.phase = s.phase
  hasResult : s'.result.isSome = s.result.isSome
  deadGone : DeadGone s → DeadGone s'

theorem Frame.refl (s : Consensus NodeID LedgerID SetID TxID TxSet) : Frame s s := ⟨rfl, rfl, id⟩

theorem Frame.trans {s₁ s₂ s₃ : Consensus NodeID LedgerID SetID TxID TxSet} (h₁ : Frame s₁ s₂) (h₂ : Frame s₂ s₃) :
    Frame s₁ s₃ :=
  ⟨h₂.phase.trans h₁.phase, h₂.hasResult.trans h₁.hasResult, fun h => h₂.deadGone (h₁.deadGone h)⟩

/-- A handler that keeps the phase, whether there is a result and the dead peers, and may drop peers. -/
theorem Frame.of_sublist {s' : Consensus NodeID LedgerID SetID TxID TxSet} (hp : s'.phase = s.phase)
    (hr : s'.result.isSome = s.result.isSome) (hd : s'.deadNodes = s.deadNodes)
    (hs : s'.currPeerPositions.Sublist s.currPeerPositions) : Frame s s' :=
  ⟨hp, hr, fun h p hp' => AssocList.lookup_eq_none_of_sublist hs (h p (hd ▸ hp'))⟩

/-- No result while open, one while establishing, and no dead peer among the positions. -/
structure Shape (s : Consensus NodeID LedgerID SetID TxID TxSet) : Prop where
  openNoResult : s.phase = .open → s.result = none
  establishResult : s.phase = .establish → s.result.isSome
  deadGone : DeadGone s

theorem Frame.shape {s' : Consensus NodeID LedgerID SetID TxID TxSet} (hF : Frame s s') (h : Shape s) : Shape s' where
  openNoResult hp := by
    rw [← Option.not_isSome_iff_eq_none, hF.hasResult, Option.not_isSome_iff_eq_none]
    exact h.openNoResult (hF.phase ▸ hp)
  establishResult hp := hF.hasResult ▸ h.establishResult (hF.phase ▸ hp)
  deadGone := hF.deadGone h.deadGone

theorem Shape.of_eq (h : Shape s) {s' : Consensus NodeID LedgerID SetID TxID TxSet} (hp : s'.phase = s.phase)
    (hr : s'.result = s.result) (hd : s'.deadNodes = s.deadNodes) (hc : s'.currPeerPositions = s.currPeerPositions) :
    Shape s' :=
  (Frame.of_sublist hp (by rw [hr]) hd (hc ▸ .refl _)).shape h

theorem Shape.of_accepted (hp : s.phase = .accepted) (hd : DeadGone s) : Shape s :=
  ⟨fun h => absurd (hp.symm.trans h) (by decide), fun h => absurd (hp.symm.trans h) (by decide), hd⟩

/-- An accepted round's result is in consensus (reached, or the network moved on), and so is its
close time. -/
def AcceptedOK (s : Consensus NodeID LedgerID SetID TxID TxSet) : Prop :=
  s.phase = .accepted → ∀ r, s.result = some r → r.state ≠ .No ∧ s.haveCloseTimeConsensus = true

/-- The calls a node makes on its own; `simulate` forces a close and an acceptance. -/
def Event.isSimulate : Event NodeID LedgerID SetID TxSet → Bool
  | .simulate _ _ => true
  | _ => false

theorem AcceptedOK.of_phase_ne (h : s.phase ≠ .accepted) : AcceptedOK s := fun hp => absurd hp h

/-- A handler that keeps the phase, and keeps an accepted round's result and close-time consensus. -/
theorem AcceptedOK.keep (h : AcceptedOK s) {s' : Consensus NodeID LedgerID SetID TxID TxSet} (hp : s'.phase = s.phase)
    (hacc : s.phase = .accepted → s'.result = s.result ∧ s'.haveCloseTimeConsensus = s.haveCloseTimeConsensus) :
    AcceptedOK s' := by
  intro hs' r hr
  have hs : s.phase = .accepted := hp ▸ hs'
  obtain ⟨hres, hflag⟩ := hacc hs
  rw [hflag]
  exact h hs r (hres ▸ hr)

variable [DecidableEq LedgerID] [DecidableEq SetID] [DecidableEq TxID] {ops : TxSetOps TxSet TxID SetID}

/-! ## The handlers that are frames -/

theorem gotTxSet_frame (now : NetTime) (txSet : TxSet) (s : Consensus NodeID LedgerID SetID TxID TxSet) :
    Frame s (gotTxSet ops now txSet s) := by
  unfold gotTxSet
  split_ifs with hph
  · exact Frame.refl s
  · extract_lets s₁ id e
    split_ifs with he
    · exact Frame.of_sublist rfl rfl rfl (.refl _)
    · split
      · exact Frame.of_sublist rfl rfl rfl (.refl _)
      · rename_i r hr
        have hr' : s.result = some r := hr
        exact Frame.of_sublist rfl (by simp [hr']) rfl (.refl _)

theorem takePosition_frame (a : Adaptor NodeID LedgerID SetID TxSet) (peerID : NodeID)
    (newPeerPos : Proposal NodeID LedgerID SetID) (s : Consensus NodeID LedgerID SetID TxID TxSet) :
    Frame s (takePosition ops a peerID newPeerPos s) := by
  unfold takePosition
  split
  · split
    · exact gotTxSet_frame _ _ s
    · exact Frame.refl s
  · exact Frame.of_sublist rfl Option.isSome_map rfl (.refl _)

/-- A peer's proposal: a bow-out makes the peer dead and drops its position; a new position is only
taken from a live peer. -/
theorem peerProposalInternal_frame (a : Adaptor NodeID LedgerID SetID TxSet) (now : NetTime)
    (newPeerPos : Proposal NodeID LedgerID SetID) (s : Consensus NodeID LedgerID SetID TxID TxSet) :
    Frame s (peerProposalInternal ops a now newPeerPos s).2 := by
  unfold peerProposalInternal
  split
  · exact Frame.refl s
  · extract_lets s₁ peerID
    split
    · exact Frame.of_sublist rfl rfl rfl (.refl _)
    · split
      · exact Frame.of_sublist rfl rfl rfl (.refl _)
      · rename_i hlive
        split
        · exact Frame.of_sublist rfl rfl rfl (.refl _)
        · split
          · refine ⟨rfl, Option.isSome_map, fun h p hp => ?_⟩
            dsimp only at hp ⊢
            rw [List.mem_append, List.mem_singleton] at hp
            split
            · rw [AssocList.lookup_erase]
              split
              · rfl
              · exact h p (hp.resolve_right ‹_›)
            · rcases hp with hp | rfl
              · exact h p hp
              · exact Option.not_isSome_iff_eq_none.mp ‹_›
          · rename_i s₂ _ s₃ _ _ _
            -- the dead peers are not the one whose position is taken
            have h₂ : Frame s s₂ := ⟨rfl, rfl, fun h p hp => by
              show (AssocList.assign s.currPeerPositions peerID newPeerPos).lookup p = none
              rw [AssocList.lookup_assign, if_neg (fun (e : p = peerID) => hlive (e ▸ hp))]
              exact h p hp⟩
            have h₃ : Frame s₂ s₃ := by
              unfold s₃
              split
              · exact Frame.of_sublist rfl rfl rfl (.refl _)
              · exact Frame.refl s₂
            exact h₂.trans (h₃.trans (takePosition_frame a peerID newPeerPos s₃))

theorem peerProposal_frame (a : Adaptor NodeID LedgerID SetID TxSet) (now : NetTime)
    (newPeerPos : Proposal NodeID LedgerID SetID) (s : Consensus NodeID LedgerID SetID TxID TxSet) :
    Frame s (peerProposal ops a now newPeerPos s).2 := by
  unfold peerProposal
  extract_lets peerID props props'
  have h₁ : Frame s { s with recentPeerPositions := AssocList.assign s.recentPeerPositions peerID props' } :=
    Frame.of_sublist rfl rfl rfl (.refl _)
  exact h₁.trans (peerProposalInternal_frame a now newPeerPos _)

theorem playbackProposals_frame (a : Adaptor NodeID LedgerID SetID TxSet) (s : Consensus NodeID LedgerID SetID TxID TxSet) :
    Frame s (playbackProposals ops a s) := by
  unfold playbackProposals
  refine List.foldlRecOn _ _ (Frame.refl s) fun s₁ h₁ it _ => List.foldlRecOn _ _ h₁ fun s₂ h₂ pos _ => ?_
  split
  · exact h₂.trans (peerProposalInternal_frame a _ pos s₂)
  · exact h₂

/-- Updating our position only drops the stale peers. -/
theorem updateOurPositions_frame (a : Adaptor NodeID LedgerID SetID TxSet) (s : Consensus NodeID LedgerID SetID TxID TxSet) :
    Frame s (updateOurPositions ops a s) := by
  unfold updateOurPositions
  split
  · exact Frame.refl s
  · rename_i r hr
    extract_lets parms peerCutoff ourCutoff kept r' votes r'' closeTimes consensusCloseTime ourNewSet s'
    have hkept : kept.Sublist s.currPeerPositions := List.filter_sublist
    have hres : ∀ r₄ : Result NodeID LedgerID SetID TxID TxSet, (some r₄).isSome = s.result.isSome := by
      simp [hr]
    clear_value ourNewSet
    cases ourNewSet with
    | none => exact Frame.of_sublist rfl (hres _) rfl hkept
    | some newSet =>
      dsimp -zeta only
      extract_lets newID r₃ e s₃
      split
      · exact Frame.of_sublist rfl (hres _) rfl hkept
      · exact Frame.of_sublist rfl (hres _) rfl hkept

theorem haveConsensus_frame (a : Adaptor NodeID LedgerID SetID TxSet) (s : Consensus NodeID LedgerID SetID TxID TxSet) :
    Frame s (haveConsensus a s).2 := by
  unfold haveConsensus
  split
  · exact Frame.refl s
  · rename_i r hr
    exact Frame.of_sublist rfl (by simp [hr]) rfl (.refl _)

theorem leaveConsensus_frame (s : Consensus NodeID LedgerID SetID TxID TxSet) : Frame s (leaveConsensus s) := by
  unfold leaveConsensus
  split
  · exact Frame.of_sublist rfl Option.isSome_map rfl (.refl _)
  · exact Frame.refl s

theorem closeLedger_phase (a : Adaptor NodeID LedgerID SetID TxSet) (s : Consensus NodeID LedgerID SetID TxID TxSet) :
    (closeLedger ops a s).phase = .establish := rfl

/-- `haveConsensus` answers yes only with a result whose state is not `No`. -/
theorem haveConsensus_state {a : Adaptor NodeID LedgerID SetID TxSet} (h : (haveConsensus a s).1 = true) :
    ∀ r, (haveConsensus a s).2.result = some r → r.state ≠ .No := by
  unfold haveConsensus at h ⊢
  cases hr : s.result with
  | none =>
    simp only [hr] at h
    exact absurd h Bool.false_ne_true
  | some r =>
    simp only [hr, ne_eq, decide_eq_true_eq] at h ⊢
    rintro _ ⟨⟩
    exact h

/-! ## The shape of a round -/

theorem closeLedger_shape (h : Shape s) (a : Adaptor NodeID LedgerID SetID TxSet) : Shape (closeLedger ops a s) :=
  ⟨fun hp => absurd ((closeLedger_phase a s).symm.trans hp) (by decide), fun _ => rfl, h.deadGone⟩

theorem phaseOpen_shape (h : Shape s) (a : Adaptor NodeID LedgerID SetID TxSet) : Shape (phaseOpen ops a s) := by
  unfold phaseOpen
  extract_lets proposersClosed proposersValidated s₁
  have h₁ : Shape s₁ := h.of_eq rfl rfl rfl rfl
  split
  · exact closeLedger_shape h₁ a
  · exact h₁

/-- Establishing keeps the result, which is there when it accepts. -/
theorem phaseEstablish_shape (h : Shape s) (a : Adaptor NodeID LedgerID SetID TxSet) :
    Shape (phaseEstablish ops a s) := by
  unfold phaseEstablish
  split
  · exact h
  · rename_i r hr
    extract_lets r₁ s₁
    have h₁ : Frame s s₁ := Frame.of_sublist rfl (by simp [s₁, hr]) rfl (.refl _)
    have h₂ : Frame s (haveConsensus a (updateOurPositions ops a s₁)).2 :=
      h₁.trans ((updateOurPositions_frame a s₁).trans (haveConsensus_frame a _))
    split
    · exact h₁.shape h
    · split
      · exact h₂.shape h
      · split
        · exact h₂.shape h
        · exact Shape.of_accepted rfl (h₂.shape h).deadGone

section Timer

variable (timer : Consensus NodeID LedgerID SetID TxID TxSet → Consensus NodeID LedgerID SetID TxID TxSet)

/-- A new round opens with no result and no dead peers. -/
theorem startRoundInternal_shape (ht : ∀ s, Shape s → Shape (timer s)) (a : Adaptor NodeID LedgerID SetID TxSet)
    (now : NetTime) (prevLedgerID : LedgerID) (prevLedger : Ledger LedgerID) (mode : ConsensusMode)
    (s : Consensus NodeID LedgerID SetID TxID TxSet) :
    Shape (startRoundInternal ops timer a now prevLedgerID prevLedger mode s) := by
  unfold startRoundInternal
  extract_lets s₁ s₂
  have h₁ : Shape s₁ := ⟨fun _ => rfl, fun hp => (by cases hp), fun _ hp => absurd hp List.not_mem_nil⟩
  have h₂ : Shape s₂ := (playbackProposals_frame a s₁).shape h₁
  split
  · exact ht s₂ h₂
  · exact h₂

theorem handleWrongLedger_shape (ht : ∀ s, Shape s → Shape (timer s)) (h : Shape s)
    (a : Adaptor NodeID LedgerID SetID TxSet) (lgrId : LedgerID) : Shape (handleWrongLedger ops timer a lgrId s) := by
  unfold handleWrongLedger
  extract_lets s₁ src s₂
  have h₁ : Shape s₁ := (leaveConsensus_frame s).shape h
  -- on another ledger the peers go, the dead ones too
  have h₂ : Shape s₂ := by
    unfold s₂
    split
    · refine (playbackProposals_frame a _).shape ⟨fun hp => ?_, fun hp => ?_, fun p hp => absurd hp List.not_mem_nil⟩
      · simp only [h₁.openNoResult hp, Option.map_none]
      · simpa only [Option.isSome_map] using h₁.establishResult hp
    · exact h₁
  split
  · exact h₂
  · split
    · exact startRoundInternal_shape timer ht a _ _ _ _ s₂
    · exact h₂.of_eq rfl rfl rfl rfl

theorem checkLedger_shape (ht : ∀ s, Shape s → Shape (timer s)) (h : Shape s) (a : Adaptor NodeID LedgerID SetID TxSet) :
    Shape (checkLedger ops timer a s) := by
  unfold checkLedger
  extract_lets netLgr
  split
  · exact handleWrongLedger_shape timer ht h a netLgr
  · split
    · exact handleWrongLedger_shape timer ht h a netLgr
    · exact h

end Timer

/-- The timer keeps the shape, by induction on the nested calls it may make. -/
theorem timerEntry_shape (a : Adaptor NodeID LedgerID SetID TxSet) (now : NetTime) :
    ∀ (fuel : Nat) (s : Consensus NodeID LedgerID SetID TxID TxSet), Shape s → Shape (timerEntry ops a now fuel s)
  | 0, _, h => h
  | fuel + 1, s, h => by
    rw [timerEntry]
    split
    · exact h
    · extract_lets s₁
      have h₁ : Shape s₁ := checkLedger_shape _ (fun s' h' => timerEntry_shape a s'.now fuel s' h')
        (show Shape { s with now := now } from h.of_eq rfl rfl rfl rfl) a
      split
      · exact phaseOpen_shape h₁ a
      · exact phaseEstablish_shape h₁ a
      · exact h₁

theorem step_shape (fuel : Nat) (a : Adaptor NodeID LedgerID SetID TxSet) (ev : Event NodeID LedgerID SetID TxSet)
    (h : Shape s) : Shape (step ops fuel a ev s) := by
  cases ev with
  | startRound now prevLedgerID prevLedger proposing =>
    exact startRoundInternal_shape _ (fun s' h' => timerEntry_shape a s'.now fuel s' h') a _ _ _ _ _
  | peerProposal now newPeerPos => exact (peerProposal_frame a now newPeerPos s).shape h
  | gotTxSet now txSet => exact (gotTxSet_frame now txSet s).shape h
  | timerEntry now => exact timerEntry_shape a now fuel s h
  | simulate now consensusDelay =>
    -- the forced close establishes, and the acceptance keeps the result
    show Shape (simulate ops a now consensusDelay s)
    unfold simulate
    extract_lets s₁
    have h₁ : Shape s₁ := closeLedger_shape (show Shape { s with now := now } from h.of_eq rfl rfl rfl rfl) a
    split
    · exact h₁
    · exact Shape.of_accepted rfl h₁.deadGone

theorem run_shape (fuel : Nat) :
    ∀ (es : List (Adaptor NodeID LedgerID SetID TxSet × Event NodeID LedgerID SetID TxSet))
      (s : Consensus NodeID LedgerID SetID TxID TxSet), Shape s → Shape (run ops fuel es s)
  | [], _, h => h
  | e :: es, _, h => run_shape fuel es _ (step_shape fuel e.1 e.2 h)

theorem init_shape (prevLedgerID : LedgerID) (previousLedger : Ledger LedgerID) (clockNow : Int) :
    Shape (Consensus.init prevLedgerID previousLedger clockNow : Consensus NodeID LedgerID SetID TxID TxSet) :=
  Shape.of_accepted rfl fun _ hp => absurd hp List.not_mem_nil

/-! ## Acceptance -/

theorem gotTxSet_acceptedOK (h : AcceptedOK s) (now : NetTime) (txSet : TxSet) :
    AcceptedOK (gotTxSet ops now txSet s) :=
  h.keep (gotTxSet_frame now txSet s).phase fun hp => by
    rw [show gotTxSet ops now txSet s = s from if_pos hp]
    exact ⟨rfl, rfl⟩

theorem peerProposal_acceptedOK (h : AcceptedOK s) (a : Adaptor NodeID LedgerID SetID TxSet) (now : NetTime)
    (newPeerPos : Proposal NodeID LedgerID SetID) : AcceptedOK (peerProposal ops a now newPeerPos s).2 := by
  unfold peerProposal
  extract_lets peerID props props'
  have h₁ : AcceptedOK { s with recentPeerPositions := AssocList.assign s.recentPeerPositions peerID props' } :=
    h.keep rfl fun _ => ⟨rfl, rfl⟩
  refine h₁.keep (peerProposalInternal_frame a now newPeerPos _).phase fun hp => ?_
  rw [show peerProposalInternal ops a now newPeerPos _ = (false, _) from if_pos hp]
  exact ⟨rfl, rfl⟩

theorem phaseOpen_acceptedOK (h : AcceptedOK s) (a : Adaptor NodeID LedgerID SetID TxSet) :
    AcceptedOK (phaseOpen ops a s) := by
  unfold phaseOpen
  extract_lets proposersClosed proposersValidated s₁
  split
  · exact AcceptedOK.of_phase_ne (by rw [closeLedger_phase]; decide)
  · exact h.keep rfl fun _ => ⟨rfl, rfl⟩

/-- Establishing accepts only when `haveConsensus` says yes and the close time is agreed. -/
theorem phaseEstablish_acceptedOK (hs : s.phase = .establish) (a : Adaptor NodeID LedgerID SetID TxSet) :
    AcceptedOK (phaseEstablish ops a s) := by
  have hne : s.phase ≠ .accepted := by rw [hs]; decide
  unfold phaseEstablish
  split
  · exact AcceptedOK.of_phase_ne hne
  · extract_lets r₁ s₁
    have hu := (updateOurPositions_frame a s₁).trans (haveConsensus_frame a (updateOurPositions ops a s₁))
    have hne₂ : (haveConsensus a (updateOurPositions ops a s₁)).2.phase ≠ .accepted := by
      rw [hu.phase]
      exact hne
    split
    · exact AcceptedOK.of_phase_ne hne
    · split
      · exact AcceptedOK.of_phase_ne hne₂
      · rename_i hc
        split
        · exact AcceptedOK.of_phase_ne hne₂
        · rename_i hct
          intro _ r hr
          exact ⟨haveConsensus_state (by simpa using hc) r hr, by simpa using hct⟩

section Timer

variable (timer : Consensus NodeID LedgerID SetID TxID TxSet → Consensus NodeID LedgerID SetID TxID TxSet)

theorem startRoundInternal_acceptedOK (ht : ∀ s, AcceptedOK s → AcceptedOK (timer s))
    (a : Adaptor NodeID LedgerID SetID TxSet) (now : NetTime) (prevLedgerID : LedgerID) (prevLedger : Ledger LedgerID)
    (mode : ConsensusMode) (s : Consensus NodeID LedgerID SetID TxID TxSet) :
    AcceptedOK (startRoundInternal ops timer a now prevLedgerID prevLedger mode s) := by
  unfold startRoundInternal
  extract_lets s₁ s₂
  have h₂ : AcceptedOK s₂ := AcceptedOK.of_phase_ne fun hp => by
    rw [(playbackProposals_frame a s₁).phase] at hp
    cases hp
  split
  · exact ht s₂ h₂
  · exact h₂

/-- Off the network's ledger: called by the timer only before acceptance. -/
theorem handleWrongLedger_acceptedOK (ht : ∀ s, AcceptedOK s → AcceptedOK (timer s)) (hs : s.phase ≠ .accepted)
    (a : Adaptor NodeID LedgerID SetID TxSet) (lgrId : LedgerID) :
    AcceptedOK (handleWrongLedger ops timer a lgrId s) := by
  unfold handleWrongLedger
  extract_lets s₁ src s₂
  have h₁ : s₁.phase ≠ .accepted := by rw [(leaveConsensus_frame s).phase]; exact hs
  have h₂ : s₂.phase ≠ .accepted := by
    unfold s₂
    split
    · rw [(playbackProposals_frame a _).phase]
      exact h₁
    · exact h₁
  split
  · exact AcceptedOK.of_phase_ne h₂
  · split
    · exact startRoundInternal_acceptedOK timer ht a _ _ _ _ s₂
    · exact AcceptedOK.of_phase_ne h₂

theorem checkLedger_acceptedOK (ht : ∀ s, AcceptedOK s → AcceptedOK (timer s)) (h : AcceptedOK s)
    (hs : s.phase ≠ .accepted) (a : Adaptor NodeID LedgerID SetID TxSet) : AcceptedOK (checkLedger ops timer a s) := by
  unfold checkLedger
  extract_lets netLgr
  split
  · exact handleWrongLedger_acceptedOK timer ht hs a netLgr
  · split
    · exact handleWrongLedger_acceptedOK timer ht hs a netLgr
    · exact h

end Timer

/-- The timer leaves an accepted round alone, and otherwise accepts only with consensus; by induction
on the nested calls it may make. -/
theorem timerEntry_acceptedOK (a : Adaptor NodeID LedgerID SetID TxSet) (now : NetTime) :
    ∀ (fuel : Nat) (s : Consensus NodeID LedgerID SetID TxID TxSet), AcceptedOK s →
      AcceptedOK (timerEntry ops a now fuel s)
  | 0, _, h => h
  | fuel + 1, s, h => by
    rw [timerEntry]
    split
    · exact h
    · rename_i hs
      extract_lets s₁
      have h₀ : AcceptedOK { s with now := now } := h.keep rfl fun _ => ⟨rfl, rfl⟩
      have h₁ : AcceptedOK s₁ := checkLedger_acceptedOK _ (fun s' h' => timerEntry_acceptedOK a s'.now fuel s' h') h₀ hs a
      split
      · exact phaseOpen_acceptedOK h₁ a
      · rename_i hest
        exact phaseEstablish_acceptedOK hest a
      · exact h₁

theorem step_acceptedOK (fuel : Nat) (a : Adaptor NodeID LedgerID SetID TxSet) (ev : Event NodeID LedgerID SetID TxSet)
    (hev : ev.isSimulate = false) (h : AcceptedOK s) : AcceptedOK (step ops fuel a ev s) := by
  cases ev with
  | startRound now prevLedgerID prevLedger proposing =>
    exact startRoundInternal_acceptedOK _ (fun s' h' => timerEntry_acceptedOK a s'.now fuel s' h') a _ _ _ _ _
  | peerProposal now newPeerPos => exact peerProposal_acceptedOK h a now newPeerPos
  | gotTxSet now txSet => exact gotTxSet_acceptedOK h now txSet
  | timerEntry now => exact timerEntry_acceptedOK a now fuel s h
  | simulate now consensusDelay => exact absurd hev (by simp [Event.isSimulate])

theorem run_acceptedOK (fuel : Nat) :
    ∀ (es : List (Adaptor NodeID LedgerID SetID TxSet × Event NodeID LedgerID SetID TxSet))
      (s : Consensus NodeID LedgerID SetID TxID TxSet), (∀ e ∈ es, e.2.isSimulate = false) → AcceptedOK s →
      AcceptedOK (run ops fuel es s)
  | [], _, _, h => h
  | e :: es, _, hes, h =>
    run_acceptedOK fuel es _ (fun e' he' => hes e' (List.mem_cons_of_mem _ he'))
      (step_acceptedOK fuel e.1 e.2 (hes e List.mem_cons_self) h)

theorem init_acceptedOK (prevLedgerID : LedgerID) (previousLedger : Ledger LedgerID) (clockNow : Int) :
    AcceptedOK (Consensus.init prevLedgerID previousLedger clockNow : Consensus NodeID LedgerID SetID TxID TxSet) := by
  intro _ r hr
  cases hr

/-! ## Over whole runs -/

/-- No dispute of the round's result holds a vote of a peer that bowed out. -/
def DeadUnvoted (s : Consensus NodeID LedgerID SetID TxID TxSet) : Prop :=
  ∀ p ∈ s.deadNodes, ∀ r, s.result = some r → ∀ t d, r.disputes.lookup t = some d → d.votes.lookup p = none

/-- With the round's invariant, a peer that bowed out has no vote in any dispute: the bow-out takes
its votes back, and only a peer holding a position votes. -/
theorem Inv.deadUnvoted (h : Inv ops s) (hs : Shape s) : DeadUnvoted s := by
  intro p hp r hr t d hd
  cases hv : d.votes.lookup p with
  | none => rfl
  | some v =>
    have hpos := ((h.resultAgrees r hr).1 t d hd).2.2.2.1 p (by rw [hv]; rfl)
    rw [hs.deadGone p hp] at hpos
    exact absurd hpos (by simp)

/-- In every state that any interleaving of calls reaches from the constructor, an open round has no
result, an establishing one has a result, and a peer that bowed out holds no position. -/
theorem run_round_shape (fuel : Nat) (es : List (Adaptor NodeID LedgerID SetID TxSet × Event NodeID LedgerID SetID TxSet))
    (prevLedgerID : LedgerID) (previousLedger : Ledger LedgerID) (clockNow : Int) :
    Shape (run ops fuel es (Consensus.init prevLedgerID previousLedger clockNow)) :=
  run_shape fuel es _ (init_shape prevLedgerID previousLedger clockNow)

/-- In every state that any interleaving of calls reaches from the constructor, with lawful sets, no
dispute of the round holds a vote of a peer that bowed out. -/
theorem run_dead_peers_unvoted (hl : ops.Lawful) (fuel : Nat)
    (es : List (Adaptor NodeID LedgerID SetID TxSet × Event NodeID LedgerID SetID TxSet)) (prevLedgerID : LedgerID)
    (previousLedger : Ledger LedgerID) (clockNow : Int) :
    DeadUnvoted (run ops fuel es (Consensus.init prevLedgerID previousLedger clockNow)) :=
  (run_inv hl fuel es _ (init_inv prevLedgerID previousLedger clockNow)).deadUnvoted
    (run_shape fuel es _ (init_shape prevLedgerID previousLedger clockNow))

/-- A sample round in which a peer proposes our set, then bows out. -/
def bowOutRun : List (Adaptor Nat Nat (List Nat) (List Nat) × Event Nat Nat (List Nat) (List Nat)) :=
  [(sampleAdaptor, .startRound ⟨0⟩ 0 ⟨0, 1, ⟨0⟩, ⟨0⟩, true, 30⟩ true),
    (sampleAdaptor, .peerProposal ⟨1⟩ ⟨0, [2], ⟨0⟩, ⟨1⟩, 0, 7⟩),
    (sampleAdaptor, .timerEntry ⟨1⟩),
    (sampleAdaptor, .peerProposal ⟨2⟩ ⟨0, [2], ⟨0⟩, ⟨2⟩, 0xffffffff, 7⟩)]

theorem run_dead_peers_unvoted_bowOut :
    DeadUnvoted (run listOps 1 bowOutRun (Consensus.init 0 ⟨0, 1, ⟨0⟩, ⟨0⟩, true, 30⟩ 0)) :=
  run_dead_peers_unvoted listOps_lawful 1 bowOutRun 0 _ 0

/-- In the sample, the peer is dead after bowing out, and the two disputes it voted on are still there. -/
example :
    ((run listOps 1 bowOutRun (Consensus.init 0 ⟨0, 1, ⟨0⟩, ⟨0⟩, true, 30⟩ 0)).deadNodes,
      (run listOps 1 bowOutRun (Consensus.init 0 ⟨0, 1, ⟨0⟩, ⟨0⟩, true, 30⟩ 0)).result.map
        fun r => r.disputes.map fun e => (e.1, e.2.votes)) =
      ([7], some [(1, []), (2, [])]) := by
  decide

/-- In every state that a run of calls without `simulate` reaches from the constructor, an accepted
round's result is in consensus, reached or moved on, and so is its close time. -/
theorem run_accepts_in_consensus (fuel : Nat)
    (es : List (Adaptor NodeID LedgerID SetID TxSet × Event NodeID LedgerID SetID TxSet)) (prevLedgerID : LedgerID)
    (previousLedger : Ledger LedgerID) (clockNow : Int) (hes : ∀ e ∈ es, e.2.isSimulate = false) :
    AcceptedOK (run ops fuel es (Consensus.init prevLedgerID previousLedger clockNow)) :=
  run_acceptedOK fuel es _ hes (init_acceptedOK prevLedgerID previousLedger clockNow)

/-- A sample round accepted by the timer: a peer proposes our set, we close, and after the minimum
consensus time both agree. -/
def acceptRun : List (Adaptor Nat Nat (List Nat) (List Nat) × Event Nat Nat (List Nat) (List Nat)) :=
  [(sampleAdaptor, .startRound ⟨0⟩ 0 ⟨0, 1, ⟨0⟩, ⟨0⟩, true, 30⟩ true),
    (sampleAdaptor, .peerProposal ⟨1⟩ ⟨0, [1], ⟨0⟩, ⟨1⟩, 0, 7⟩),
    (sampleAdaptor, .timerEntry ⟨1⟩),
    ({ sampleAdaptor with clockNow := 3000 }, .timerEntry ⟨4⟩)]

theorem run_accepts_in_consensus_sample :
    (∀ e ∈ acceptRun, e.2.isSimulate = false) ∧
      AcceptedOK (run listOps 2 acceptRun (Consensus.init 0 ⟨0, 1, ⟨0⟩, ⟨0⟩, true, 30⟩ 0)) :=
  ⟨by decide, run_accepts_in_consensus 2 acceptRun 0 _ 0 (by decide)⟩

/-- The sample round is accepted, with consensus reached. -/
example :
    ((run listOps 2 acceptRun (Consensus.init 0 ⟨0, 1, ⟨0⟩, ⟨0⟩, true, 30⟩ 0)).phase,
      (run listOps 2 acceptRun (Consensus.init 0 ⟨0, 1, ⟨0⟩, ⟨0⟩, true, 30⟩ 0)).result.map fun r => r.state) =
      (.accepted, some .Yes) := by
  decide

end Round

end Ripple
