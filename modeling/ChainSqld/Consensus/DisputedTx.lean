import ChainSqld.Lib.AssocList
import ChainSqld.Consensus.CloseTime

/-!
# Disputed transactions

A `DisputedTx` holds the votes of the peers on one transaction in the map `votes_`, with two
counters beside it, `yays_` and `nays_`, and our own vote. `setVote` records or changes a peer's
vote and moves the counters with it, `unVote` takes a peer's vote back, and `updateVote` weighs the
votes to decide whether we change ours: when we propose, by a percentage of the votes with ours at
full weight against a threshold that rises as the round goes on; when we only observe, by a strict
majority of the peers.

* `Tallied`: the counters are the numbers of yes and no votes in the map, and the map has one entry
  a peer. `tallied_new`, `Tallied.setVote`, `Tallied.unVote`, `Tallied.updateVote`: every operation
  keeps it;
* `lookup_setVote`, `lookup_unVote`: the map is the peers' last votes;
* `updateVote_fst`: `updateVote` says whether our vote changed; `updateVote_of_unanimous`: a vote
  no peer disputes is kept; `updateVote_observing`: observing, we take the strict majority of the
  votes in the map.

`yays_`, `nays_` and the weight are `int`s; they are counts of peers and kept unbounded here. A
comparison of an `int` with a `std::size_t` parameter converts the `int` (`toSizeT`).
-/

set_option autoImplicit false

namespace Ripple

/-- The conversion of an `int` to `std::size_t` in a mixed comparison. -/
def toSizeT (x : Int) : Nat := (x % 2 ^ 64).toNat

theorem toSizeT_of_nonneg {x : Int} (h0 : 0 ≤ x) (h : x < 2 ^ 64) : (toSizeT x : Int) = x := by
  unfold toSizeT
  rw [Int.emod_eq_of_lt h0 h, Int.toNat_of_nonneg h0]

/-- A transaction under dispute: the peers' votes and their counts, and ours. -/
structure DisputedTx (Tx NodeID : Type) where
  yays : Int
  nays : Int
  ourVote : Bool
  tx : Tx
  votes : List (NodeID × Bool)
deriving DecidableEq

namespace DisputedTx

variable {Tx NodeID : Type} [DecidableEq NodeID]

/-- The constructor: no votes yet. -/
def new (tx : Tx) (ourVote : Bool) : DisputedTx Tx NodeID := ⟨0, 0, ourVote, tx, []⟩

/-- `setOurVote`. -/
def setOurVote (o : Bool) (d : DisputedTx Tx NodeID) : DisputedTx Tx NodeID := { d with ourVote := o }

/-- `setVote`: the `insert` of the vote into `votes_` adds a peer not yet voting and counts the vote;
for a peer that voted the other way, the vote is changed and both counters move. -/
def setVote (peer : NodeID) (votesYes : Bool) (d : DisputedTx Tx NodeID) : DisputedTx Tx NodeID :=
  match d.votes.lookup peer with
  | none =>
    if votesYes then { d with yays := d.yays + 1, votes := (AssocList.emplace d.votes peer votesYes).2 }
    else { d with nays := d.nays + 1, votes := (AssocList.emplace d.votes peer votesYes).2 }
  | some old =>
    if votesYes && !old then
      { d with nays := d.nays - 1, yays := d.yays + 1, votes := AssocList.assign d.votes peer true }
    else if !votesYes && old then
      { d with nays := d.nays + 1, yays := d.yays - 1, votes := AssocList.assign d.votes peer false }
    else d

/-- `unVote`: a peer's vote is taken out of the map and of its counter. -/
def unVote (peer : NodeID) (d : DisputedTx Tx NodeID) : DisputedTx Tx NodeID :=
  match d.votes.lookup peer with
  | some yes =>
    if yes then { d with yays := d.yays - 1, votes := AssocList.erase d.votes peer }
    else { d with nays := d.nays - 1, votes := AssocList.erase d.votes peer }
  | none => d

/-- The position `updateVote` weighs its way to. Proposing, the weight is the percentage of yes votes
with ours counted in full, and it must pass a threshold that depends on how far the round has gone;
observing, we follow the strict majority. -/
def newPosition (percentTime : Int) (proposing : Bool) (p : ConsensusParms) (d : DisputedTx Tx NodeID) : Bool :=
  if proposing then
    let weight := (d.yays * 100 + (if d.ourVote then 100 else 0)).tdiv (d.nays + d.yays + 1)
    if toSizeT percentTime < p.avMID_CONSENSUS_TIME then decide (toSizeT weight > p.avINIT_CONSENSUS_PCT)
    else if toSizeT percentTime < p.avLATE_CONSENSUS_TIME then decide (toSizeT weight > p.avMID_CONSENSUS_PCT)
    else if toSizeT percentTime < p.avSTUCK_CONSENSUS_TIME then decide (toSizeT weight > p.avLATE_CONSENSUS_PCT)
    else decide (toSizeT weight > p.avSTUCK_CONSENSUS_PCT)
  else decide (d.yays > d.nays)

/-- `updateVote`: whether our vote changed, and the dispute with it. A vote that no peer disputes is
kept without weighing. -/
def updateVote (percentTime : Int) (proposing : Bool) (p : ConsensusParms) (d : DisputedTx Tx NodeID) :
    Bool × DisputedTx Tx NodeID :=
  if d.ourVote && d.nays == 0 then (false, d)
  else if !d.ourVote && d.yays == 0 then (false, d)
  else if newPosition percentTime proposing p d == d.ourVote then (false, d)
  else (true, { d with ourVote := newPosition percentTime proposing p d })

/-! ## The counters -/

/-- The counters count the votes in the map, whose keys are distinct. -/
structure Tallied (d : DisputedTx Tx NodeID) : Prop where
  nodup : (AssocList.keys d.votes).Nodup
  yays : d.yays = (d.votes.countP fun e => e.2 : Nat)
  nays : d.nays = (d.votes.countP fun e => !e.2 : Nat)

omit [DecidableEq NodeID] in
theorem tallied_new (tx : Tx) (ourVote : Bool) : (new tx ourVote : DisputedTx Tx NodeID).Tallied :=
  ⟨List.nodup_nil, rfl, rfl⟩

omit [DecidableEq NodeID] in
theorem Tallied.setOurVote {d : DisputedTx Tx NodeID} (h : d.Tallied) (o : Bool) : (d.setOurVote o).Tallied :=
  ⟨h.nodup, h.yays, h.nays⟩

theorem Tallied.setVote {d : DisputedTx Tx NodeID} (h : d.Tallied) (peer : NodeID) (votesYes : Bool) :
    (d.setVote peer votesYes).Tallied := by
  unfold DisputedTx.setVote
  split
  · rename_i hnone
    have hk : (d.votes.lookup peer).isSome = false := by rw [hnone]; rfl
    have hv : (AssocList.emplace d.votes peer votesYes).2 = d.votes ++ [(peer, votesYes)] := by
      simp [AssocList.emplace, hk]
    have hn := AssocList.nodup_emplace h.nodup peer votesYes
    cases votesYes <;> refine ⟨hn, ?_, ?_⟩ <;> simp [hv, List.countP_append, h.yays, h.nays]
  · rename_i old hold
    have hy := AssocList.countP_assign h.nodup hold
    have hn := AssocList.nodup_assign h.nodup peer
    -- each branch moves the counters as the overwritten entry moves the counts
    split
    · rename_i hc
      obtain ⟨rfl, rfl⟩ : votesYes = true ∧ old = false := by simpa using hc
      have h1 := hy true fun e => e.2
      have h2 := hy true fun e => !e.2
      simp only [Bool.not_false, Bool.not_true, if_true, if_false, Bool.false_eq_true] at h1 h2
      refine ⟨hn true, ?_, ?_⟩ <;> dsimp only
      · rw [h.yays]; omega
      · rw [h.nays]; omega
    · split
      · rename_i hc
        obtain ⟨rfl, rfl⟩ : votesYes = false ∧ old = true := by simpa using hc
        have h1 := hy false fun e => e.2
        have h2 := hy false fun e => !e.2
        simp only [Bool.not_false, Bool.not_true, if_true, if_false, Bool.false_eq_true] at h1 h2
        refine ⟨hn false, ?_, ?_⟩ <;> dsimp only
        · rw [h.yays]; omega
        · rw [h.nays]; omega
      · exact h

theorem Tallied.unVote {d : DisputedTx Tx NodeID} (h : d.Tallied) (peer : NodeID) : (d.unVote peer).Tallied := by
  unfold DisputedTx.unVote
  split
  · rename_i yes hold
    have hn := AssocList.nodup_erase h.nodup peer
    have h1 := AssocList.countP_erase h.nodup hold fun e => e.2
    have h2 := AssocList.countP_erase h.nodup hold fun e => !e.2
    cases yes <;> simp only [Bool.not_false, Bool.not_true, if_true, if_false, Bool.false_eq_true] at h1 h2 ⊢ <;>
      refine ⟨hn, ?_, ?_⟩ <;> dsimp only
    · rw [h.yays]; omega
    · rw [h.nays]; omega
    · rw [h.yays]; omega
    · rw [h.nays]; omega
  · exact h

omit [DecidableEq NodeID] in
theorem votes_updateVote (percentTime : Int) (proposing : Bool) (p : ConsensusParms) (d : DisputedTx Tx NodeID) :
    (d.updateVote percentTime proposing p).2.votes = d.votes ∧ (d.updateVote percentTime proposing p).2.yays = d.yays ∧
      (d.updateVote percentTime proposing p).2.nays = d.nays ∧ (d.updateVote percentTime proposing p).2.tx = d.tx := by
  unfold updateVote
  split_ifs <;> exact ⟨rfl, rfl, rfl, rfl⟩

omit [DecidableEq NodeID] in
theorem Tallied.updateVote {d : DisputedTx Tx NodeID} (h : d.Tallied) (percentTime : Int) (proposing : Bool)
    (p : ConsensusParms) : (d.updateVote percentTime proposing p).2.Tallied := by
  obtain ⟨hv, hy, hn, -⟩ := votes_updateVote percentTime proposing p d
  exact ⟨hv ▸ h.nodup, hy ▸ hv ▸ h.yays, hn ▸ hv ▸ h.nays⟩

/-! ## The vote map -/

@[simp] theorem tx_setVote (d : DisputedTx Tx NodeID) (peer : NodeID) (b : Bool) : (d.setVote peer b).tx = d.tx := by
  unfold DisputedTx.setVote
  split <;> (try split_ifs) <;> rfl

@[simp] theorem ourVote_setVote (d : DisputedTx Tx NodeID) (peer : NodeID) (b : Bool) :
    (d.setVote peer b).ourVote = d.ourVote := by
  unfold DisputedTx.setVote
  split <;> (try split_ifs) <;> rfl

@[simp] theorem tx_unVote (d : DisputedTx Tx NodeID) (peer : NodeID) : (d.unVote peer).tx = d.tx := by
  unfold DisputedTx.unVote
  split <;> (try split_ifs) <;> rfl

@[simp] theorem ourVote_unVote (d : DisputedTx Tx NodeID) (peer : NodeID) : (d.unVote peer).ourVote = d.ourVote := by
  unfold DisputedTx.unVote
  split <;> (try split_ifs) <;> rfl

/-- After `setVote`, the map holds the peer's new vote. -/
theorem lookup_setVote (d : DisputedTx Tx NodeID) (peer : NodeID) (b : Bool) (q : NodeID) :
    (d.setVote peer b).votes.lookup q = if q = peer then some b else d.votes.lookup q := by
  unfold DisputedTx.setVote
  split
  · rename_i hnone
    cases b <;> simp only [AssocList.lookup_emplace, hnone, Option.isSome_none, Bool.false_eq_true, if_false,
      if_true]
  · rename_i old hold
    split
    · rename_i hc
      obtain ⟨rfl, -⟩ : b = true ∧ old = false := by simpa using hc
      exact AssocList.lookup_assign d.votes peer true q
    · split
      · rename_i hc
        obtain ⟨rfl, -⟩ : b = false ∧ old = true := by simpa using hc
        exact AssocList.lookup_assign d.votes peer false q
      · -- the peer already votes `b`
        rename_i h1 h2
        have hb : old = b := by cases b <;> cases old <;> simp_all
        split
        · rename_i hq
          rw [hq, hold, hb]
        · rfl

/-- After `unVote`, the map holds no vote of the peer. -/
theorem lookup_unVote (d : DisputedTx Tx NodeID) (peer : NodeID) (q : NodeID) :
    (d.unVote peer).votes.lookup q = if q = peer then none else d.votes.lookup q := by
  unfold DisputedTx.unVote
  split
  · split <;> exact AssocList.lookup_erase _ _ _
  · rename_i hnone
    split
    · rename_i hq
      rw [hq, hnone]
    · rfl

/-! ## Our vote -/

omit [DecidableEq NodeID] in
/-- `updateVote` reports exactly whether our vote changed. -/
theorem updateVote_fst (percentTime : Int) (proposing : Bool) (p : ConsensusParms) (d : DisputedTx Tx NodeID) :
    (d.updateVote percentTime proposing p).1 = ((d.updateVote percentTime proposing p).2.ourVote != d.ourVote) := by
  unfold updateVote
  split_ifs with h1 h2 h3
  · simp
  · simp
  · simp
  · simp only [beq_iff_eq] at h3
    simp [h3]

omit [DecidableEq NodeID] in
theorem ourVote_updateVote (percentTime : Int) (proposing : Bool) (p : ConsensusParms) (d : DisputedTx Tx NodeID) :
    (d.updateVote percentTime proposing p).2.ourVote =
      if d.ourVote && d.nays == 0 then d.ourVote else if !d.ourVote && d.yays == 0 then d.ourVote
      else newPosition percentTime proposing p d := by
  unfold updateVote
  split_ifs with h1 h2 h3 <;> simp_all

/-- **A vote no peer disputes is kept.** When every vote in the map is ours, `updateVote` changes
nothing, whatever the time and the thresholds. -/
theorem updateVote_of_unanimous {d : DisputedTx Tx NodeID} (h : d.Tallied)
    (hall : ∀ q v, d.votes.lookup q = some v → v = d.ourVote) (percentTime : Int) (proposing : Bool)
    (p : ConsensusParms) : (d.updateVote percentTime proposing p).1 = false := by
  have hnone : ∀ e ∈ d.votes, e.2 = d.ourVote := fun e he =>
    hall e.1 e.2 (AssocList.lookup_of_mem h.nodup he)
  unfold updateVote
  cases hv : d.ourVote
  · have hy : d.yays = 0 := by
      rw [h.yays, List.countP_eq_zero.mpr fun e he => by simp [hnone e he, hv]]
      rfl
    simp [hy]
  · have hn : d.nays = 0 := by
      rw [h.nays, List.countP_eq_zero.mpr fun e he => by simp [hnone e he, hv]]
      rfl
    simp [hn]

/-- **Observing, we follow the strict majority.** Once some peer disputes our vote, a node that is
not proposing takes yes exactly when more votes in the map are yes than no. -/
theorem updateVote_observing {d : DisputedTx Tx NodeID} (h : d.Tallied)
    (hdis : ∃ q v, d.votes.lookup q = some v ∧ v ≠ d.ourVote) (percentTime : Int) (p : ConsensusParms) :
    (d.updateVote percentTime false p).2.ourVote =
      decide ((d.votes.countP fun e => !e.2) < d.votes.countP fun e => e.2) := by
  obtain ⟨q, v, hq, hv⟩ := hdis
  have hmem := AssocList.mem_of_lookup hq
  -- a vote against ours makes the counter of the other side positive
  have hy : d.ourVote = false → d.yays ≠ 0 := fun ho => by
    have : 0 < d.votes.countP fun e => e.2 := List.countP_pos_iff.mpr ⟨_, hmem, by simpa [ho] using hv⟩
    rw [h.yays]
    omega
  have hn : d.ourVote = true → d.nays ≠ 0 := fun ho => by
    have : 0 < d.votes.countP fun e => !e.2 := List.countP_pos_iff.mpr ⟨_, hmem, by simpa [ho] using hv⟩
    rw [h.nays]
    omega
  have hc1 : (d.ourVote && d.nays == 0) = false := by
    cases ho : d.ourVote
    · rfl
    · simpa using hn ho
  have hc2 : (!d.ourVote && d.yays == 0) = false := by
    cases ho : d.ourVote
    · simpa using hy ho
    · rfl
  rw [ourVote_updateVote, hc1, hc2, if_neg Bool.false_ne_true, if_neg Bool.false_ne_true, newPosition,
    if_neg Bool.false_ne_true, h.yays, h.nays]
  simp only [gt_iff_lt, Nat.cast_lt]

end DisputedTx

end Ripple
