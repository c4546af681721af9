import ChainSqld.Consensus.Round

/-!
# The disputes follow the peers

Whenever a round holds a result, its disputes agree with the peers' positions and the sets acquired
(`Inv`), in every state reachable by any interleaving of the five entry points (`inv_run`):

* each dispute's counters count the votes in its map, and it is keyed by its transaction;
* our vote on a dispute is whether our set has the transaction;
* only current peers vote, and a current peer whose set we have votes whether that set has the
  transaction;
* every transaction on which our set differs from the set of a current peer is disputed.

The last holds because each set compared is recorded in `compares` with every difference disputed,
our set only ever changes on disputed transactions, and every current peer's set is compared. While
a handler runs, a peer whose position just changed, or whose set just arrived, may still carry old
votes and an uncompared set: `DisputesAgree` exempts such peers, and the handler's loops take them
out of the exemption one by one.

The sets' operations are assumed lawful (`TxSetOps.Lawful`): `insert` and `erase` do what they say,
`compare` lists every difference, and two sets of one ID hold the same transactions.
-/

set_option autoImplicit false
set_option linter.unusedSectionVars false

namespace Ripple

namespace Round

variable {NodeID LedgerID SetID TxID TxSet : Type} [DecidableEq NodeID] [DecidableEq LedgerID] [DecidableEq SetID]
  [DecidableEq TxID]

variable (ops : TxSetOps TxSet TxID SetID)

/-- The operations of a transaction set behave as a set's. -/
structure TxSetOps.Lawful : Prop where
  exists_insert : ∀ s t t', ops.exists (ops.insert s t) t' = (t' == t || ops.exists s t')
  exists_erase : ∀ s t t', ops.exists (ops.erase s t) t' = (t' != t && ops.exists s t')
  compare_complete : ∀ a b t, ops.exists a t ≠ ops.exists b t → ∃ v, (t, v) ∈ ops.compare a b
  exists_of_id : ∀ a b, ops.id a = ops.id b → ∀ t, ops.exists a t = ops.exists b t

/-- One dispute agrees with our set, the peers and the sets acquired; the peers in `Ev` may still
hold votes from an older position. -/
structure DisputeOK (acquired : List (SetID × TxSet)) (peers : List (NodeID × Proposal NodeID LedgerID SetID))
    (Ev : NodeID → Prop) (set : TxSet) (t : TxID) (d : DisputedTx TxID NodeID) : Prop where
  tallied : d.Tallied
  keyed : d.tx = t
  ourVote : d.ourVote = ops.exists set t
  voters : ∀ p, (d.votes.lookup p).isSome → (peers.lookup p).isSome
  votes : ∀ p pos o, peers.lookup p = some pos → ¬ Ev p → acquired.lookup pos.position = some o →
    d.votes.lookup p = some (ops.exists o t)

namespace DisputeOK

variable {ops} {acquired : List (SetID × TxSet)} {peers : List (NodeID × Proposal NodeID LedgerID SetID)}
  {Ev : NodeID → Prop} {set : TxSet} {t : TxID} {d : DisputedTx TxID NodeID}

theorem mono (h : DisputeOK ops acquired peers Ev set t d) {Ev' : NodeID → Prop} (hE : ∀ p, Ev p → Ev' p) :
    DisputeOK ops acquired peers Ev' set t d :=
  { h with votes := fun p pos o hp hn ho => h.votes p pos o hp (fun he => hn (hE p he)) ho }

/-- A peer votes by the set of its position. -/
theorem setVote (h : DisputeOK ops acquired peers Ev set t d) {node : NodeID} {pos : Proposal NodeID LedgerID SetID}
    {other : TxSet} (hp : peers.lookup node = some pos) (ho : acquired.lookup pos.position = some other) :
    DisputeOK ops acquired peers (fun p => Ev p ∧ p ≠ node) set t (d.setVote node (ops.exists other d.tx)) where
  tallied := h.tallied.setVote _ _
  keyed := by rw [DisputedTx.tx_setVote, h.keyed]
  ourVote := by rw [DisputedTx.ourVote_setVote, h.ourVote]
  voters p hv := by
    rw [DisputedTx.lookup_setVote] at hv
    split at hv
    · rename_i hpn
      rw [hpn, hp]
      rfl
    · exact h.voters p hv
  votes p pos' o hp' hn ho' := by
    rw [DisputedTx.lookup_setVote, h.keyed]
    split
    · rename_i hpn
      subst hpn
      rw [hp, Option.some.injEq] at hp'
      subst hp'
      rw [ho, Option.some.injEq] at ho'
      rw [ho']
    · rename_i hpn
      exact h.votes p pos' o hp' (fun he => hn ⟨he, hpn⟩) ho'

/-- A peer that leaves takes its votes back. -/
theorem unVote (h : DisputeOK ops acquired peers Ev set t d) (peer : NodeID)
    {peers' : List (NodeID × Proposal NodeID LedgerID SetID)} (hgone : peers'.lookup peer = none)
    (hpeers : ∀ p, p ≠ peer → peers'.lookup p = peers.lookup p) :
    DisputeOK ops acquired peers' Ev set t (d.unVote peer) where
  tallied := h.tallied.unVote _
  keyed := by rw [DisputedTx.tx_unVote, h.keyed]
  ourVote := by rw [DisputedTx.ourVote_unVote, h.ourVote]
  voters p hv := by
    rw [DisputedTx.lookup_unVote] at hv
    split at hv
    · exact absurd hv (by simp)
    · rename_i hpn
      rw [hpeers p hpn]
      exact h.voters p hv
  votes p pos o hp hn ho := by
    rw [DisputedTx.lookup_unVote]
    split
    · rename_i hpn
      rw [hpn, hgone] at hp
      exact absurd hp (by simp)
    · rename_i hpn
      exact h.votes p pos o (by rw [← hpeers p hpn]; exact hp) hn ho

/-- Fewer peers, when none of those gone votes. -/
theorem restrict (h : DisputeOK ops acquired peers Ev set t d) {peers' : List (NodeID × Proposal NodeID LedgerID SetID)}
    {Ev' : NodeID → Prop} (hsub : ∀ p pos, peers'.lookup p = some pos → peers.lookup p = some pos ∧ (Ev p → Ev' p))
    (hvoters : ∀ p, (d.votes.lookup p).isSome → (peers'.lookup p).isSome) :
    DisputeOK ops acquired peers' Ev' set t d where
  tallied := h.tallied
  keyed := h.keyed
  ourVote := h.ourVote
  voters := hvoters
  votes p pos o hp hn ho := h.votes p pos o (hsub p pos hp).1 (fun he => hn ((hsub p pos hp).2 he)) ho

/-- A peer takes a new position: until it votes by it, it is exempted. -/
theorem assign (h : DisputeOK ops acquired peers Ev set t d) (peer : NodeID) (newPos : Proposal NodeID LedgerID SetID) :
    DisputeOK ops acquired (AssocList.assign peers peer newPos) (fun p => Ev p ∨ p = peer) set t d where
  tallied := h.tallied
  keyed := h.keyed
  ourVote := h.ourVote
  voters p hv := by
    rw [AssocList.lookup_assign]
    split
    · rfl
    · exact h.voters p hv
  votes p pos o hp hn ho := by
    rw [AssocList.lookup_assign, if_neg fun he => hn (Or.inr he)] at hp
    exact h.votes p pos o hp (fun he => hn (Or.inl he)) ho

/-- A set is acquired: the peers proposing it are exempted until they vote by it. -/
theorem acquire (h : DisputeOK ops acquired peers Ev set t d) (k : SetID) (o : TxSet) :
    DisputeOK ops (AssocList.emplace acquired k o).2 peers
      (fun p => Ev p ∨ ∃ pos, peers.lookup p = some pos ∧ pos.position = k) set t d where
  tallied := h.tallied
  keyed := h.keyed
  ourVote := h.ourVote
  voters := h.voters
  votes p pos o' hp hn ho := by
    have hk : pos.position ≠ k := fun he => hn (Or.inr ⟨pos, hp, he⟩)
    rw [AssocList.lookup_emplace, if_neg hk] at ho
    split at ho <;> exact h.votes p pos o' hp (fun he => hn (Or.inl he)) ho

/-- Our vote moves with our set. -/
theorem updateVote (h : DisputeOK ops acquired peers Ev set t d) {set' : TxSet} (percentTime : Int) (proposing : Bool)
    (parms : ConsensusParms) (hset : (d.updateVote percentTime proposing parms).2.ourVote = ops.exists set' t) :
    DisputeOK ops acquired peers Ev set' t (d.updateVote percentTime proposing parms).2 := by
  obtain ⟨hv, -, -, htx⟩ := DisputedTx.votes_updateVote percentTime proposing parms d
  exact ⟨h.tallied.updateVote _ _ _, htx.trans h.keyed, hset, fun p hp => h.voters p (hv ▸ hp),
    fun p pos o hp hn ho => hv ▸ h.votes p pos o hp hn ho⟩

end DisputeOK

/-! ## A new dispute -/

section NewDispute

variable {ops} {acquired : List (SetID × TxSet)} {set : TxSet} {t : TxID}

theorem lookup_setPeerVote (dtx : DisputedTx TxID NodeID) (p : NodeID) (pos : Proposal NodeID LedgerID SetID)
    (q : NodeID) : (setPeerVote ops acquired t dtx (p, pos)).votes.lookup q =
      if q = p then ((acquired.lookup pos.position).map fun o => ops.exists o t).or (dtx.votes.lookup q)
      else dtx.votes.lookup q := by
  unfold setPeerVote
  split
  · rename_i o ho
    rw [DisputedTx.lookup_setVote, ho]
    split <;> rfl
  · rename_i ho
    rw [ho]
    split <;> rfl

variable (ops acquired) in
theorem setPeerVote_fields (dtx : DisputedTx TxID NodeID) (pit : NodeID × Proposal NodeID LedgerID SetID) :
    (setPeerVote ops acquired t dtx pit).tx = dtx.tx ∧ (setPeerVote ops acquired t dtx pit).ourVote = dtx.ourVote ∧
      (dtx.Tallied → (setPeerVote ops acquired t dtx pit).Tallied) := by
  unfold setPeerVote
  split
  · exact ⟨DisputedTx.tx_setVote _ _ _, DisputedTx.ourVote_setVote _ _ _, fun h => h.setVote _ _⟩
  · exact ⟨rfl, rfl, id⟩

variable (ops acquired) in
/-- After the peers of `L` whose set we have voted, each holds the vote of its set. -/
theorem lookup_foldl_setPeerVote : ∀ (L : List (NodeID × Proposal NodeID LedgerID SetID)), (AssocList.keys L).Nodup →
    ∀ (dtx : DisputedTx TxID NodeID) (q : NodeID),
    (L.foldl (setPeerVote ops acquired t) dtx).votes.lookup q =
      (((L.lookup q).bind fun pos => acquired.lookup pos.position).map fun o => ops.exists o t).or (dtx.votes.lookup q)
  | [], _, _, _ => rfl
  | (p, pos) :: L, hn, dtx, q => by
    rw [AssocList.keys, List.map_cons, List.nodup_cons] at hn
    rw [List.foldl_cons, lookup_foldl_setPeerVote L hn.2, lookup_setPeerVote]
    by_cases hq : q = p
    · subst hq
      rw [AssocList.lookup_eq_none_iff.mpr hn.1, AssocList.lookup_cons_eq, if_pos rfl]
      rfl
    · rw [AssocList.lookup_cons_ne _ _ hq, if_neg hq]

variable (ops acquired) in
theorem foldl_setPeerVote_fields : ∀ (L : List (NodeID × Proposal NodeID LedgerID SetID)) (dtx : DisputedTx TxID NodeID),
    (L.foldl (setPeerVote ops acquired t) dtx).tx = dtx.tx ∧ (L.foldl (setPeerVote ops acquired t) dtx).ourVote = dtx.ourVote ∧
      (dtx.Tallied → (L.foldl (setPeerVote ops acquired t) dtx).Tallied)
  | [], _ => ⟨rfl, rfl, id⟩
  | pit :: L, dtx => by
    obtain ⟨h1, h2, h3⟩ := setPeerVote_fields ops acquired (t := t) dtx pit
    obtain ⟨h1', h2', h3'⟩ := foldl_setPeerVote_fields L (setPeerVote ops acquired t dtx pit)
    exact ⟨h1'.trans h1, h2'.trans h2, fun h => h3' (h3 h)⟩

/-- A new dispute agrees with everything: each peer whose set we have votes by it. -/
theorem newDispute_ok {peers : List (NodeID × Proposal NodeID LedgerID SetID)} (hn : (AssocList.keys peers).Nodup)
    (Ev : NodeID → Prop) : DisputeOK ops acquired peers Ev set t (newDispute ops acquired peers set t) := by
  obtain ⟨htx, hour, htal⟩ := foldl_setPeerVote_fields ops acquired (t := t) peers
    (DisputedTx.new t (ops.exists set t))
  have hl := lookup_foldl_setPeerVote ops acquired (t := t) peers hn
    (DisputedTx.new t (ops.exists set t))
  refine ⟨htal (DisputedTx.tallied_new _ _), htx, hour, fun p hv => ?_, fun p pos o hp _ ho => ?_⟩
  · rw [newDispute, hl] at hv
    -- a new dispute has no votes of its own, so the vote is a peer's
    cases hp : peers.lookup p
    · simp [hp, DisputedTx.new] at hv
    · rfl
  · rw [newDispute, hl, hp, Option.bind_some, ho]
    rfl

end NewDispute

/-! ## The disputes of a result -/

/-- The disputes of a result agree with the peers and the sets acquired, and every set compared has
its differences with ours disputed. The peers in `Ev` may still hold old votes, and those in `Ec`
may propose a set not compared yet. -/
structure DisputesAgree (acquired : List (SetID × TxSet)) (peers : List (NodeID × Proposal NodeID LedgerID SetID))
    (Ev Ec : NodeID → Prop) (r : Result NodeID LedgerID SetID TxID TxSet) : Prop where
  nodup : (AssocList.keys r.disputes).Nodup
  ok : ∀ t d, r.disputes.lookup t = some d → DisputeOK ops acquired peers Ev r.set t d
  compared : ∀ k ∈ r.compares, ∃ o, acquired.lookup k = some o ∧
    ∀ t, ops.exists r.set t ≠ ops.exists o t → (r.disputes.lookup t).isSome
  peersCompared : ∀ p pos, peers.lookup p = some pos → ¬ Ec p → (acquired.lookup pos.position).isSome →
    pos.position ∈ r.compares

section Agree

variable {ops} {acquired : List (SetID × TxSet)} {peers : List (NodeID × Proposal NodeID LedgerID SetID)}
  {Ev Ec : NodeID → Prop} {r : Result NodeID LedgerID SetID TxID TxSet}

theorem DisputesAgree.mono (h : DisputesAgree ops acquired peers Ev Ec r) {Ev' Ec' : NodeID → Prop}
    (hv : ∀ p, Ev p → Ev' p) (hc : ∀ p, Ec p → Ec' p) : DisputesAgree ops acquired peers Ev' Ec' r where
  nodup := h.nodup
  ok t d hd := (h.ok t d hd).mono hv
  compared := h.compared
  peersCompared p pos hp hn ho := h.peersCompared p pos hp (fun he => hn (hc p he)) ho

/-- Agreement reads only our set, the disputes and the sets compared. -/
theorem DisputesAgree.congr (h : DisputesAgree ops acquired peers Ev Ec r) {r' : Result NodeID LedgerID SetID TxID TxSet}
    (hs : r'.set = r.set) (hd : r'.disputes = r.disputes) (hc : r'.compares = r.compares) :
    DisputesAgree ops acquired peers Ev Ec r' where
  nodup := hd ▸ h.nodup
  ok t d hd' := hs ▸ h.ok t d (hd ▸ hd')
  compared k hk := hs ▸ hd ▸ h.compared k (hc ▸ hk)
  peersCompared p pos hp hn ho := hc ▸ h.peersCompared p pos hp hn ho

/-- A difference becomes a dispute that agrees, and the disputes there stay. -/
theorem addDispute_spec (hpn : (AssocList.keys peers).Nodup) {set : TxSet} {ds : List (TxID × DisputedTx TxID NodeID)}
    (hn : (AssocList.keys ds).Nodup) (hok : ∀ t d, ds.lookup t = some d → DisputeOK ops acquired peers Ev set t d)
    (id : TxID × Bool) :
    (AssocList.keys (addDispute ops acquired peers set ds id)).Nodup ∧
      (∀ t d, (addDispute ops acquired peers set ds id).lookup t = some d → DisputeOK ops acquired peers Ev set t d) ∧
      (∀ t, (ds.lookup t).isSome → (addDispute ops acquired peers set ds id).lookup t = ds.lookup t) ∧
      ((addDispute ops acquired peers set ds id).lookup id.1).isSome := by
  unfold addDispute
  split
  · rename_i hk
    exact ⟨hn, hok, fun _ _ => rfl, hk⟩
  · rename_i hk
    refine ⟨AssocList.nodup_emplace hn _ _, fun t d hd => ?_, fun t ht => ?_, ?_⟩
    · rw [AssocList.lookup_emplace, if_neg hk] at hd
      split at hd
      · rename_i he
        subst he
        rw [Option.some.injEq] at hd
        subst hd
        exact newDispute_ok hpn Ev
      · exact hok t d hd
    · obtain ⟨w, hw⟩ := Option.isSome_iff_exists.mp ht
      rw [hw]
      exact AssocList.lookup_emplace_of_isSome hw
    · rw [AssocList.lookup_emplace, if_neg hk, if_pos rfl]
      rfl

theorem foldl_addDispute_spec (hpn : (AssocList.keys peers).Nodup) {set : TxSet} :
    ∀ (L : List (TxID × Bool)) (ds : List (TxID × DisputedTx TxID NodeID)), (AssocList.keys ds).Nodup →
    (∀ t d, ds.lookup t = some d → DisputeOK ops acquired peers Ev set t d) →
    (AssocList.keys (L.foldl (addDispute ops acquired peers set) ds)).Nodup ∧
      (∀ t d, (L.foldl (addDispute ops acquired peers set) ds).lookup t = some d →
        DisputeOK ops acquired peers Ev set t d) ∧
      (∀ t, (ds.lookup t).isSome → ((L.foldl (addDispute ops acquired peers set) ds).lookup t).isSome) ∧
      ∀ e ∈ L, ((L.foldl (addDispute ops acquired peers set) ds).lookup e.1).isSome
  | [], _, hn, hok => ⟨hn, hok, fun _ h => h, fun _ h => absurd h List.not_mem_nil⟩
  | id :: L, ds, hn, hok => by
    obtain ⟨hn1, hok1, hkeep1, hnew1⟩ := addDispute_spec hpn hn hok id
    obtain ⟨hn2, hok2, hkeep2, hnew2⟩ := foldl_addDispute_spec hpn L _ hn1 hok1
    refine ⟨hn2, hok2, fun t ht => hkeep2 t ?_, fun e he => ?_⟩
    · rw [hkeep1 t ht]
      exact ht
    · rcases List.mem_cons.mp he with rfl | he
      · exact hkeep2 _ hnew1
      · exact hnew2 e he

/-- **Creating disputes against a set** leaves every difference with it disputed and its ID among
those compared, so the peers proposing it need not be exempted from being compared. -/
theorem DisputesAgree.createDisputes (hl : ops.Lawful) (h : DisputesAgree ops acquired peers Ev Ec r)
    (hpn : (AssocList.keys peers).Nodup) {o : TxSet} (ho : acquired.lookup (ops.id o) = some o) :
    DisputesAgree ops acquired peers Ev (fun p => Ec p ∧ ∀ pos, peers.lookup p = some pos → pos.position ≠ ops.id o)
      (createDisputes ops acquired peers o r) := by
  -- the peers proposing `o` are compared once its ID is in `compares`
  have hpc : ∀ (r' : Result NodeID LedgerID SetID TxID TxSet), (∀ k ∈ r.compares, k ∈ r'.compares) →
      ops.id o ∈ r'.compares → ∀ p pos, peers.lookup p = some pos →
        ¬ (Ec p ∧ ∀ pos, peers.lookup p = some pos → pos.position ≠ ops.id o) →
        (acquired.lookup pos.position).isSome → pos.position ∈ r'.compares := by
    intro r' hsub hin p pos hp hn ha
    by_cases he : pos.position = ops.id o
    · rw [he]
      exact hin
    · refine hsub _ (h.peersCompared p pos hp (fun hc => hn ⟨hc, fun pos' hp' => ?_⟩) ha)
      rw [hp, Option.some.injEq] at hp'
      exact hp' ▸ he
  unfold Round.createDisputes
  split
  · rename_i hin
    exact ⟨h.nodup, h.ok, h.compared, hpc r (fun _ h => h) hin⟩
  · dsimp only
    have hsub : ∀ k ∈ r.compares, k ∈ r.compares ++ [ops.id o] := fun k hk => List.mem_append_left _ hk
    have hin : ops.id o ∈ r.compares ++ [ops.id o] := List.mem_append_right _ (List.mem_singleton_self _)
    split
    · -- our set is `o`: nothing differs
      rename_i hid
      refine ⟨h.nodup, h.ok, fun k hk => ?_, hpc _ hsub hin⟩
      rcases List.mem_append.mp hk with hk | hk
      · exact h.compared k hk
      · rw [List.mem_singleton] at hk
        subst hk
        exact ⟨o, ho, fun t ht => absurd (hl.exists_of_id _ _ hid t) ht⟩
    · obtain ⟨hn, hok, hkeep, hnew⟩ := foldl_addDispute_spec hpn (ops.compare r.set o) r.disputes h.nodup h.ok
      refine ⟨hn, hok, fun k hk => ?_, hpc _ hsub hin⟩
      rcases List.mem_append.mp hk with hk | hk
      · obtain ⟨o', ho', hd⟩ := h.compared k hk
        exact ⟨o', ho', fun t ht => hkeep t (hd t ht)⟩
      · rw [List.mem_singleton] at hk
        subst hk
        refine ⟨o, ho, fun t ht => ?_⟩
        obtain ⟨v, hv⟩ := hl.compare_complete _ _ t ht
        exact hnew _ hv

/-- **A peer votes by its set on every dispute**, once that set is compared. -/
theorem DisputesAgree.updateDisputes (hl : ops.Lawful) (h : DisputesAgree ops acquired peers Ev Ec r)
    (hpn : (AssocList.keys peers).Nodup) {node : NodeID} {pos : Proposal NodeID LedgerID SetID} {other : TxSet}
    (hp : peers.lookup node = some pos) (ho : acquired.lookup pos.position = some other) (hid : ops.id other = pos.position) :
    DisputesAgree ops acquired peers (fun p => Ev p ∧ p ≠ node) (fun p => Ec p ∧ p ≠ node)
      (updateDisputes ops acquired peers node other r) := by
  -- first the set is compared
  have h1 : DisputesAgree ops acquired peers Ev (fun p => Ec p ∧ p ≠ node)
      (if ops.id other ∈ r.compares then r else Round.createDisputes ops acquired peers other r) := by
    split
    · rename_i hin
      refine ⟨h.nodup, h.ok, h.compared, fun p pos' hp' hn ha => ?_⟩
      by_cases hpn' : p = node
      · subst hpn'
        rw [hp, Option.some.injEq] at hp'
        subst hp'
        rw [← hid]
        exact hin
      · exact h.peersCompared p pos' hp' (fun hc => hn ⟨hc, hpn'⟩) ha
    · refine (h.createDisputes hl hpn (hid ▸ ho)).mono (fun _ h => h) fun p hc => ⟨hc.1, fun he => ?_⟩
      subst he
      exact hc.2 pos hp hid.symm
  -- then the peer votes on every dispute
  refine ⟨?_, fun t d hd => ?_, fun k hk => ?_, h1.peersCompared⟩
  · rw [Round.updateDisputes, AssocList.keys_mapVals]
    exact h1.nodup
  · rw [Round.updateDisputes, AssocList.lookup_mapVals] at hd
    obtain ⟨d₀, hd₀, rfl⟩ := Option.map_eq_some_iff.mp hd
    exact (h1.ok t d₀ hd₀).setVote hp ho
  · obtain ⟨o, ho', hd⟩ := h1.compared k hk
    refine ⟨o, ho', fun t ht => ?_⟩
    rw [Round.updateDisputes, AssocList.lookup_mapVals, Option.isSome_map]
    exact hd t ht

/-- Peers whose positions are not among the sets acquired need not be exempted. -/
theorem DisputesAgree.unexempt {E : NodeID → Prop} (h : DisputesAgree ops acquired peers (fun p => Ev p ∨ E p)
      (fun p => Ec p ∨ E p) r)
    (hE : ∀ p, E p → ∀ pos, peers.lookup p = some pos → acquired.lookup pos.position = none) :
    DisputesAgree ops acquired peers Ev Ec r where
  nodup := h.nodup
  ok t d hd := { h.ok t d hd with
    votes := fun p pos o hp hn ho => by
      by_cases hp' : E p
      · rw [hE p hp' pos hp] at ho
        exact absurd ho (by simp)
      · exact (h.ok t d hd).votes p pos o hp (fun he => he.elim hn hp') ho }
  compared := h.compared
  peersCompared p pos hp hn ho := by
    by_cases hp' : E p
    · rw [hE p hp' pos hp] at ho
      exact absurd ho (by simp)
    · exact h.peersCompared p pos hp (fun he => he.elim hn hp') ho

/-- A peer takes a new position. -/
theorem DisputesAgree.assign (h : DisputesAgree ops acquired peers Ev Ec r) (peer : NodeID)
    (newPos : Proposal NodeID LedgerID SetID) :
    DisputesAgree ops acquired (AssocList.assign peers peer newPos) (fun p => Ev p ∨ p = peer) (fun p => Ec p ∨ p = peer) r where
  nodup := h.nodup
  ok t d hd := (h.ok t d hd).assign peer newPos
  compared := h.compared
  peersCompared p pos hp hn ho := by
    rw [AssocList.lookup_assign, if_neg fun he => hn (Or.inr he)] at hp
    exact h.peersCompared p pos hp (fun he => hn (Or.inl he)) ho

/-- A set is acquired. -/
theorem DisputesAgree.acquire (h : DisputesAgree ops acquired peers Ev Ec r) (k : SetID) (o : TxSet) :
    DisputesAgree ops (AssocList.emplace acquired k o).2 peers
      (fun p => Ev p ∨ ∃ pos, peers.lookup p = some pos ∧ pos.position = k)
      (fun p => Ec p ∨ ∃ pos, peers.lookup p = some pos ∧ pos.position = k) r where
  nodup := h.nodup
  ok t d hd := (h.ok t d hd).acquire k o
  compared k' hk := by
    obtain ⟨o', ho', hd⟩ := h.compared k' hk
    exact ⟨o', AssocList.lookup_emplace_of_isSome ho', hd⟩
  peersCompared p pos hp hn ho := by
    have hk : pos.position ≠ k := fun he => hn (Or.inr ⟨pos, hp, he⟩)
    rw [AssocList.lookup_emplace, if_neg hk] at ho
    split at ho <;> exact h.peersCompared p pos hp (fun he => hn (Or.inl he)) ho

/-- A peer that leaves takes its votes back. -/
theorem DisputesAgree.unVoteAll (h : DisputesAgree ops acquired peers Ev Ec r) (peer : NodeID)
    {peers' : List (NodeID × Proposal NodeID LedgerID SetID)} (hgone : peers'.lookup peer = none)
    (hpeers : ∀ p, p ≠ peer → peers'.lookup p = peers.lookup p) :
    DisputesAgree ops acquired peers' Ev Ec (Round.unVoteAll peer r) where
  nodup := by
    rw [Round.unVoteAll, AssocList.keys_mapVals]
    exact h.nodup
  ok t d hd := by
    rw [Round.unVoteAll, AssocList.lookup_mapVals] at hd
    obtain ⟨d₀, hd₀, rfl⟩ := Option.map_eq_some_iff.mp hd
    exact (h.ok t d₀ hd₀).unVote peer hgone hpeers
  compared k hk := by
    obtain ⟨o, ho, hd⟩ := h.compared k hk
    refine ⟨o, ho, fun t ht => ?_⟩
    rw [Round.unVoteAll, AssocList.lookup_mapVals, Option.isSome_map]
    exact hd t ht
  peersCompared p pos hp hn ho := by
    have hpp : p ≠ peer := by
      rintro rfl
      rw [hgone] at hp
      exact absurd hp (by simp)
    exact h.peersCompared p pos (by rw [← hpeers p hpp]; exact hp) hn ho

/-- The loop of `closeLedger`: the peers of `L` whose set we have are compared. -/
theorem DisputesAgree.foldl_disputePeer (hl : ops.Lawful) (hpn : (AssocList.keys peers).Nodup)
    (hids : ∀ k o, acquired.lookup k = some o → ops.id o = k) :
    ∀ (L : List (NodeID × Proposal NodeID LedgerID SetID)) (r : Result NodeID LedgerID SetID TxID TxSet),
    (∀ e ∈ L, peers.lookup e.1 = some e.2) →
    DisputesAgree ops acquired peers Ev (fun p => Ec p ∨ ∃ pos, (p, pos) ∈ L) r →
    DisputesAgree ops acquired peers Ev Ec (L.foldl (disputePeer ops acquired peers) r)
  | [], r, _, h => h.mono (fun _ h => h) fun _ hp => by
      rcases hp with hp | ⟨_, hm⟩
      · exact hp
      · exact absurd hm List.not_mem_nil
  | (q, pos) :: L, r, hL, h => by
    have hq : peers.lookup q = some pos := hL _ List.mem_cons_self
    refine foldl_disputePeer hl hpn hids L _ (fun e he => hL e (List.mem_cons_of_mem _ he)) ?_
    -- the head is compared, or proposes a set we do not have
    have hrest : ∀ p, (Ec p ∨ ∃ pos', (p, pos') ∈ (q, pos) :: L) → p ≠ q → Ec p ∨ ∃ pos', (p, pos') ∈ L := by
      rintro p (hp | ⟨pos', hm⟩) hpq
      · exact Or.inl hp
      · rcases List.mem_cons.mp hm with he | he
        · exact absurd (Prod.mk.inj he).1 hpq
        · exact Or.inr ⟨pos', he⟩
    unfold disputePeer
    split
    · rename_i o ho
      refine (h.createDisputes hl hpn (hids _ _ ho ▸ ho)).mono (fun _ h => h) fun p hp => hrest p hp.1 ?_
      rintro rfl
      exact hp.2 pos hq (hids _ _ ho).symm
    · rename_i ho
      have h' : DisputesAgree ops acquired peers (fun p => Ev p ∨ p = q)
          (fun p => (Ec p ∨ ∃ pos', (p, pos') ∈ L) ∨ p = q) r :=
        h.mono (fun p hp => Or.inl hp) fun p hp => by
          by_cases hpq : p = q
          · exact Or.inr hpq
          · exact Or.inl (hrest p hp hpq)
      refine h'.unexempt fun p hpq pos' hp' => ?_
      subst hpq
      rw [hq, Option.some.injEq] at hp'
      subst hp'
      exact ho

/-- The loop of `gotTxSet` and `updateOurPositions`: the peers of `L` proposing the set acquired vote
by it. -/
theorem DisputesAgree.foldl_updatePeersOn (hl : ops.Lawful) (hpn : (AssocList.keys peers).Nodup) {k : SetID}
    {set : TxSet} (hset : acquired.lookup k = some set) (hid : ops.id set = k) :
    ∀ (L : List (NodeID × Proposal NodeID LedgerID SetID)) (r : Result NodeID LedgerID SetID TxID TxSet),
    (∀ e ∈ L, peers.lookup e.1 = some e.2) →
    DisputesAgree ops acquired peers (fun p => Ev p ∨ ∃ pos, (p, pos) ∈ L ∧ pos.position = k)
      (fun p => Ec p ∨ ∃ pos, (p, pos) ∈ L ∧ pos.position = k) r →
    DisputesAgree ops acquired peers Ev Ec
      (L.foldl (fun r it => if it.2.position = k then Round.updateDisputes ops acquired peers it.1 set r else r) r)
  | [], r, _, h => by
    have hnil : ∀ (E : NodeID → Prop) p, (E p ∨ ∃ pos, (p, pos) ∈ ([] : List (NodeID × Proposal NodeID LedgerID SetID)) ∧
        pos.position = k) → E p := by
      rintro E p (hp | ⟨_, hm, _⟩)
      · exact hp
      · exact absurd hm List.not_mem_nil
    exact h.mono (hnil Ev) (hnil Ec)
  | (q, pos) :: L, r, hL, h => by
    have hq : peers.lookup q = some pos := hL _ List.mem_cons_self
    refine foldl_updatePeersOn hl hpn hset hid L _ (fun e he => hL e (List.mem_cons_of_mem _ he)) ?_
    -- a peer other than the head, or the head when it proposes another set, stays exempt
    have hrest : ∀ (E : NodeID → Prop) p, (E p ∨ ∃ pos', (p, pos') ∈ (q, pos) :: L ∧ pos'.position = k) →
        (p = q → pos.position ≠ k) ∨ p ≠ q → E p ∨ ∃ pos', (p, pos') ∈ L ∧ pos'.position = k := by
      rintro E p (hp | ⟨pos', hm, hpos⟩) hpq
      · exact Or.inl hp
      · rcases List.mem_cons.mp hm with he | he
        · obtain ⟨rfl, rfl⟩ := Prod.mk.inj he
          rcases hpq with hpq | hpq
          · exact absurd hpos (hpq rfl)
          · exact absurd rfl hpq
        · exact Or.inr ⟨pos', he, hpos⟩
    dsimp only [List.foldl_cons]
    split
    · rename_i hpos
      exact (h.updateDisputes hl hpn hq (hpos ▸ hset) (hid.trans hpos.symm)).mono
        (fun p hp => hrest Ev p hp.1 (Or.inr hp.2)) fun p hp => hrest Ec p hp.1 (Or.inr hp.2)
    · rename_i hpos
      exact h.mono (fun p hp => hrest Ev p hp (Or.inl fun _ => hpos)) fun p hp => hrest Ec p hp (Or.inl fun _ => hpos)

/-- Peers leave, taking their votes back: `peers'` holds the other peers. -/
theorem DisputesAgree.foldl_unVoteAll : ∀ (G : List (NodeID × Proposal NodeID LedgerID SetID))
    {peers peers' : List (NodeID × Proposal NodeID LedgerID SetID)} {r : Result NodeID LedgerID SetID TxID TxSet},
    DisputesAgree ops acquired peers Ev Ec r → (∀ p ∈ AssocList.keys G, peers'.lookup p = none) →
    (∀ p, p ∉ AssocList.keys G → peers'.lookup p = peers.lookup p) →
    DisputesAgree ops acquired peers' Ev Ec (G.foldl (fun r it => Round.unVoteAll it.1 r) r)
  | [], _, _, _, h, _, hrest => by
    have hp : ∀ p, _ := fun p => hrest p List.not_mem_nil
    exact ⟨h.nodup, fun t d hd => (h.ok t d hd).restrict (fun p pos hq => ⟨(hp p).symm.trans hq, id⟩)
        (fun p hv => (hp p).symm ▸ (h.ok t d hd).voters p hv),
      h.compared, fun p pos hq => h.peersCompared p pos ((hp p).symm.trans hq)⟩
  | (q, _) :: G, peers, peers', r, h, hgone, hrest => by
    refine foldl_unVoteAll G (h.unVoteAll q (AssocList.lookup_erase peers q q ▸ if_pos rfl)
      (fun p hp => by rw [AssocList.lookup_erase, if_neg hp])) (fun p hp => hgone p (List.mem_cons_of_mem _ hp)) ?_
    intro p hp
    rw [AssocList.lookup_erase]
    split
    · rename_i hpq
      subst hpq
      exact hgone p List.mem_cons_self
    · exact hrest p (fun hm => (List.mem_cons.mp hm).elim ‹_› hp)

/-- `updateOurPositions` drops the stale peers with their votes. -/
theorem DisputesAgree.dropStale (h : DisputesAgree ops acquired peers Ev Ec r) (hpn : (AssocList.keys peers).Nodup)
    (stale : NodeID × Proposal NodeID LedgerID SetID → Bool) :
    DisputesAgree ops acquired (peers.filter fun it => !stale it) Ev Ec
      ((peers.filter stale).foldl (fun r it => Round.unVoteAll it.1 r) r) := by
  refine DisputesAgree.foldl_unVoteAll _ h ?_ ?_
  · intro p hp
    obtain ⟨⟨p', pos⟩, hm, rfl⟩ := List.mem_map.mp hp
    obtain ⟨hm, hs⟩ := List.mem_filter.mp hm
    rw [AssocList.lookup_filter hpn, AssocList.lookup_of_mem hpn hm, Option.filter_some, hs]
    rfl
  · intro p hp
    rw [AssocList.lookup_filter hpn]
    cases hq : peers.lookup p with
    | none => rfl
    | some pos =>
      have hs : stale (p, pos) = false :=
        Bool.eq_false_iff.mpr fun hs => hp (AssocList.mem_keys_of_mem
          (List.mem_filter.mpr ⟨AssocList.mem_of_lookup hq, hs⟩))
      rw [Option.filter_some, hs]
      rfl

/-- Exempted peers whose positions are not among the sets acquired are exempted no more. -/
theorem DisputesAgree.unexemptAll {E : NodeID → Prop} (h : DisputesAgree ops acquired peers E E r)
    (hE : ∀ p, E p → ∀ pos, peers.lookup p = some pos → acquired.lookup pos.position = none) :
    DisputesAgree ops acquired peers (fun _ => False) (fun _ => False) r :=
  (h.mono (fun _ => Or.inr) fun _ => Or.inr).unexempt hE

/-- A result with no disputes and nothing compared agrees, with every peer yet to be compared. -/
theorem DisputesAgree.empty (hd : r.disputes = []) (hc : r.compares = []) :
    DisputesAgree ops acquired peers Ev (fun p => Ec p ∨ ∃ pos, (p, pos) ∈ peers) r where
  nodup := by
    rw [hd]
    exact List.nodup_nil
  ok t d h := by
    rw [hd] at h
    exact absurd h (by simp)
  compared k hk := by
    rw [hc] at hk
    exact absurd hk List.not_mem_nil
  peersCompared p pos hp hn _ := absurd (Or.inr ⟨pos, AssocList.mem_of_lookup hp⟩) hn

/-- A peer bows out: it leaves the peers, with its votes. -/
theorem DisputesAgree.bowOut (h : DisputesAgree ops acquired peers Ev Ec r) (peer : NodeID) :
    DisputesAgree ops acquired (if (peers.lookup peer).isSome then AssocList.erase peers peer else peers) Ev Ec
      (Round.unVoteAll peer r) := by
  split
  · exact h.unVoteAll peer (by rw [AssocList.lookup_erase, if_pos rfl])
      fun p hp => by rw [AssocList.lookup_erase, if_neg hp]
  · rename_i hnone
    exact h.unVoteAll peer (Option.not_isSome_iff_eq_none.mp hnone) fun _ _ => rfl

/-- A set newly acquired: the peers proposing it vote by it, and an exempted peer proposing it is
exempted no more. -/
theorem DisputesAgree.updatePeersOn (hl : ops.Lawful) (hpn : (AssocList.keys peers).Nodup) {E : NodeID → Prop}
    (h : DisputesAgree ops acquired peers E E r) (o : TxSet) (hnew : acquired.lookup (ops.id o) = none) :
    DisputesAgree ops (AssocList.emplace acquired (ops.id o) o).2 peers
      (fun p => E p ∧ ∀ pos, peers.lookup p = some pos → pos.position ≠ ops.id o)
      (fun p => E p ∧ ∀ pos, peers.lookup p = some pos → pos.position ≠ ops.id o)
      (Round.updatePeersOn ops (AssocList.emplace acquired (ops.id o) o).2 peers (ops.id o) o r) := by
  have hset : (AssocList.emplace acquired (ops.id o) o).2.lookup (ops.id o) = some o := by
    rw [AssocList.lookup_emplace, hnew]
    simp
  -- an exempted peer proposing the new set becomes one of those the loop visits
  have hsplit : ∀ p, (E p ∨ ∃ pos, peers.lookup p = some pos ∧ pos.position = ops.id o) →
      (E p ∧ ∀ pos, peers.lookup p = some pos → pos.position ≠ ops.id o) ∨
        ∃ pos, (p, pos) ∈ peers ∧ pos.position = ops.id o := by
    intro p hp
    by_cases hk : ∃ pos, peers.lookup p = some pos ∧ pos.position = ops.id o
    · obtain ⟨pos, hpos, hk⟩ := hk
      exact Or.inr ⟨pos, AssocList.mem_of_lookup hpos, hk⟩
    · refine Or.inl ⟨hp.resolve_right hk, fun pos hpos he => hk ⟨pos, hpos, he⟩⟩
  exact DisputesAgree.foldl_updatePeersOn hl hpn hset rfl peers r (fun e he => AssocList.lookup_of_mem hpn he)
    ((h.acquire (ops.id o) o).mono hsplit hsplit)

end Agree


/-! ## Revoting -/

section Revote

variable {ops} (percentTime : Int) (proposing : Bool) (parms : ConsensusParms)

theorem foldl_revote_fst (set : TxSet) : ∀ (L : List (TxID × DisputedTx TxID NodeID)) acc,
    (L.foldl (revote ops percentTime proposing parms set) acc).1 =
      acc.1 ++ AssocList.mapVals (fun _ d => (d.updateVote percentTime proposing parms).2) L
  | [], acc => (List.append_nil _).symm
  | it :: L, acc => by
    rw [List.foldl_cons, foldl_revote_fst set L]
    simp [revote, AssocList.mapVals]

theorem updateVotes_fst (set : TxSet) (disputes : List (TxID × DisputedTx TxID NodeID)) :
    (updateVotes ops percentTime proposing parms set disputes).1 =
      AssocList.mapVals (fun _ d => (d.updateVote percentTime proposing parms).2) disputes :=
  foldl_revote_fst percentTime proposing parms set disputes ([], none)

/-- One revote moves the copy of our set on the dispute's transaction only, to the new vote. -/
theorem exists_revote (hl : ops.Lawful) (set : TxSet) (acc : List (TxID × DisputedTx TxID NodeID) × Option TxSet)
    {t₀ : TxID} {d : DisputedTx TxID NodeID} (hkey : d.tx = t₀) (hvote : d.ourVote = ops.exists (acc.2.getD set) t₀)
    (t : TxID) :
    ops.exists ((revote ops percentTime proposing parms set acc (t₀, d)).2.getD set) t =
      if t = t₀ then (d.updateVote percentTime proposing parms).2.ourVote else ops.exists (acc.2.getD set) t := by
  have htx := (DisputedTx.votes_updateVote percentTime proposing parms d).2.2.2
  have hfst := DisputedTx.updateVote_fst percentTime proposing parms d
  unfold revote
  dsimp only
  cases hu : (d.updateVote percentTime proposing parms).1
  · -- the vote stands
    rw [hu, eq_comm, bne_eq_false_iff_eq] at hfst
    simp only [Bool.false_eq_true, if_false]
    split
    · rename_i ht
      rw [ht, hfst, hvote]
    · rfl
  · simp only [if_true, Option.getD_some]
    split
    · rw [hl.exists_insert, htx, hkey]
      split <;> simp_all
    · rw [hl.exists_erase]
      split <;> simp_all

/-- The revote loop: each dispute's new vote is whether the final copy of our set has its
transaction, and the copy is unchanged on transactions not disputed. -/
theorem foldl_revote_snd (hl : ops.Lawful) (set : TxSet) : ∀ (L : List (TxID × DisputedTx TxID NodeID)) acc,
    (AssocList.keys L).Nodup →
    (∀ t d, L.lookup t = some d → d.tx = t ∧ d.ourVote = ops.exists (acc.2.getD set) t) →
    (∀ t d, L.lookup t = some d → (d.updateVote percentTime proposing parms).2.ourVote =
        ops.exists ((L.foldl (revote ops percentTime proposing parms set) acc).2.getD set) t) ∧
      ∀ t, L.lookup t = none →
        ops.exists ((L.foldl (revote ops percentTime proposing parms set) acc).2.getD set) t =
          ops.exists (acc.2.getD set) t
  | [], _, _, _ => ⟨fun _ _ hd => absurd hd (by simp), fun _ _ => rfl⟩
  | (t₀, d₀) :: L, acc, hn, hL => by
    have hn' : (AssocList.keys L).Nodup := (List.nodup_cons.mp hn).2
    have ht₀ : t₀ ∉ AssocList.keys L := (List.nodup_cons.mp hn).1
    obtain ⟨hkey, hvote⟩ := hL t₀ d₀ (AssocList.lookup_cons_eq L t₀ d₀)
    have hstep := exists_revote percentTime proposing parms hl set acc hkey hvote
    -- the disputes after the head still agree with the copy, which moved on `t₀` only
    have hL' : ∀ t d, L.lookup t = some d →
        d.tx = t ∧ d.ourVote = ops.exists ((revote ops percentTime proposing parms set acc (t₀, d₀)).2.getD set) t := by
      intro t d hd
      have htt : t ≠ t₀ := fun he => ht₀ (he ▸ AssocList.mem_keys_of_mem (AssocList.mem_of_lookup hd))
      rw [hstep, if_neg htt]
      exact hL t d (by rw [AssocList.lookup_cons_ne _ _ htt]; exact hd)
    obtain ⟨ih₁, ih₂⟩ := foldl_revote_snd hl set L _ hn' hL'
    rw [List.foldl_cons]
    refine ⟨fun t d hd => ?_, fun t ht => ?_⟩
    · by_cases htt : t = t₀
      · subst htt
        rw [AssocList.lookup_cons_eq, Option.some.injEq] at hd
        subst hd
        rw [ih₂ t (AssocList.lookup_eq_none_iff.mpr ht₀), hstep, if_pos rfl]
      · rw [AssocList.lookup_cons_ne _ _ htt] at hd
        exact ih₁ t d hd
    · have htt : t ≠ t₀ := by
        rintro rfl
        rw [AssocList.lookup_cons_eq] at ht
        exact absurd ht (by simp)
      rw [AssocList.lookup_cons_ne _ _ htt] at ht
      rw [ih₂ t ht, hstep, if_neg htt]

/-- Revoting keeps the disputes in agreement with the new copy of our set. -/
theorem DisputesAgree.updateVotes (hl : ops.Lawful) {acquired : List (SetID × TxSet)}
    {peers : List (NodeID × Proposal NodeID LedgerID SetID)} {Ev Ec : NodeID → Prop}
    {r : Result NodeID LedgerID SetID TxID TxSet} (h : DisputesAgree ops acquired peers Ev Ec r) :
    DisputesAgree ops acquired peers Ev Ec { r with
      disputes := (Round.updateVotes ops percentTime proposing parms r.set r.disputes).1,
      set := (Round.updateVotes ops percentTime proposing parms r.set r.disputes).2.getD r.set } := by
  obtain ⟨hnew, hsame⟩ := foldl_revote_snd percentTime proposing parms hl r.set r.disputes ([], none) h.nodup
    fun t d hd => ⟨(h.ok t d hd).keyed, (h.ok t d hd).ourVote⟩
  refine ⟨?_, fun t d hd => ?_, fun k hk => ?_, h.peersCompared⟩
  · dsimp only
    rw [updateVotes_fst, AssocList.keys_mapVals]
    exact h.nodup
  · dsimp only at hd
    rw [updateVotes_fst, AssocList.lookup_mapVals] at hd
    obtain ⟨d₀, hd₀, rfl⟩ := Option.map_eq_some_iff.mp hd
    exact (h.ok t d₀ hd₀).updateVote percentTime proposing parms (hnew t d₀ hd₀)
  · obtain ⟨o, ho, hdiff⟩ := h.compared k hk
    refine ⟨o, ho, fun t ht => ?_⟩
    dsimp only at ht ⊢
    rw [updateVotes_fst, AssocList.lookup_mapVals, Option.isSome_map]
    cases hd : r.disputes.lookup t with
    | some _ => rfl
    | none =>
      unfold Round.updateVotes at ht
      rw [hsame t hd] at ht
      exact hd ▸ hdiff t ht

end Revote


end Round

end Ripple
