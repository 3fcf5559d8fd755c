import Iuna.Domain.Chain

/-!
# Reachable ledgers

A ledger starts from a genesis block (`Initial`) and then changes in steps (`Step`): a block is
accepted, a block that is already known is received again, the pools of pending transactions
change, or old blocks are dropped from memory.  The changes of the pools are arbitrary here, so
whatever the node submits, evicts or resubmits is covered.

`step_accepted` says once what an accepted block does to a ledger (`Accepts`): the checks that it
has passed (`Prechecked`), the effects that were staged, and where they have gone.  Everything
that is proved about runs uses these facts and never unfolds block application again.
-/

namespace Iuna

namespace Ledger

open Runs

/-- What happens to a running ledger. -/
inductive Event
  | accepted (block : Block)
  | known (block : Block)
  | poolsChanged (pools : Pools)
  | historyPruned (recentLimit : ℕ)

/-- The block that an event adds to the chain. -/
def Event.acceptedBlock : Event → Option Block
  | .accepted block => some block
  | .known _ => none
  | .poolsChanged _ => none
  | .historyPruned _ => none

/-- The blocks that a run adds to the chain, oldest first. -/
def acceptedBlocks (events : List Event) : List Block := events.filterMap Event.acceptedBlock

@[simp] lemma acceptedBlocks_nil : acceptedBlocks [] = [] := rfl

@[simp] lemma acceptedBlocks_singleton (event : Event) :
    acceptedBlocks [event] = event.acceptedBlock.toList := by
  cases event <;> rfl

@[simp] lemma acceptedBlocks_append (events events' : List Event) :
    acceptedBlocks (events ++ events') = acceptedBlocks events ++ acceptedBlocks events' := by
  simp [acceptedBlocks]

variable [Crypto]

/-- The steps of a running ledger. -/
inductive Step : Ledger → Event → Ledger → Prop
  | accepted {ledger ledger' : Ledger} {block : Block} {verifyVdf : Bool} {nowMs : ℕ}
      (isNew : ledger.precheckBlockWithoutVdfAt block nowMs = .ok true)
      (applied : applyBlockWithVdfPolicy block verifyVdf nowMs ledger = .ok () ledger') :
      Step ledger (.accepted block) ledger'
  | known {ledger ledger' : Ledger} {block : Block} {verifyVdf : Bool} {nowMs : ℕ}
      (isKnown : ledger.precheckBlockWithoutVdfAt block nowMs = .ok false)
      (applied : applyBlockWithVdfPolicy block verifyVdf nowMs ledger = .ok () ledger') :
      Step ledger (.known block) ledger'
  | poolsChanged {ledger : Ledger} {pools : Pools} :
      Step ledger (.poolsChanged pools) (ledger.withPools pools)
  | historyPruned {ledger : Ledger} {recentLimit : ℕ} :
      Step ledger (.historyPruned recentLimit) (ledger.retainRecentChainBlocks recentLimit)

/-- The ledgers of a genesis block: a launch, or the first block of a snapshot. -/
inductive Initial : Ledger → Prop
  | launch {genesisAllocations : BTreeMap Str Amount} {genesisTransactions : List Transaction}
      {vdfRounds : ℕ} {launchProfile : LaunchProfile} {ledger : Ledger}
      (launched : newWithGenesisTransactions genesisAllocations genesisTransactions vdfRounds
        launchProfile = .ok ledger) : Initial ledger
  | snapshot {snapshot : ChainSnapshot} {ledger : Ledger}
      (restored : genesisFromSnapshot snapshot = .ok ledger) : Initial ledger

/-- A ledger that a genesis ledger reaches. -/
def Reachable (ledger : Ledger) : Prop :=
  ∃ genesis events, Initial genesis ∧ Run Step genesis events ledger

/-- A genesis ledger, whichever way it was made: the block is the one that the allocations and its
transactions determine, and the outputs and tickets are derived from it. -/
lemma initial_eq {ledger : Ledger} (initial : Initial ledger) :
    ∃ genesisAllocations genesis utxos vdfRounds launchProfile tickets context horizon,
      validateGenesisAllocations genesisAllocations = .ok () ∧
      genesis = buildGenesisBlock genesisAllocations genesis.transactions ∧
      utxosAfterGenesis genesisAllocations genesis = .ok utxos ∧
      genesisTickets genesisAllocations genesis launchProfile = .ok tickets ∧
      ledger = { atGenesis genesisAllocations genesis utxos vdfRounds launchProfile tickets context
        with ticketDrawHorizon := horizon } := by
  cases initial with
  | launch launched =>
    simp only [newWithGenesisTransactions, Outcome.bind_eq_ok] at launched
    obtain ⟨_, hallocations, utxos, hutxos, tickets, htickets, hcontext⟩ := launched
    split at hcontext
    · simp only [Outcome.bind_eq_ok, Outcome.pure_eq_ok] at hcontext
      obtain ⟨context, -, rfl⟩ := hcontext
      exact ⟨_, _, utxos, _, _, tickets, context, 0, hallocations, rfl, hutxos, htickets, rfl⟩
    · simp only [Outcome.bind_eq_ok, Outcome.pure_eq_ok] at hcontext
      obtain ⟨context, -, rfl⟩ := hcontext
      exact ⟨_, _, utxos, _, _, tickets, context, 0, hallocations, rfl, hutxos, htickets, rfl⟩
  | snapshot restored =>
    simp only [genesisFromSnapshot, Outcome.bind_eq_ok, Outcome.pure_eq_ok, Outcome.bailIf_eq_ok,
      not_not] at restored
    obtain ⟨genesis, -, _, hallocations, _, -, _, hgenesis, utxos, hutxos, context, -, tickets,
      htickets, rfl⟩ := restored
    exact ⟨_, genesis, utxos, _, _, tickets, context, _, hallocations, hgenesis, hutxos, htickets,
      rfl⟩

/-! ## The checks of an accepted block -/

/-- What a new block has passed before its transactions are applied. -/
structure Prechecked (ledger : Ledger) (block : Block) (nowMs : ℕ) : Prop where
  height : block.height = ledger.tip.height + 1
  prevHash : block.prevHash = ledger.tip.hash
  hash : block.computeHash = block.hash
  rewardAddress : ledger.checkRewardAddress block = .ok ()
  noReplay : ledger.ensureBlockTransactionsAreNotReplays block = .ok ()
  reward : ledger.expectedRewardForBlock block = .ok block.reward
  vdfRounds : ledger.expectedVdfRoundsForBlock block = .ok block.vdfRounds
  timestamp : ledger.checkTimestamp block nowMs = .ok ()
  transactionCount :
    block.transactions.length + block.transactionsV2.length
      ≤ ledger.launchProfile.maxBlockTransactions
  v2Active : block.transactionsV2 ≠ [] → transactionV2ActivationHeight ≤ block.height
  size : ∃ size, ledger.compactBlockContext.blockSizeBytes block = .ok size
    ∧ size ≤ ledger.launchProfile.maxBlockBytes
  anchorLimit : ensureMineAnchorLimit block.transactions = .ok ()
  hasBurn : ensureBlockHasBurn block.transactions block.transactionsV2 = .ok ()
  feePolicy : validateBlockFeePolicy block = .ok ()
  burnBundleSection : ledger.validateBurnBundleSectionForBlock block = .ok ()
  finalizer : ledger.checkFinalizer block = .ok ()

theorem precheck_eq_ok_true {ledger : Ledger} {block : Block} {nowMs : ℕ} :
    ledger.precheckBlockWithoutVdfAt block nowMs = .ok true ↔ ledger.Prechecked block nowMs := by
  by_cases hheight : block.height = ledger.tip.height + 1
  · have hnotOld : ¬ block.height ≤ ledger.tip.height := by omega
    have hactive : (if block.transactionsV2 ≠ [] then ensureTransactionV2Active block.height
        else pure ()) = .ok ⟨⟩ ↔
          (block.transactionsV2 ≠ [] → transactionV2ActivationHeight ≤ block.height) := by
      split
      · simp [ensureTransactionV2Active, *]
      · simp [*]
    by_cases hprev : block.prevHash = ledger.tip.hash
    · unfold precheckBlockWithoutVdfAt
      rw [if_neg hnotOld, if_neg (not_not_intro hheight), if_neg (not_not_intro hprev)]
      have hjoin (rest : Result Bool) : (if block.transactionsV2 ≠ [] then
          (ensureTransactionV2Active block.height >>= fun _ => rest) else rest)
          = (if block.transactionsV2 ≠ [] then ensureTransactionV2Active block.height
              else pure ()) >>= fun _ => rest := by
        split <;> rfl
      simp only [hjoin, Outcome.bind_eq_ok, Outcome.bailIf_eq_ok, Outcome.pure_eq_ok, hactive,
        not_not, not_lt, exists_const]
      constructor
      · rintro ⟨hhash, _, haddress, _, hreplay, reward, hreward, rfl, rounds, hrounds, rfl, _,
          htime, hcount, hv2, size, hsize, hmax, _, hanchor, _, hburn, _, hfee, _, hsect, _,
          hfinalizer, -⟩
        exact ⟨hheight, hprev, hhash, haddress, hreplay, hreward, hrounds, htime, hcount, hv2,
          ⟨size, hsize, hmax⟩, hanchor, hburn, hfee, hsect, hfinalizer⟩
      · intro h
        obtain ⟨size, hsize, hmax⟩ := h.size
        exact ⟨h.hash, _, h.rewardAddress, _, h.noReplay, _, h.reward, rfl, _, h.vdfRounds, rfl, _,
          h.timestamp, h.transactionCount, h.v2Active, size, hsize, hmax, _, h.anchorLimit, _,
          h.hasBurn, _, h.feePolicy, _, h.burnBundleSection, _, h.finalizer, trivial⟩
    · constructor
      · intro h
        simp [precheckBlockWithoutVdfAt, hheight, hprev] at h
      · exact fun h => absurd h.prevHash hprev
  · constructor
    · intro h
      unfold precheckBlockWithoutVdfAt at h
      split at h
      · simp only [Outcome.bind_eq_ok] at h
        obtain ⟨existing, -, h⟩ := h
        split at h <;> simp at h
      · cases h
    · exact fun h => absurd h.height hheight

/-! ## The effects of an accepted block -/

/-- One round of the loop over the legacy transactions of a block. -/
abbrev TransactionRound (ledger : Ledger) (block : Block) (before : List Str × LineageState)
    (transaction : Transaction) (after : List Str × LineageState) : Prop :=
  ledger.applyBlockTransaction block before.1 transaction before.2 = .ok after.1 after.2

/-- One round of the loop over the envelopes of a block. -/
abbrev EnvelopeRound (ledger : Ledger) (block : Block) (domain : TransactionV2Domain)
    (before : EnvelopeState × LineageState) (envelope : Str)
    (after : EnvelopeState × LineageState) : Prop :=
  ledger.applyBlockEnvelope block domain before.1 envelope before.2 = .ok after.1 after.2

/-- How the effects of a block come about: its legacy transactions, its envelopes and its reward
in this order, on the state before the block. -/
structure Staged (ledger : Ledger) (block : Block) (effects : BlockEffects) (seen : List Str)
    (middle last : LineageState) (domain : TransactionV2Domain) : Prop where
  transactionV2Domain : ledger.transactionV2Domain = .ok domain
  transactions : Run (ledger.TransactionRound block) ([], ledger.toLineageState)
    block.transactions (seen, middle)
  envelopes : Run (ledger.EnvelopeRound block domain)
    ({ bindings := ledger.hybridLegacyOwners, transactionV2Ids := [] }, middle)
    block.transactionsV2 (effects.envelopes, last)
  reward : ledger.expectedRewardForBlock block = .ok block.reward
  tickets : ledger.ticketsAfterBlock block = .ok effects.tickets
  credited : creditRewardOutputs last.utxos block (ledger.burnCommitteeForBlock block)
    = .ok effects.state.utxos
  lineage : effects.state = { last with utxos := effects.state.utxos }

theorem stageBlock_eq_ok {ledger : Ledger} {block : Block} {effects : BlockEffects} :
    ledger.stageBlock block = .ok effects ↔
      ∃ seen middle last domain, ledger.Staged block effects seen middle last domain := by
  simp only [stageBlock, Outcome.bind_eq_ok, Outcome.bailIf_eq_ok, Outcome.pure_eq_ok,
    Mutate.outcome_eq_ok, Mutate.foldlM_run, not_not, exists_const, Prod.exists]
  constructor
  · rintro ⟨seen, middle, htransactions, domain, hdomain, envelopes, last, henvelopes, _, hreward,
      rfl, tickets, htickets, utxos, hcredited, rfl⟩
    exact ⟨seen, middle, last, domain, hdomain, htransactions, henvelopes, hreward, htickets,
      hcredited, rfl⟩
  · rintro ⟨seen, middle, last, domain, h⟩
    obtain ⟨state, envelopes, tickets⟩ := effects
    exact ⟨seen, middle, h.transactions, domain, h.transactionV2Domain, envelopes, last, h.envelopes, _,
      h.reward, rfl, tickets, h.tickets, state.utxos, h.credited, by rw [← h.lineage]⟩

/-- What an accepted block does to the ledger. -/
structure Accepts (ledger : Ledger) (block : Block) (effects : BlockEffects) (ledger' : Ledger) :
    Prop where
  prechecked : ∃ nowMs, ledger.Prechecked block nowMs
  staged : ledger.stageBlock block = .ok effects
  chain : ledger'.chain = ledger.chain ++ [block]
  lineageState : ledger'.toLineageState = effects.state
  hybridLegacyOwners : ledger'.hybridLegacyOwners = effects.envelopes.bindings
  tickets : ledger'.tickets = effects.tickets
  minedTransactionIds : ledger'.minedTransactionIds =
    insertIds (insertIds ledger.minedTransactionIds (block.transactions.map Transaction.signature))
      effects.envelopes.transactionV2Ids
  genesisAllocations : ledger'.genesisAllocations = ledger.genesisAllocations
  launchProfile : ledger'.launchProfile = ledger.launchProfile

omit [Crypto] in
lemma recordTicketDraw_eq (ledger : Ledger) (height : ℕ) (draw : Option ResidentTicketDraw) :
    ∃ draws, ledger.recordTicketDraw height draw = { ledger with residentTicketDraws := draws } := by
  cases draw with
  | none => exact ⟨ledger.residentTicketDraws, rfl⟩
  | some draw => exact ⟨_, rfl⟩

omit [Crypto] in
lemma recordVdfRetargetObservation_eq (ledger : Ledger) (block : Block) :
    ∃ observations, ledger.recordVdfRetargetObservation block =
      { ledger with vdfRetargetObservations := observations } := by
  unfold recordVdfRetargetObservation
  split
  · exact ⟨ledger.vdfRetargetObservations, rfl⟩
  · split
    · exact ⟨ledger.vdfRetargetObservations, rfl⟩
    · exact ⟨_, rfl⟩

omit [Crypto] in
lemma updateMineDifficultyCacheAfterTip_eq (ledger : Ledger) :
    ∃ windows, ledger.updateMineDifficultyCacheAfterTip =
      { ledger with mineDifficultyWindows := windows } := by
  unfold updateMineDifficultyCacheAfterTip
  dsimp only
  split
  · exact ⟨ledger.mineDifficultyWindows, rfl⟩
  · split
    · exact ⟨ledger.mineDifficultyWindows, rfl⟩
    · exact ⟨_, rfl⟩

/-- The commit of a block writes the staged maps, the mined ids, the chain and the size context,
and beside them only the bookkeeping of draws, retargets and finality. -/
lemma recordBlock_eq (ledger : Ledger) (block : Block) (effects : BlockEffects)
    (compactBlockContext : CompactBlockContext) :
    ∃ draws observations windows checkpoint,
      ledger.recordBlock block effects compactBlockContext = { ledger.pushBlock block with
        toLineageState := effects.state
        hybridLegacyOwners := effects.envelopes.bindings
        tickets := effects.tickets
        compactBlockContext := compactBlockContext
        minedTransactionIds := insertIds
          (insertIds ledger.minedTransactionIds (block.transactions.map Transaction.signature))
          effects.envelopes.transactionV2Ids
        residentTicketDraws := draws
        vdfRetargetObservations := observations
        mineDifficultyWindows := windows
        objectiveFinalityCheckpoint := checkpoint } := by
  unfold recordBlock
  dsimp only
  obtain ⟨draws, hdraws⟩ := recordTicketDraw_eq { ledger with
    toLineageState := effects.state
    hybridLegacyOwners := effects.envelopes.bindings
    tickets := effects.tickets
    compactBlockContext := compactBlockContext
    minedTransactionIds := insertIds
      (insertIds ledger.minedTransactionIds (block.transactions.map Transaction.signature))
      effects.envelopes.transactionV2Ids } block.height (ledger.ticketDrawBefore block)
  rw [hdraws]
  obtain ⟨observations, hobservations⟩ := recordVdfRetargetObservation_eq _ block
  rw [hobservations]
  obtain ⟨windows, hwindows⟩ := updateMineDifficultyCacheAfterTip_eq _
  rw [hwindows]
  cases ledger.certifiedParent block with
  | none => exact ⟨draws, observations, windows, ledger.objectiveFinalityCheckpoint, rfl⟩
  | some checkpoint => exact ⟨draws, observations, windows, some checkpoint, rfl⟩

/-- The commit touches neither the pools nor what the v2 domain is made of. -/
lemma recordBlock_domain (ledger : Ledger) (block : Block) (effects : BlockEffects)
    (context : CompactBlockContext) :
    (ledger.recordBlock block effects context).toPools = ledger.toPools ∧
      (ledger.recordBlock block effects context).transactionV2Domain
        = ledger.transactionV2Domain := by
  obtain ⟨draws, observations, windows, checkpoint, hrecord⟩ :=
    recordBlock_eq ledger block effects context
  rw [hrecord]
  refine ⟨rfl, ?_⟩
  have hgenesis : (ledger.pushBlock block).genesisHash = ledger.genesisHash := by
    unfold genesisHash genesis
    simp only [pushBlock_chain]
    rw [List.head_append_of_ne_nil ledger.chainNonempty]
  unfold transactionV2Domain
  rw [← hgenesis]
  rfl

/-- A successful application of a block is one of two things: the block was known, and nothing has
changed, or it is new and has been committed. -/
theorem applyBlockWithVdfPolicy_eq_ok {ledger ledger' : Ledger} {block : Block} {verify : Bool}
    {nowMs : ℕ} {u : Unit}
    (applied : applyBlockWithVdfPolicy block verify nowMs ledger = .ok u ledger') :
    (ledger.precheckBlockWithoutVdfAt block nowMs = .ok false ∧ ledger' = ledger) ∨
      ∃ effects compactBlockContext pools,
        ledger.precheckBlockWithoutVdfAt block nowMs = .ok true ∧
        (verify = true → verifyVdf block.vdfSeed block.vdfRounds block.vdfOutput = true) ∧
        ledger.stageBlock block = .ok effects ∧
        ledger.compactBlockContext.appendBlock block = .ok compactBlockContext ∧
        (ledger.recordBlock block effects compactBlockContext).refreshPools
            (block.transactions.map Transaction.signature)
            (ledger.recordBlock block effects compactBlockContext).toPools = .ok () pools ∧
        ledger' = { (ledger.recordBlock block effects compactBlockContext).withPools pools with
          vdfRounds := ((ledger.recordBlock block effects compactBlockContext).withPools
            pools).nextVdfRoundsAfterTip } := by
  unfold applyBlockWithVdfPolicy at applied
  simp only [Mutate.get_bind_eq_ok, Mutate.liftM_eq_lift, Mutate.lift_bind_eq_ok] at applied
  obtain ⟨isNew, hprecheck, applied⟩ := applied
  cases isNew with
  | false =>
    rw [if_neg (by simp), Mutate.pure_eq_ok] at applied
    exact .inl ⟨hprecheck, applied.2.symm⟩
  | true =>
    rw [if_pos rfl] at applied
    simp only [Mutate.lift_bind_eq_ok, Mutate.set_bind_eq_ok, Mutate.get_bind_eq_ok,
      Outcome.bailIf_eq_ok] at applied
    obtain ⟨-, hvdf, effects, heffects, context, hcontext, applied⟩ := applied
    rw [Mutate.bind_eq_ok] at applied
    obtain ⟨_, refreshed, hrefresh, applied⟩ := applied
    obtain ⟨pools, hpools, rfl⟩ := Mutate.zoom_eq_ok.mp hrefresh
    rw [Mutate.modify_eq_ok] at applied
    refine .inr ⟨effects, context, pools, hprecheck, ?_, heffects, hcontext, hpools, applied.symm⟩
    intro hverify
    simpa [hverify] using hvdf

/-- **Acceptance.** What a step that accepts a block does to the ledger. -/
theorem step_accepted {ledger ledger' : Ledger} {block : Block}
    (step : Step ledger (.accepted block) ledger') :
    ∃ effects, ledger.Accepts block effects ledger' := by
  cases step with
  | accepted isNew applied =>
    rcases applyBlockWithVdfPolicy_eq_ok applied with ⟨isKnown, -⟩ | h
    · rw [isNew] at isKnown
      cases isKnown
    · obtain ⟨effects, context, pools, -, -, heffects, -, -, rfl⟩ := h
      obtain ⟨draws, observations, windows, checkpoint, hrecord⟩ :=
        recordBlock_eq ledger block effects context
      rw [hrecord]
      exact ⟨effects, {
        prechecked := ⟨_, precheck_eq_ok_true.mp isNew⟩
        staged := heffects
        chain := rfl
        lineageState := rfl
        hybridLegacyOwners := rfl
        tickets := rfl
        minedTransactionIds := rfl
        genesisAllocations := rfl
        launchProfile := rfl }⟩

lemma step_known {ledger ledger' : Ledger} {block : Block}
    (step : Step ledger (.known block) ledger') : ledger' = ledger := by
  cases step with
  | known isKnown applied =>
    rcases applyBlockWithVdfPolicy_eq_ok applied with ⟨-, h⟩ | ⟨_, _, _, isNew, -⟩
    · exact h
    · rw [isKnown] at isNew
      cases isNew

lemma Accepts.tip {ledger ledger' : Ledger} {block : Block} {effects : BlockEffects}
    (accepts : ledger.Accepts block effects ledger') : ledger'.tip = block := by
  simp [Ledger.tip, accepts.chain]

lemma Accepts.tip_height {ledger ledger' : Ledger} {block : Block} {effects : BlockEffects}
    (accepts : ledger.Accepts block effects ledger') :
    ledger'.tip.height = ledger.tip.height + 1 := by
  obtain ⟨_, hprechecked⟩ := accepts.prechecked
  rw [accepts.tip, hprechecked.height]

lemma Accepts.genesis {ledger ledger' : Ledger} {block : Block} {effects : BlockEffects}
    (accepts : ledger.Accepts block effects ledger') : ledger'.genesis = ledger.genesis := by
  simp [Ledger.genesis, accepts.chain, ledger.chainNonempty]

/-! ## Dropping old blocks -/

section Retain

omit [Crypto]

variable (ledger : Ledger) (recentLimit : ℕ)

lemma retainRecentChainBlocks_eq : ∃ chain nonempty pruned,
    ledger.retainRecentChainBlocks recentLimit = { ledger with
      chain := chain
      chainNonempty := nonempty
      historyPruned := pruned } := by
  unfold retainRecentChainBlocks
  dsimp only
  split
  · exact ⟨ledger.chain, ledger.chainNonempty, ledger.historyPruned, rfl⟩
  · exact ⟨ledger.genesis :: _, by simp, true, rfl⟩

@[simp] lemma retainRecentChainBlocks_toLineageState :
    (ledger.retainRecentChainBlocks recentLimit).toLineageState = ledger.toLineageState := by
  obtain ⟨_, _, _, h⟩ := retainRecentChainBlocks_eq ledger recentLimit
  rw [h]

@[simp] lemma retainRecentChainBlocks_hybridLegacyOwners :
    (ledger.retainRecentChainBlocks recentLimit).hybridLegacyOwners
      = ledger.hybridLegacyOwners := by
  obtain ⟨_, _, _, h⟩ := retainRecentChainBlocks_eq ledger recentLimit
  rw [h]

@[simp] lemma retainRecentChainBlocks_tickets :
    (ledger.retainRecentChainBlocks recentLimit).tickets = ledger.tickets := by
  obtain ⟨_, _, _, h⟩ := retainRecentChainBlocks_eq ledger recentLimit
  rw [h]

@[simp] lemma retainRecentChainBlocks_minedTransactionIds :
    (ledger.retainRecentChainBlocks recentLimit).minedTransactionIds
      = ledger.minedTransactionIds := by
  obtain ⟨_, _, _, h⟩ := retainRecentChainBlocks_eq ledger recentLimit
  rw [h]

@[simp] lemma retainRecentChainBlocks_launchProfile :
    (ledger.retainRecentChainBlocks recentLimit).launchProfile = ledger.launchProfile := by
  obtain ⟨_, _, _, h⟩ := retainRecentChainBlocks_eq ledger recentLimit
  rw [h]

@[simp] lemma retainRecentChainBlocks_genesis :
    (ledger.retainRecentChainBlocks recentLimit).genesis = ledger.genesis := by
  unfold retainRecentChainBlocks
  dsimp only
  split
  · rfl
  · rfl

/-- The newest block stays: at least one recent block is kept. -/
@[simp] lemma retainRecentChainBlocks_tip :
    (ledger.retainRecentChainBlocks recentLimit).tip = ledger.tip := by
  unfold retainRecentChainBlocks
  dsimp only
  split
  · rfl
  · rename_i hlong
    have hdrop : ledger.chain.drop (ledger.chain.length - max recentLimit 1) ≠ [] := by
      rw [Ne, List.drop_eq_nil_iff]
      omega
    simp only [Ledger.tip]
    rw [List.getLast_cons hdrop, List.getLast_drop]

end Retain

/-! ## Rules for runs -/

/-- A relation between the blocks accepted so far and the ledger, which every accepted block
extends and which neither the pools nor the dropping of old blocks touch, holds along every
run. -/
theorem run_track (R : List Block → Ledger → Prop) {genesis ledger : Ledger} {events : List Event}
    (run : Run Step genesis events ledger) (start : R [] genesis)
    (accepted : ∀ blocks ledger block effects ledger', R blocks ledger →
      ledger.Accepts block effects ledger' → R (blocks ++ [block]) ledger')
    (poolsChanged : ∀ blocks ledger pools, R blocks ledger → R blocks (ledger.withPools pools))
    (historyPruned : ∀ blocks ledger recentLimit, R blocks ledger →
      R blocks (ledger.retainRecentChainBlocks recentLimit)) :
    R (acceptedBlocks events) ledger := by
  refine run.track (fun events ledger => R (acceptedBlocks events) ledger) ?_ start
  intro done ledger event ledger' hR step
  rw [acceptedBlocks_append, acceptedBlocks_singleton]
  cases event with
  | accepted block =>
    obtain ⟨effects, accepts⟩ := step_accepted step
    exact accepted _ _ _ _ _ hR accepts
  | known block =>
    rw [step_known step]
    simpa [Event.acceptedBlock] using hR
  | poolsChanged pools =>
    cases step
    simpa [Event.acceptedBlock] using poolsChanged _ _ _ hR
  | historyPruned recentLimit =>
    cases step
    simpa [Event.acceptedBlock] using historyPruned _ _ _ hR

end Ledger

end Iuna
