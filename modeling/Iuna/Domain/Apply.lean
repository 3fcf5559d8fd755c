import Iuna.Domain.Reveal
import Mathlib.Data.List.Sort

/-!
# Block application

`ledger_apply.rs`: the checks a block passes before its state transition, the transition itself on
staged copies of the maps, and the trusted replay that rebuilds the derived state of blocks this
node has validated before.  Both paths end with the same bookkeeping (`recordBlock`); the
validating one then refreshes the pools.

`applyBlockWithVdfPolicy` is a function on the ledger as `&mut self`: an error before the commit
leaves the ledger as it was, an error of the pool refresh leaves the block applied.
-/

namespace Iuna

/-- `reward_address_payload`. -/
def rewardAddressPayload (height : ℕ) (prevHash miner rewardAddress : Str) : Str :=
  colons [str "iuna-hybrid-reward-v1", decimal height, prevHash, miner, rewardAddress]

namespace Ledger

variable [Crypto]

/-! ## Rewards and replays -/

/-- `transaction_v2_fees`. -/
def transactionV2Fees (ledger : Ledger) (envelopes : List Str) : Result Amount := do
  let domain ← ledger.transactionV2Domain
  envelopes.foldlM (fun total envelope => do
    let transaction ← decodeCanonicalTransactionV2Envelope envelope domain
    bailIf (transaction.fee = 0) "block transaction v2 fee must be greater than zero"
    orError "block transaction v2 fees overflow" (checkedAdd total transaction.fee)) 0

/-- `expected_reward_for_next_block`. -/
def expectedRewardForNextBlock (ledger : Ledger) (transactions : List Transaction)
    (transactionsV2 : List Str) : Result Amount := do
  let v2Fees ← ledger.transactionV2Fees transactionsV2
  blockReward transactions v2Fees

/-- `expected_reward_for_block`. -/
def expectedRewardForBlock (ledger : Ledger) (block : Block) : Result Amount :=
  ledger.expectedRewardForNextBlock block.transactions block.transactionsV2

/-- One envelope of `ensure_block_transactions_are_not_replays`, with the ids seen. -/
def checkEnvelopeReplay (ledger : Ledger) (domain : TransactionV2Domain) (seen : List Str)
    (envelope : Str) : Result (List Str) := do
  let transaction ← decodeCanonicalTransactionV2Envelope envelope domain
  let transactionId ← transaction.transactionId domain
  let id := hexEncode transactionId.val
  bailIf (id ∈ seen) "duplicate transaction v2 in block"
  bailIf (id ∈ ledger.minedTransactionIds) "block replays a previously mined transaction v2"
  pure (id :: seen)

/-- `ensure_block_transactions_are_not_replays`. -/
def ensureBlockTransactionsAreNotReplays (ledger : Ledger) (block : Block) : Result Unit :=
  if block.height < transactionReplayProtectionActivationHeight then pure ()
  else do
    bailIf (block.transactions.any fun transaction =>
        transaction.signature ∈ ledger.minedTransactionIds)
      "block replays a previously mined transaction"
    let domain ← ledger.transactionV2Domain
    let _ ← block.transactionsV2.foldlM (ledger.checkEnvelopeReplay domain) []
    pure ()

/-! ## The precheck -/

omit [Crypto] in
/-- `median_time_past`. -/
def medianTimePast (ledger : Ledger) : ℕ :=
  let timestamps := ((ledger.chain.reverse.take blockMedianTimePastWindow).map
    Block.timestampMs).insertionSort (· ≤ ·)
  timestamps.getD (timestamps.length / 2) 0

/-- The reward address of a block and the signature that binds it to the finalizer. -/
def checkRewardAddress (ledger : Ledger) (block : Block) : Result Unit := do
  ledger.validateRewardAddress block.height block.rewardAddress "finalizer"
  if block.height < hybridRewardActivationHeight then
    bailIf block.rewardAddressSignature.isSome
      "finalizer reward address signature is not active yet"
  else do
    let rewardAddress ← orError "finalizer hybrid reward address is required" block.rewardAddress
    let signature ← orError "finalizer reward address signature is required"
      block.rewardAddressSignature
    verifyAddressSignature block.miner
      (rewardAddressPayload block.height block.prevHash block.miner rewardAddress) signature
      "finalizer reward address"

omit [Crypto] in
/-- The timestamp rules of a block. -/
def checkTimestamp (ledger : Ledger) (block : Block) (nowMs : ℕ) : Result Unit := do
  bailIf (block.timestampMs ≤ ledger.tip.timestampMs) "block timestamp must increase"
  if block.finalizerMode = .ticket then do
    let minTimestamp ← ticketBlockMinTimestamp ledger.tip block.finalizerRank
    if block.timestampMs < minTimestamp then
      Except.error (Error.validation
        (.blockBeforeFinalizerRankSlot block.finalizerRank minTimestamp))
  bailIf (block.timestampMs ≤ ledger.medianTimePast)
    "block timestamp must exceed median time past"
  if saturatingAdd nowMs maxBlockTimestampFutureDriftMs < block.timestampMs then
    Except.error (Error.validation .blockTimestampTooFarInFuture)

/-- The right of the finalizer to finalize the block. -/
def checkFinalizer (ledger : Ledger) (block : Block) : Result Unit :=
  match block.finalizerMode with
  | .ticket => do
    let selectedTicket ← orError "no selected ticket for block finalizer rank"
      (ledger.ticketForFinalizerRank block.height block.finalizerRank)
    bailIf (selectedTicket.owner ≠ block.miner)
      s!"block finalizer {String.ofList block.miner} is not selected for rank {block.finalizerRank}"
    bailIf (block.leaderProof.map LeaderProof.ticketId ≠ some selectedTicket.id)
      "block does not prove the selected leader ticket"
    verifyLeaderProof block ledger.tickets
  | .recovery => ensureValidRecoveryBlock block ledger.tip

/-- `precheck_block_without_vdf_at`: whether the block is new, after every check but the VDF. -/
def precheckBlockWithoutVdfAt (ledger : Ledger) (block : Block) (nowMs : ℕ) : Result Bool :=
  if block.height ≤ ledger.tip.height then do
    let existing ← orError s!"local chain has no block at height {block.height}"
      (ledger.chain.find? fun known => known.height = block.height)
    if existing.hash = block.hash then pure false
    else .error (.validation (.blockConflictsWithLocalChain block.height))
  else if block.height ≠ ledger.tip.height + 1 then
    .error (.validation (.unexpectedBlockHeight (ledger.tip.height + 1) block.height))
  else if block.prevHash ≠ ledger.tip.hash then
    .error (.validation .blockDoesNotExtendLocalTip)
  else do
    bailIf (block.computeHash ≠ block.hash) "block hash is invalid"
    ledger.checkRewardAddress block
    ledger.ensureBlockTransactionsAreNotReplays block
    let expectedReward ← ledger.expectedRewardForBlock block
    bailIf (block.reward ≠ expectedReward) "block reward is invalid"
    let expectedVdfRounds ← ledger.expectedVdfRoundsForBlock block
    bailIf (block.vdfRounds ≠ expectedVdfRounds) "block VDF rounds are invalid"
    ledger.checkTimestamp block nowMs
    bailIf (ledger.launchProfile.maxBlockTransactions
        < block.transactions.length + block.transactionsV2.length)
      "block has too many transactions"
    if block.transactionsV2 ≠ [] then
      ensureTransactionV2Active block.height
    let size ← ledger.compactBlockContext.blockSizeBytes block
    bailIf (ledger.launchProfile.maxBlockBytes < size) "block exceeds max block size"
    ensureMineAnchorLimit block.transactions
    ensureBlockHasBurn block.transactions block.transactionsV2
    validateBlockFeePolicy block
    ledger.validateBurnBundleSectionForBlock block
    ledger.checkFinalizer block
    pure true

/-! ## The transition -/

/-- The checkpoint that a block certifies: its parent. -/
def certifiedParent (ledger : Ledger) (block : Block) : Option FinalityCheckpoint :=
  if blockCertifiesParent block (ledger.burnCommitteeForBlock block).length then
    some { height := ledger.tip.height, hash := ledger.tip.hash }
  else none

/-- One transaction of a block, with the signatures seen. -/
def applyBlockTransaction (ledger : Ledger) (block : Block) (seen : List Str)
    (transaction : Transaction) : Mutate Error LineageState (List Str) := do
  bailIf (transaction.signature ∈ seen) "duplicate transaction in block"
  ledger.validateTransactionTerms transaction
  ledger.validateTransactionAnchorForBlock transaction block.height
  applyTransactionWithLineage transaction block.height
    (some (ledger.transactionSigningDomainAt block.height))
  pure (transaction.signature :: seen)

/-- The maps that the v2 transactions of a block change, and the ids seen. -/
structure EnvelopeState where
  bindings : BTreeMap Str Str
  transactionV2Ids : List Str

/-- One envelope of a block. -/
def applyBlockEnvelope (ledger : Ledger) (block : Block) (domain : TransactionV2Domain)
    (state : EnvelopeState) (envelope : Str) : Mutate Error LineageState EnvelopeState := do
  let transaction ← decodeCanonicalTransactionV2Envelope envelope domain
  ledger.validateTransactionV2AnchorForBlock transaction block.height
  transaction.validateAuthorizationPolicyAtHeight block.height
  let transactionId ← transaction.transactionId domain
  bailIf (hexEncode transactionId.val ∈ state.transactionV2Ids)
    "duplicate transaction v2 in block"
  applyTransactionV2WithLineage transaction domain ledger.network true
  let bindings ← recordHybridLegacyOwnerBindings state.bindings transaction ledger.network
  pure { bindings := bindings, transactionV2Ids := hexEncode transactionId.val :: state.transactionV2Ids }

/-- The ids of the transactions of a block join the mined ones. -/
def insertIds (ids : BTreeSet Str) (newIds : List Str) : BTreeSet Str :=
  newIds.foldl (fun ids id => ids.insert id ()) ids

/-- The state of the outputs, the bindings and the tickets after a block. -/
structure BlockEffects where
  state : LineageState
  envelopes : EnvelopeState
  tickets : List BurnTicket

/-- The tickets after a block: the finalizer's effects, then the tickets its burns create. -/
def ticketsAfterBlock (ledger : Ledger) (block : Block) : Result (List BurnTicket) := do
  let tickets ← applyFinalizerTicketEffects ledger.tip block ledger.tickets
  let created ← ticketsCreatedByBlock block ledger.launchProfile
  pure (tickets ++ created)

/-- The staged part of `apply_block_with_vdf_policy`, on copies of the maps. -/
def stageBlock (ledger : Ledger) (block : Block) : Result BlockEffects := do
  let (_, state) ← Mutate.outcome (block.transactions.foldlM (ledger.applyBlockTransaction block) [])
    ledger.toLineageState
  let domain ← ledger.transactionV2Domain
  let (envelopes, state) ← Mutate.outcome
    (block.transactionsV2.foldlM (ledger.applyBlockEnvelope block domain)
      { bindings := ledger.hybridLegacyOwners, transactionV2Ids := [] }) state
  let expectedReward ← ledger.expectedRewardForBlock block
  bailIf (block.reward ≠ expectedReward) "block reward is invalid"
  let tickets ← ledger.ticketsAfterBlock block
  let utxos ← creditRewardOutputs state.utxos block (ledger.burnCommitteeForBlock block)
  pure { state := { state with utxos := utxos }, envelopes := envelopes, tickets := tickets }

/-- The commit that both application paths make: the new maps, the mined ids, the ticket draw, the
retarget observation, the block itself, the difficulty window and the checkpoint, in this
order. -/
def recordBlock (ledger : Ledger) (block : Block) (effects : BlockEffects)
    (compactBlockContext : CompactBlockContext) : Ledger :=
  let ticketDraw := ledger.ticketDrawBefore block
  let certifiedParent := ledger.certifiedParent block
  let committed := { ledger with
    toLineageState := effects.state
    hybridLegacyOwners := effects.envelopes.bindings
    tickets := effects.tickets
    compactBlockContext := compactBlockContext
    minedTransactionIds := insertIds
      (insertIds ledger.minedTransactionIds (block.transactions.map Transaction.signature))
      effects.envelopes.transactionV2Ids }
  let recorded := (committed.recordTicketDraw block.height ticketDraw).recordVdfRetargetObservation
    block
  let pushed := (recorded.pushBlock block).updateMineDifficultyCacheAfterTip
  match certifiedParent with
  | some checkpoint => { pushed with objectiveFinalityCheckpoint := some checkpoint }
  | none => pushed

/-- Whether a pooled transaction survives a block: it is not mined, and still valid. -/
def survivesBlock (ledger : Ledger) (minedSignatures : List Str) (transaction : Transaction) :
    Bool :=
  transaction.signature ∉ minedSignatures
    ∧ Outcome.succeeds (ledger.validateTransactionTerms transaction)
    ∧ Outcome.succeeds (ledger.validateTransactionAnchorForPending transaction)
    ∧ Outcome.succeeds (transaction.verifySignature
      (ledger.transactionSigningDomainForPending transaction))

/-- The refresh of the pools after a block. -/
def refreshPools (ledger : Ledger) (minedSignatures : List Str) : Mutate Error Pools Unit := do
  modify fun pools => { pools with
    pending := pools.pending.filter fun transaction =>
      transactionInputsAvailable transaction ledger.utxos
        ∧ ledger.survivesBlock minedSignatures transaction
    orphans := pools.orphans.filter (ledger.survivesBlock minedSignatures) }
  refreshPendingPoolByteCounters
  ledger.promoteOrphanTransactions
  ledger.revalidatePendingV2

/-- `apply_block_with_vdf_policy`. -/
def applyBlockWithVdfPolicy (block : Block) (shouldVerifyVdf : Bool) (nowMs : ℕ) :
    Mutate Error Ledger Unit := do
  let ledger ← get
  let isNew ← ledger.precheckBlockWithoutVdfAt block nowMs
  if isNew then do
    bailIf (shouldVerifyVdf ∧ verifyVdf block.vdfSeed block.vdfRounds block.vdfOutput = false)
      "block VDF output is invalid"
    let effects ← ledger.stageBlock block
    let compactBlockContext ← ledger.compactBlockContext.appendBlock block
    set (ledger.recordBlock block effects compactBlockContext)
    let recorded ← get
    Mutate.zoom Ledger.toPools withPools
      (recorded.refreshPools (block.transactions.map Transaction.signature))
    modify fun ledger => { ledger with vdfRounds := ledger.nextVdfRoundsAfterTip }

/-- `apply_block_at`. -/
def applyBlockAt (block : Block) (nowMs : ℕ) : Mutate Error Ledger Unit :=
  applyBlockWithVdfPolicy block true nowMs

/-- `apply_preverified_block_at`. -/
def applyPreverifiedBlockAt (block : Block) (nowMs : ℕ) : Mutate Error Ledger Unit :=
  applyBlockWithVdfPolicy block false nowMs

/-! ## Trusted replay -/

/-- One envelope of `apply_trusted_block_at`: nothing is verified, and ids are collected
without comparing them. -/
def applyTrustedEnvelope (ledger : Ledger) (domain : TransactionV2Domain) (state : EnvelopeState)
    (envelope : Str) : Mutate Error LineageState EnvelopeState := do
  let transaction ← decodeCanonicalTransactionV2Envelope envelope domain
  let transactionId ← transaction.transactionId domain
  applyTransactionV2WithLineage transaction domain ledger.network false
  let bindings ← recordHybridLegacyOwnerBindings state.bindings transaction ledger.network
  pure { bindings := bindings, transactionV2Ids := hexEncode transactionId.val :: state.transactionV2Ids }

/-- The effects of a trusted block. -/
def stageTrustedBlock (ledger : Ledger) (block : Block) : Result BlockEffects := do
  let (_, state) ← Mutate.outcome (forM block.transactions fun transaction =>
    applyTransactionWithLineage transaction block.height none) ledger.toLineageState
  let domain ← ledger.transactionV2Domain
  let (envelopes, state) ← Mutate.outcome
    (block.transactionsV2.foldlM (ledger.applyTrustedEnvelope domain)
      { bindings := ledger.hybridLegacyOwners, transactionV2Ids := [] }) state
  let tickets ← ledger.ticketsAfterBlock block
  let utxos ← creditRewardOutputs state.utxos block (ledger.burnCommitteeForBlock block)
  pure { state := { state with utxos := utxos }, envelopes := envelopes, tickets := tickets }

/-- `apply_trusted_block_at`.  An error abandons the whole restoration, so the state it leaves
behind is not kept. -/
def applyTrustedBlockAt (ledger : Ledger) (block : Block) : Result Ledger := do
  let effects ← ledger.stageTrustedBlock block
  let compactBlockContext ← ledger.compactBlockContext.appendBlock block
  let recorded := ledger.recordBlock block effects compactBlockContext
  pure { recorded with vdfRounds := recorded.nextVdfRoundsAfterTip }

end Ledger

end Iuna
