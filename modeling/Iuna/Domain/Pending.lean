import Iuna.Domain.Ledger

/-!
# Validation of pending transactions

The rules that a transaction obeys on its own against the confirmed ledger, and the pools that
wait for the next block: which pending transactions are valid together, which orphans have become
spendable, and which v2 transactions still apply.  This module is the validation half of
`ledger_pending.rs` and the pool half of `ledger_v2.rs`.

The functions that change the pools read the rest of the ledger and write nothing else, so their
state is `Pools`, and the ledger they are methods of is a parameter.
-/

namespace Iuna

namespace Ledger

/-- The ledger with other pools. -/
def withPools (ledger : Ledger) (pools : Pools) : Ledger := { ledger with toPools := pools }

@[simp] lemma withPools_toPools (ledger : Ledger) (pools : Pools) :
    (ledger.withPools pools).toPools = pools := rfl

@[simp] lemma withPools_toLineageState (ledger : Ledger) (pools : Pools) :
    (ledger.withPools pools).toLineageState = ledger.toLineageState := rfl

@[simp] lemma withPools_chain (ledger : Ledger) (pools : Pools) :
    (ledger.withPools pools).chain = ledger.chain := rfl

@[simp] lemma withPools_tip (ledger : Ledger) (pools : Pools) :
    (ledger.withPools pools).tip = ledger.tip := rfl

variable [Crypto]

/-! ## Terms and anchors -/

/-- `validate_transaction_terms`. -/
def validateTransactionTerms (ledger : Ledger) : Transaction → Result Unit
  | .transfer inputs outputs fee signature => do
    bailIf (fee = 0) "transfer transaction fee must be greater than zero"
    validateTransactionInputs inputs
    validateTransactionOutputs outputs
    validateSignature signature "transaction signature"
  | .burn inputs change _ fee anchor signature => do
    bailIf (fee = 0) "burn transaction fee must be greater than zero"
    validateTransactionInputs inputs
    validateTransactionOutputs change
    match anchor with
    | some anchor => validateHash anchor "burn transaction anchor"
    | none => pure ()
    validateSignature signature "transaction signature"
  | .mine recipient anchor _ _ difficultyBits proofHeader signature => do
    let nextHeight := saturatingAdd ledger.height 1
    if hybridRewardActivationHeight ≤ nextHeight then do
      let address ← decodeVersionedAddress recipient ledger.network
      bailIf (address.version ≠ .hybridKeyCommitment)
        s!"mine reward must use a hybrid address at height {nextHeight}"
    else validateAddress recipient "mine recipient"
    validateHash anchor "mine transaction anchor"
    validateHash signature "mine transaction proof hash"
    match proofHeader with
    | some proofHeader => validateStratumHeader proofHeader
    | none => pure ()
    let anchorBlock ← Outcome.ofOption (Error.validation .mineAnchorNotOnChain)
      (ledger.chain.find? fun block => block.hash = anchor)
    bailIf (mineMaxAnchorAgeBlocks < ledger.tip.height - anchorBlock.height)
      "mine transaction anchor is too old"
    let requiredDifficulty := ledger.mineDifficultyBitsForAnchorHeight anchorBlock.height
    bailIf (difficultyBits ≠ requiredDifficulty) <|
      s!"mine transaction difficulty is invalid: got {difficultyBits}, required " ++
        s!"{requiredDifficulty} at anchor height {anchorBlock.height}"

omit [Crypto] in
/-- `validate_transaction_anchor_for_block`. -/
def validateTransactionAnchorForBlock (ledger : Ledger) (transaction : Transaction) (height : ℕ) :
    Result Unit :=
  if transaction.isBurn = false then pure ()
  else if height < tipBoundBurnActivationHeight then
    bailIf transaction.burnAnchor.isSome "burn transaction anchor is not active yet"
  else do
    let anchor ← orError "burn transaction is missing its chain anchor" transaction.burnAnchor
    bailIf (anchor ≠ ledger.tip.prevHash)
      "burn transaction anchor does not match the block grandparent"

omit [Crypto] in
/-- `validate_transaction_anchor_for_pending`: burns anchored to the parent of the tip are eligible
now, burns anchored to the tip wait one more block. -/
def validateTransactionAnchorForPending (ledger : Ledger) (transaction : Transaction) :
    Result Unit :=
  if transaction.isBurn = false then pure ()
  else
    let nextHeight := saturatingAdd ledger.height 1
    let followingHeight := saturatingAdd ledger.height 2
    let anchor := transaction.burnAnchor
    if nextHeight < tipBoundBurnActivationHeight ∧ anchor = none then pure ()
    else if tipBoundBurnActivationHeight ≤ nextHeight ∧ anchor = some ledger.tip.prevHash then
      pure ()
    else if tipBoundBurnActivationHeight ≤ followingHeight ∧ anchor = some ledger.tip.hash then
      pure ()
    else .error (.validation .burnAnchorOutsidePendingWindow)

omit [Crypto] in
/-- `transaction_is_eligible_for_next_block`. -/
def transactionIsEligibleForNextBlock (ledger : Ledger) (transaction : Transaction) : Bool :=
  Outcome.succeeds (ledger.validateTransactionAnchorForBlock transaction
    (saturatingAdd ledger.height 1))

omit [Crypto] in
/-- `transaction_signing_domain_for_pending`. -/
def transactionSigningDomainForPending (ledger : Ledger) (transaction : Transaction) :
    TransactionSigningDomain :=
  let height :=
    if transaction.isBurn ∧ transaction.burnAnchor = some ledger.tip.hash
        ∧ tipBoundBurnActivationHeight ≤ saturatingAdd ledger.height 2 then
      saturatingAdd ledger.height 2
    else saturatingAdd ledger.height 1
  ledger.transactionSigningDomainAt height

omit [Crypto] in
/-- `validate_transaction_v2_anchor_for_block`. -/
def validateTransactionV2AnchorForBlock (ledger : Ledger) (transaction : TransactionV2)
    (height : ℕ) : Result Unit :=
  if transaction.isBurn = false then pure ()
  else do
    let anchor ← orError "transaction v2 burn is missing its chain anchor" transaction.burnAnchor
    let expected ← withContext "block grandparent hash is invalid"
      (decodeHexArray 32 ledger.tip.prevHash)
    bailIf (tipBoundBurnActivationHeight ≤ height ∧ anchor ≠ expected)
      "transaction v2 burn anchor does not match the block grandparent"

omit [Crypto] in
/-- `validate_transaction_v2_anchor_for_pending`. -/
def validateTransactionV2AnchorForPending (ledger : Ledger) (transaction : TransactionV2) :
    Result Unit :=
  if transaction.isBurn = false then pure ()
  else do
    let anchor ← orError "transaction v2 burn is missing its chain anchor" transaction.burnAnchor
    let tip ← withContext "tip hash is invalid" (decodeHexArray 32 ledger.tip.hash)
    let parent ← withContext "tip parent hash is invalid"
      (decodeHexArray 32 ledger.tip.prevHash)
    if anchor ≠ tip ∧ anchor ≠ parent then
      Except.error (Error.validation .burnAnchorOutsidePendingWindow)

omit [Crypto] in
/-- `transaction_v2_is_eligible_for_next_block`. -/
def transactionV2IsEligibleForNextBlock (ledger : Ledger) (transaction : TransactionV2) : Bool :=
  Outcome.succeeds (ledger.validateTransactionV2AnchorForBlock transaction
    (saturatingAdd ledger.height 1))

/-! ## The pending transactions that are valid together -/

/-- The local variables of `valid_pending_transactions`.  The anchors of the mine actions already
selected stand for the counter map of the source. -/
structure ValidPending where
  utxos : Utxos
  valid : List Transaction
  selectedMineAnchors : List Str
  progressed : Bool
  stillPending : List Transaction

/-- One transaction of a round of `valid_pending_transactions`.  A failed application keeps what
it has removed from the outputs. -/
def validPendingStep (ledger : Ledger) (state : ValidPending) (transaction : Transaction) :
    ValidPending :=
  let overLimit := (mineAnchor transaction).any fun anchor =>
    mineActionsPerAnchorLimit ≤ mineAnchorCountBeforeHeight ledger.chain anchor ledger.height
      + state.selectedMineAnchors.count anchor
  if overLimit then state
  else if transactionInputsAvailable transaction state.utxos
      ∧ Outcome.succeeds (ledger.validateTransactionTerms transaction)
      ∧ Outcome.succeeds (ledger.validateTransactionAnchorForPending transaction) then
    let (applied, utxos) := Mutate.attempt (applyTransaction transaction
      (ledger.transactionSigningDomainForPending transaction)) state.utxos
    if applied then
      { utxos := utxos, valid := state.valid ++ [transaction],
        selectedMineAnchors := (mineAnchor transaction).toList ++ state.selectedMineAnchors,
        progressed := true, stillPending := state.stillPending }
    else { state with utxos := utxos, stillPending := state.stillPending ++ [transaction] }
  else { state with stillPending := state.stillPending ++ [transaction] }

/-- The rounds of `valid_pending_transactions`: a round that makes progress leaves fewer
transactions for the next, so their number bounds the rounds. -/
def validPendingRounds (ledger : Ledger) : ℕ → ValidPending → List Transaction
  | 0, state => state.valid
  | fuel + 1, state =>
    if state.stillPending = [] then state.valid
    else
      let round := state.stillPending.foldl ledger.validPendingStep
        { state with progressed := false, stillPending := [] }
      if round.progressed then validPendingRounds ledger fuel round else round.valid

/-- `valid_pending_transactions`. -/
def validPendingTransactions (ledger : Ledger) : List Transaction :=
  ledger.validPendingRounds (ledger.pending.length + 1)
    { utxos := ledger.utxos, valid := [], selectedMineAnchors := [], progressed := false,
      stillPending := ledger.pending }

/-- `utxos_after_valid_pending`. -/
def utxosAfterValidPending (ledger : Ledger) : Result Utxos := do
  let (_, utxos) ← Mutate.outcome (forM ledger.validPendingTransactions fun pending =>
    applyTransaction pending (ledger.transactionSigningDomainForPending pending)) ledger.utxos
  pure utxos

/-- `utxos_after_spendable_pending`: what cannot be applied is passed over. -/
def utxosAfterSpendablePending (ledger : Ledger) : Utxos :=
  ledger.validPendingTransactions.foldl (fun utxos pending =>
    if pending.isMine then utxos
    else (Mutate.attempt (applySpendablePendingTransaction pending
      (ledger.transactionSigningDomainForPending pending)) utxos).2) ledger.utxos

/-- `validate_mine_anchor_available`. -/
def validateMineAnchorAvailable (ledger : Ledger) (transaction : Transaction) : Result Unit :=
  match mineAnchor transaction with
  | none => pure ()
  | some anchor =>
    let knownCount := mineAnchorCountBeforeHeight ledger.chain anchor ledger.height
      + (ledger.pending.countP fun pending => mineAnchor pending = some anchor)
      + ledger.orphans.countP fun orphan =>
        mineAnchor orphan = some anchor ∧ orphan.signature ≠ transaction.signature
    if mineActionsPerAnchorLimit ≤ knownCount then
      .error (.validation .mineAnchorLimitReached)
    else pure ()

/-- `validate_new_transaction`. -/
def validateNewTransaction (ledger : Ledger) (transaction : Transaction) : Result Unit := do
  ledger.validateTransactionTerms transaction
  ledger.validateTransactionAnchorForPending transaction
  ensureTransactionFitsEmptyBlock ledger.compactBlockContext transaction
    ledger.launchProfile.maxBlockBytes
  ledger.validateMineAnchorAvailable transaction
  let (_, _) ← Mutate.outcome (applyTransaction transaction
    (ledger.transactionSigningDomainForPending transaction)) ledger.utxosAfterSpendablePending
  pure ()

/-! ## The byte counters -/

omit [Crypto] in
/-- `usize::checked_add`, at the width of a 64-bit target. -/
def checkedAddBytes (a b : ℕ) : Result ℕ :=
  orError "pending pool byte size overflow" (checkedAdd a b)

omit [Crypto] in
/-- `serialized_pool_len`. -/
def serializedPoolLen (transactions : List Transaction) : Result ℕ :=
  transactions.foldlM (fun total transaction => checkedAddBytes total transaction.jsonSize) 0

omit [Crypto] in
/-- `refresh_pending_pool_byte_counters`. -/
def refreshPendingPoolByteCounters : Mutate Error Pools Unit := do
  let pools ← get
  let pendingBytes ← serializedPoolLen pools.pending
  modify fun pools => { pools with pendingBytes := pendingBytes }
  let orphanBytes ← serializedPoolLen pools.orphans
  modify fun pools => { pools with orphanBytes := orphanBytes }

/-! ## Promotion of orphans -/

/-- The scan of `promote_orphan_transactions` for the first orphan that can be promoted.  Every
attempted application changes the outputs that the rest of the scan sees. -/
def findPromotedOrphan (ledger : Ledger) : List (Transaction × ℕ) → Utxos → Result (Option (ℕ × ℕ))
  | [], _ => pure none
  | (transaction, index) :: rest, utxos =>
    if transactionInputsSpentBy transaction ledger.pending
        ∨ transactionHasMissingInputs transaction utxos
        ∨ Outcome.succeeds (ledger.validateNewTransaction transaction) = false then
      findPromotedOrphan ledger rest utxos
    else
      let (applied, utxos) := Mutate.attempt (applyTransaction transaction
        (ledger.transactionSigningDomainForPending transaction)) utxos
      if applied then do
        let promotedBytes ← checkedAddBytes ledger.pendingBytes transaction.jsonSize
        if maxPendingPoolBytes < promotedBytes then findPromotedOrphan ledger rest utxos
        else pure (some (index, transaction.jsonSize))
      else findPromotedOrphan ledger rest utxos

/-- The loop of `promote_orphan_transactions`: every round but the last moves one orphan to the
pending pool, so their number bounds the rounds. -/
def promoteOrphanRounds (ledger : Ledger) : ℕ → Mutate Error Pools Unit
  | 0 => pure ()
  | fuel + 1 => do
    let pools ← get
    if maxPendingTransactions ≤ pools.pending.length then pure ()
    else do
      let current := ledger.withPools pools
      let utxos ← current.utxosAfterValidPending
      let promoted ← current.findPromotedOrphan pools.orphans.zipIdx utxos
      match promoted with
      | none => pure ()
      | some (index, transactionBytes) => do
        modify fun pools => { pools with
          orphans := pools.orphans.eraseIdx index
          orphanBytes := pools.orphanBytes - transactionBytes
          pending := pools.pending ++ (pools.orphans[index]?).toList
          pendingBytes := saturatingAdd pools.pendingBytes transactionBytes }
        promoteOrphanRounds ledger fuel

/-- `promote_orphan_transactions`. -/
def promoteOrphanTransactions (ledger : Ledger) : Mutate Error Pools Unit := do
  let pools ← get
  promoteOrphanRounds ledger (pools.orphans.length + 1)

/-! ## The pool of v2 transactions -/

/-- The loop of `revalidate_pending_v2_at_height`, with the outputs after the transactions kept so
far. -/
def revalidatePendingV2Loop (ledger : Ledger) (domain : TransactionV2Domain) (height : ℕ) :
    List TransactionV2 → Utxos → Mutate Error Pools Unit
  | [], _ => pure ()
  | transaction :: rest, utxos => do
    let encoded ← transaction.encode domain
    let (valid, candidateUtxos) :=
      if Outcome.succeeds (ledger.validateTransactionV2AnchorForPending transaction)
          ∧ Outcome.succeeds (transaction.validateAuthorizationPolicyAtHeight height) then
        Mutate.attempt (applyPrevalidatedTransactionV2ToUtxos transaction domain ledger.network)
          utxos
      else (false, utxos)
    if valid then do
      modify fun pools => { pools with
        pendingV2 := pools.pendingV2 ++ [transaction]
        pendingV2Bytes := saturatingAdd pools.pendingV2Bytes encoded.length }
      revalidatePendingV2Loop ledger domain height rest candidateUtxos
    else revalidatePendingV2Loop ledger domain height rest utxos

/-- `revalidate_pending_v2`. -/
def revalidatePendingV2 (ledger : Ledger) : Mutate Error Pools Unit := do
  let height := saturatingAdd ledger.height 1
  if height < transactionV2ActivationHeight then
    modify fun pools => { pools with pendingV2 := [], pendingV2Bytes := 0 }
  else do
    let domain ← ledger.transactionV2Domain
    let pools ← get
    let utxos := (ledger.withPools pools).utxosAfterSpendablePending
    modify fun pools => { pools with pendingV2 := [], pendingV2Bytes := 0 }
    revalidatePendingV2Loop ledger domain height pools.pendingV2 utxos

end Ledger

end Iuna
