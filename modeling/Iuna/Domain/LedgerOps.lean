import Iuna.Adapters.Compact
import Iuna.Domain.Lineage
import Iuna.Domain.Ticket

/-!
# Ledger operations

The operations of `ledger_ops.rs`, which the mempool, the block builder and block validation
share: the plain application of a transaction to the unspent outputs, the split of a block reward
between the finalizer and the committee, the size estimate of the block builder, and the checks of
burns, fees, signatures and recovery blocks.

`applyTransaction` follows only the outputs.  Block application uses
`applyTransactionWithLineage`, which does the same with the lineage index beside it.
-/

namespace Iuna

/-! ## Field checks -/

/-- `validate_genesis_allocations`. -/
def validateGenesisAllocations (genesisAllocations : BTreeMap Str Amount) : Result Unit :=
  forM genesisAllocations.keys fun address => validateAddress address "genesis allocation"

/-- `validate_transaction_inputs`. -/
def validateTransactionInputs (inputs : List TxInput) : Result Unit :=
  forM inputs fun input => do
    validateProtocolId input.outpoint.txid "input outpoint txid"
    validateAddress input.owner "input owner"
    validateSignature input.signature "input signature"

/-- `validate_transaction_outputs`. -/
def validateTransactionOutputs (outputs : List TxOutput) : Result Unit :=
  forM outputs fun output => validateAddress output.address "output recipient"

/-- `validate_genesis_burn_transaction`. -/
def validateGenesisBurnTransaction : Transaction → Result Unit
  | .burn inputs change _ fee _ signature => do
    bailIf (fee ≠ 0) "genesis burn fee must be zero"
    validateHash signature "genesis burn signature"
    validateTransactionOutputs change
    forM inputs fun input => do
      validateHash input.outpoint.txid "genesis burn input outpoint txid"
      validateAddress input.owner "genesis burn input owner"
      bailIf (input.signature ≠ str "genesis") "genesis burn input signature is invalid"
  | _ => bail "genesis only supports burn transactions"

/-! ## Balances -/

/-- One output added to the balance of its address. -/
def creditBalance (balances : BTreeMap Str Amount) (output : TxOutput) :
    Result (BTreeMap Str Amount) := do
  let balance ← orError s!"balance overflow for {String.ofList output.address}"
    (checkedAdd (balances[output.address]?.getD 0) output.amount)
  pure (balances.insert output.address balance)

/-- `ensure_outputs_do_not_overflow`. -/
def ensureOutputsDoNotOverflow (utxos : Utxos) (outputs : List TxOutput) : Result Unit := do
  let _ ← (utxos.values ++ outputs).foldlM creditBalance ∅
  pure ()

/-! ## Inputs and outputs of a transaction -/

/-- `ensure_single_input_owner_for_inputs`. -/
def ensureSingleInputOwnerForInputs (inputs : List TxInput) : Result Unit := do
  let first ← orError "transaction has no inputs" inputs.head?
  bailIf (inputs.any fun input => input.owner ≠ first.owner)
    "transaction inputs must have one owner"

/-- `ensure_single_input_owner`. -/
def ensureSingleInputOwner (transaction : Transaction) : Result Unit :=
  match transaction with
  | .mine _ _ _ _ _ _ _ => pure ()
  | _ => ensureSingleInputOwnerForInputs transaction.inputs

/-- The sum of the outputs, each addition checked. -/
def outputTotal (outputs : List TxOutput) : Result Amount :=
  outputs.foldlM (fun total output =>
    orError "transaction outputs overflow" (checkedAdd total output.amount)) 0

/-- What the inputs of a transaction have to cover: its outputs, its fee and what it burns. -/
def requiredInputTotal (transaction : Transaction) : Result Amount := do
  let total ← outputTotal transaction.outputs
  let withFee ← orError "transaction outputs plus fee overflow"
    (checkedAdd total transaction.fee)
  orError "transaction outputs plus burn overflow" (checkedAdd withFee transaction.burned)

/-- The outputs a transaction creates, under its id and their positions (`index as u32`). -/
def createdOutputs (transaction : Transaction) : List (OutPoint × TxOutput) :=
  transaction.outputs.zipIdx.map fun (output, index) =>
    ({ txid := transaction.signature, index := index % 2 ^ 32 }, output)

/-- Insert entries one after another; a later one replaces an earlier one of the same name. -/
def insertOutputs (utxos : Utxos) (created : List (OutPoint × TxOutput)) : Utxos :=
  created.foldl (fun utxos entry => utxos.insert entry.1 entry.2) utxos

/-! ## Plain application -/

/-- One round of `spend_inputs`, with the outpoints seen and the total so far. -/
def spendInput (spent : List OutPoint × Amount) (input : TxInput) :
    Mutate Error Utxos (List OutPoint × Amount) := do
  bailIf (input.outpoint ∈ spent.1) "duplicate input in transaction"
  let utxos ← get
  let output ← orError s!"transaction spends missing output {String.ofList input.outpoint.id}"
    utxos[input.outpoint]?
  modify fun utxos => utxos.erase input.outpoint
  bailIf (output.address ≠ input.owner) "transaction input owner does not match spent output"
  let total ← orError "transaction input total overflows" (checkedAdd spent.2 output.amount)
  pure (input.outpoint :: spent.1, total)

/-- `spend_inputs`. -/
def spendInputs (inputs : List TxInput) : Mutate Error Utxos Amount := do
  let spent ← inputs.foldlM spendInput ([], 0)
  pure spent.2

section Application

variable [Crypto]

/-- `apply_transaction`. -/
def applyTransaction (transaction : Transaction) (signingDomain : TransactionSigningDomain) :
    Mutate Error Utxos Unit := do
  transaction.verifySignature signingDomain
  match transaction with
  | .mine recipient _ _ _ _ _ signature => do
    let output := { address := recipient, amount := mineReward }
    let utxos ← get
    ensureOutputsDoNotOverflow utxos [output]
    modify fun utxos => utxos.insert { txid := signature, index := 0 } output
  | _ => do
    ensureSingleInputOwner transaction
    let inputTotal ← spendInputs transaction.inputs
    let required ← requiredInputTotal transaction
    bailIf (inputTotal ≠ required)
      "transaction inputs do not balance outputs, burn, and fee"
    let utxos ← get
    ensureOutputsDoNotOverflow utxos transaction.outputs
    modify fun utxos => insertOutputs utxos (createdOutputs transaction)

/-- One round of `transaction_input_total`. -/
def addInputTotal (utxos : Utxos) (spent : List OutPoint × Amount) (input : TxInput) :
    Result (List OutPoint × Amount) := do
  bailIf (input.outpoint ∈ spent.1) "duplicate input in transaction"
  let output ← orError s!"transaction spends missing output {String.ofList input.outpoint.id}"
    utxos[input.outpoint]?
  bailIf (output.address ≠ input.owner) "transaction input owner does not match spent output"
  let total ← orError "transaction input total overflows" (checkedAdd spent.2 output.amount)
  pure (input.outpoint :: spent.1, total)

/-- `transaction_input_total`. -/
def transactionInputTotal (transaction : Transaction) (utxos : Utxos) : Result Amount := do
  let spent ← transaction.inputs.foldlM (addInputTotal utxos) ([], 0)
  pure spent.2

/-- `apply_spendable_pending_transaction`: every check comes before the first change. -/
def applySpendablePendingTransaction (transaction : Transaction)
    (signingDomain : TransactionSigningDomain) : Mutate Error Utxos Unit := do
  bailIf transaction.isMine "pending mine outputs are not spendable"
  transaction.verifySignature signingDomain
  ensureSingleInputOwner transaction
  let utxos ← get
  let inputTotal ← transactionInputTotal transaction utxos
  let required ← requiredInputTotal transaction
  bailIf (inputTotal ≠ required) "transaction inputs do not balance outputs, burn, and fee"
  ensureOutputsDoNotOverflow utxos transaction.outputs
  modify fun utxos => insertOutputs
    (transaction.inputs.foldl (fun utxos input => utxos.erase input.outpoint) utxos)
    (createdOutputs transaction)

/-- `transaction_has_missing_inputs`. -/
def transactionHasMissingInputs (transaction : Transaction) (utxos : Utxos) : Bool :=
  transaction.inputs.any fun input => input.outpoint ∉ utxos

/-- `transaction_inputs_available`. -/
def transactionInputsAvailable (transaction : Transaction) (utxos : Utxos) : Bool :=
  transaction.inputs.all fun input => input.outpoint ∈ utxos

/-- `transaction_inputs_spent_by`. -/
def transactionInputsSpentBy (transaction : Transaction) (others : List Transaction) : Bool :=
  transaction.inputs.any fun input => others.any fun other =>
    other.inputs.any fun otherInput => otherInput.outpoint = input.outpoint

end Application

/-! ## Application with lineage -/

section LineageApplication

variable [Crypto]

/-- `apply_transaction_with_lineage`.  Trusted replay passes no signing domain and skips the
signature. -/
def applyTransactionWithLineage (transaction : Transaction) (blockHeight : ℕ)
    (signingDomain : Option TransactionSigningDomain) : Mutate Error LineageState Unit := do
  match signingDomain with
  | some signingDomain => (transaction.verifySignature signingDomain : Result Unit)
  | none => pure ()
  match transaction with
  | .mine recipient _ _ _ _ _ signature => do
    let output := { address := recipient, amount := mineReward }
    let state ← get
    ensureOutputsDoNotOverflow state.utxos [output]
    insertOutputWithLineage { txid := signature, index := 0 } output
      (outputLineageRootForTransaction transaction blockHeight none)
  | _ => do
    ensureSingleInputOwner transaction
    let (inputTotal, inheritedRoot) ← spendInputsWithLineage transaction.inputs
    let required ← requiredInputTotal transaction
    bailIf (inputTotal ≠ required)
      "transaction inputs do not balance outputs, burn, and fee"
    let state ← get
    ensureOutputsDoNotOverflow state.utxos transaction.outputs
    forM (createdOutputs transaction) fun entry =>
      insertOutputWithLineage entry.1 entry.2 inheritedRoot

end LineageApplication

/-! ## Fees and rewards -/

/-- `validate_block_fee_policy`. -/
def validateBlockFeePolicy (block : Block) : Result Unit :=
  forM block.transactions fun transaction =>
    bailIf (transaction.fee = 0) "block transaction fee must be greater than zero"

/-- `fee_reward`. -/
def feeReward (transactions : List Transaction) : Result Amount :=
  transactions.foldlM (fun total transaction =>
    orError "block fees overflow" (checkedAdd total transaction.fee)) 0

/-- `block_reward`. -/
def blockReward (transactions : List Transaction) (additionalFinalizerFees : Amount) :
    Result Amount := do
  let fees ← feeReward transactions
  orError "block reward overflow" (checkedAdd fees additionalFinalizerFees)

/-- `reward_outpoint`. -/
def rewardOutpoint (blockHash : Str) : OutPoint := { txid := blockHash, index := u32Max }

/-- `committee_reward_outpoint`. -/
def committeeRewardOutpoint (blockHash : Str) (slot : ℕ) : OutPoint :=
  { txid := blockHash, index := u32Max - min slot (burnCommitteeSize - 1) }

/-- `reward_committee_slots`. -/
def rewardCommitteeSlots (block : Block) : List ℕ :=
  match block.finalizerMode with
  | .ticket =>
    if block.finalizerRank ≤ 1 then
      block.burnBundleSection.signatures.map BurnBundleSignature.slot
    else []
  | .recovery => []

/-- The members of the committee that share in the reward: those who signed, except the
finalizer. -/
def rewardCommitteeMembers (block : Block) (committee : List BurnCommitteeMember) :
    List BurnCommitteeMember :=
  (rewardCommitteeSlots block).filterMap fun slot =>
    committee.find? fun member => member.slot = slot ∧ member.owner ≠ block.miner

/-- The shares of the committee pool: each member gets an equal part of what remains, the last one
all of it. -/
def committeeShares : Amount → List BurnCommitteeMember → List (BurnCommitteeMember × Amount)
  | _, [] => []
  | remaining, member :: members =>
    let amount := if members = [] then remaining else remaining / (members.length + 1)
    (member, amount) :: committeeShares (remaining - amount) members

/-- The address a committee member is paid at. -/
def committeeRewardAddress (block : Block) (member : BurnCommitteeMember) : Str :=
  ((block.burnBundleSection.signatures.find? fun signature =>
    signature.slot = member.slot).bind BurnBundleSignature.rewardAddress).getD member.owner

/-- `reward_outputs_for_block`. -/
def rewardOutputsForBlock (block : Block) (committee : List BurnCommitteeMember) :
    List (OutPoint × TxOutput) :=
  if block.reward = 0 then []
  else
    let members := rewardCommitteeMembers block committee
    let committeePool := if members = [] then 0 else block.reward / 2
    let finalizerAmount := block.reward - committeePool
    (if 0 < finalizerAmount then
      [(rewardOutpoint block.hash,
        { address := block.rewardAddress.getD block.miner, amount := finalizerAmount })]
    else [])
    ++ ((committeeShares committeePool members).filter fun share => share.2 ≠ 0).map fun share =>
      (committeeRewardOutpoint block.hash share.1.slot,
        { address := committeeRewardAddress block share.1, amount := share.2 })

/-- `credit_reward_outputs`. -/
def creditRewardOutputs (utxos : Utxos) (block : Block) (committee : List BurnCommitteeMember) :
    Result Utxos := do
  let outputs := rewardOutputsForBlock block committee
  ensureOutputsDoNotOverflow utxos (outputs.map Prod.snd)
  pure (insertOutputs utxos outputs)

/-! ## Burns and recovery blocks -/

/-- The transaction of an envelope, if it decodes: the burn checks pass over what does not. -/
def decodedEnvelope (envelope : Str) : Option TransactionV2 :=
  match decodeHex envelope with
  | .error _ => none
  | .ok encoded =>
    match TransactionV2.decode encoded with
    | .error _ => none
    | .ok (_, transaction) => some transaction

/-- `ensure_block_has_burn`. -/
def ensureBlockHasBurn (transactions : List Transaction) (transactionsV2 : List Str) :
    Result Unit :=
  let hasV2Burn := transactionsV2.any fun envelope =>
    (decodedEnvelope envelope).any TransactionV2.isBurn
  bailIf (transactions.any Transaction.isBurn = false ∧ hasV2Burn = false)
    "block must include at least one burn transaction"

section Signatures

variable [Crypto]

/-- The legacy owner of a v2 burn, where there is one. -/
def burnOwnerOf (transaction : TransactionV2) : Option Str :=
  match transaction.burnLegacyOwner with
  | .ok owner => owner
  | .error _ => none

/-- `ensure_block_has_burn_from`. -/
def ensureBlockHasBurnFrom (transactions : List Transaction) (transactionsV2 : List Str)
    (miner : Str) : Result Unit :=
  let hasLegacyBurn := transactions.any fun transaction =>
    transaction.isBurn ∧ transaction.sender = miner
  let hasV2Burn := transactionsV2.any fun envelope =>
    ((decodedEnvelope envelope).bind burnOwnerOf) = some miner
  bailIf (hasLegacyBurn = false ∧ hasV2Burn = false)
    "recovery block must include a burn from the finalizer"

/-- `ensure_valid_recovery_block`. -/
def ensureValidRecoveryBlock (block parent : Block) : Result Unit := do
  bailIf (block.finalizerRank ≠ 0) "recovery block finalizer rank must be 0"
  bailIf block.leaderProof.isSome "recovery block must not carry a leader proof"
  let minTimestamp := saturatingAdd parent.timestampMs recoveryBlockDelayMs
  bailIf (block.timestampMs < minTimestamp)
    s!"recovery block is not available before timestamp {minTimestamp}"
  ensureBlockHasBurnFrom block.transactions block.transactionsV2 block.miner

/-- `verify_address_signature`. -/
def verifyAddressSignature (address payload signature : Str) (label : String) : Result Unit := do
  let publicKey ← withContext s!"invalid {label} public key {String.ofList address}"
    (decodeHexArray publicKeyBytes address)
  let signature ← withContext s!"invalid {label} signature hex"
    (decodeHexArray signatureBytes signature)
  verifyEd25519 publicKey (utf8 payload) signature label

/-- `verify_leader_proof`. -/
def verifyLeaderProof (block : Block) (tickets : List BurnTicket) : Result Unit := do
  let proof ← orError "block is missing leader proof" block.leaderProof
  bailIf (proof.publicKey ≠ block.miner)
    "leader proof public key does not match block finalizer"
  let ticket ← orError "leader ticket is not pending for this height"
    (tickets.find? fun ticket => ticket.id = proof.ticketId
      ∧ ticketIsEligibleForHeight ticket block.height)
  bailIf (ticket.owner ≠ block.miner) "leader ticket owner does not match block finalizer"
  bailIf (block.height < ticket.eligibleFromHeight) "leader ticket is not mature"
  verifyAddressSignature proof.publicKey (leaderProofPayload block.height block.prevHash
    block.finalizerRank block.vdfOutput ticket.id ticket.amount ticket.owner) proof.signature
    "leader"

end Signatures

/-! ## The size estimate -/

/-- `BlockSelection`. -/
structure BlockSelection where
  transactions : List Transaction
  transactionsV2 : List Str
  deriving DecidableEq

/-- The candidate block of `estimated_block_selection_size_bytes`: every field that is not known
yet takes its widest value, and there is no reward address. -/
def estimatedBlock (selection : BlockSelection) (finalizerMode : FinalizerMode)
    (burnBundleSection : BurnBundleSection) : Block where
  height := u64Max
  prevHash := repeatChar 'f' 64
  timestampMs := u64Max
  miner := repeatChar 'f' 64
  rewardAddress := none
  rewardAddressSignature := none
  finalizerMode := finalizerMode
  finalizerRank := 0
  reward := u64Max
  vdfRounds := u64Max
  vdfOutput := vdfSolutionPlaceholder
  leaderProof := if finalizerMode = .ticket then
    some { ticketId := repeatChar 'f' 64, publicKey := repeatChar 'f' 64,
           signature := repeatChar 'f' 128 }
    else none
  burnBundleSection := burnBundleSection
  transactions := selection.transactions
  transactionsV2 := selection.transactionsV2
  hash := repeatChar 'f' 64

/-- `estimated_block_selection_size_bytes`. -/
def estimatedBlockSelectionSizeBytes (context : CompactBlockContext) (selection : BlockSelection)
    (finalizerMode : FinalizerMode) (burnBundleSection : BurnBundleSection) : Result ℕ :=
  context.blockSizeBytes (estimatedBlock selection finalizerMode burnBundleSection)

/-- `ensure_transaction_fits_empty_block`. -/
def ensureTransactionFitsEmptyBlock (context : CompactBlockContext) (transaction : Transaction)
    (maxBlockBytes : ℕ) : Result Unit := do
  let size ← estimatedBlockSelectionSizeBytes context
    { transactions := [transaction], transactionsV2 := [] } .ticket .default
  bailIf (maxBlockBytes < size) "transaction exceeds max block size"

/-- `ensure_transaction_v2_fits_empty_block`. -/
def ensureTransactionV2FitsEmptyBlock (context : CompactBlockContext) (envelope : Str)
    (maxBlockBytes : ℕ) : Result Unit := do
  let size ← estimatedBlockSelectionSizeBytes context
    { transactions := [], transactionsV2 := [envelope] } .ticket .default
  bailIf (maxBlockBytes < size) "transaction v2 exceeds max block size"

end Iuna
