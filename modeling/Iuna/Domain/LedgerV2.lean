import Iuna.Domain.LedgerOps

/-!
# Applying transactions v2

A v2 transaction spends outputs under the addresses of its owners and creates outputs under
internal addresses: the hexadecimal key of a legacy address, or the Bech32m text of a hybrid one.
This module is the ledger-independent part of `ledger_v2.rs`: the canonical decoding of an
envelope, the plain application of a transaction and its application with the lineage index.
-/

namespace Iuna

variable [Crypto]

/-- `internal_address`. -/
def internalAddress (address : VersionedAddress) (network : AddressNetwork) : Result Str :=
  match address.version with
  | .ed25519PublicKey => pure (hexEncode address.payload.val)
  | .hybridKeyCommitment => encodeVersionedAddress address network

omit [Crypto] in
/-- `legacy_transaction_id_hex`. -/
def legacyTransactionIdHex : LegacyTransactionId → Str
  | .hash value => hexEncode value.val
  | .signature value => hexEncode value.val

omit [Crypto] in
/-- The outpoint that an input of a migration spends. -/
def TransactionV2LegacyInput.outpoint (input : TransactionV2LegacyInput) : OutPoint :=
  { txid := legacyTransactionIdHex input.outpointId, index := input.outpointIndex }

omit [Crypto] in
/-- The outpoint that an input of a transfer or a burn spends. -/
def TransactionV2Input.outpoint (input : TransactionV2Input) : OutPoint :=
  { txid := hexEncode input.outpointTxid.val, index := input.outpointIndex }

omit [Crypto] in
/-- `transaction_v2_outpoints`. -/
def transactionV2Outpoints : TransactionV2 → List OutPoint
  | .migration inputs _ _ _ => inputs.map TransactionV2LegacyInput.outpoint
  | .transfer inputs _ _ _ => inputs.map TransactionV2Input.outpoint
  | .burn inputs _ _ _ _ _ => inputs.map TransactionV2Input.outpoint
  | .mine _ _ _ _ _ _ _ => []

/-- `decode_canonical_transaction_v2_envelope`. -/
def decodeCanonicalTransactionV2Envelope (envelope : Str) (expectedDomain : TransactionV2Domain) :
    Result TransactionV2 := do
  let bytes ← withContext "transaction v2 envelope is not hexadecimal" (decodeHex envelope)
  bailIf (hexEncode bytes ≠ envelope)
    "transaction v2 envelope is not canonical lowercase hexadecimal"
  let (domain, transaction) ← TransactionV2.decode bytes
  bailIf (domain ≠ expectedDomain) "transaction v2 belongs to a different chain domain"
  let encoded ← transaction.encode expectedDomain
  bailIf (encoded ≠ bytes) "transaction v2 envelope is not canonically encoded"
  pure transaction

/-! ## Plain application -/

omit [Crypto] in
/-- The round that `spend_legacy_inputs` and `spend_v2_inputs` share: remove the output and check
that its address is the internal address of the owner. -/
def spendOwnedInput (ownerError : String) (spent : Amount) (input : OutPoint × Result Str) :
    Mutate Error Utxos Amount := do
  let utxos ← get
  let output ← orError s!"transaction v2 input {String.ofList input.1.id} is not spendable"
    utxos[input.1]?
  modify fun utxos => utxos.erase input.1
  let expectedOwner ← input.2
  bailIf (output.address ≠ expectedOwner) ownerError
  orError "transaction v2 input value overflows" (checkedAdd spent output.amount)

omit [Crypto] in
/-- The loop over inputs that are paired with their expected owners. -/
def spendOwnedInputs (ownerError : String) (inputs : List (OutPoint × Result Str)) :
    Mutate Error Utxos Amount :=
  inputs.foldlM (spendOwnedInput ownerError) 0

/-- `spend_legacy_inputs`: the owners are legacy addresses, whose internal form does not depend on
the network. -/
def spendLegacyInputs (inputs : List TransactionV2LegacyInput) : Mutate Error Utxos Amount :=
  spendOwnedInputs "transaction v2 legacy input owner does not match the referenced output"
    (inputs.map fun input => (input.outpoint, internalAddress input.owner .mainnet))

/-- `spend_v2_inputs`. -/
def spendV2Inputs (inputs : List TransactionV2Input) (network : AddressNetwork) :
    Mutate Error Utxos Amount :=
  spendOwnedInputs "transaction v2 input owner does not match the referenced output"
    (inputs.map fun input => (input.outpoint, internalAddress input.owner network))

omit [Crypto] in
/-- `sum_outputs`. -/
def sumOutputs (outputs : List TransactionV2Output) : Result Amount :=
  outputs.foldlM (fun total output =>
    orError "transaction v2 output value overflows" (checkedAdd total output.amount)) 0

/-- What the spending arm of `apply_transaction_v2_to_utxos_with_policy` returns for each kind:
the value spent, after the checks of the kind. -/
def spendTransactionV2 (transaction : TransactionV2) (network : AddressNetwork) :
    Mutate Error Utxos Amount :=
  match transaction with
  | .migration inputs _ _ _ => spendLegacyInputs inputs
  | .transfer inputs _ _ _ => spendV2Inputs inputs network
  | .burn inputs _ _ _ _ _ => do
    let _ ← transaction.burnLegacyOwner
    spendV2Inputs inputs network
  | .mine _ _ _ _ _ _ _ => liftM
    (bail "transaction v2 mining is not integrated into live proof consensus" : Result Amount)

/-- One output of a v2 transaction, with its position. -/
def createOutputV2 (transactionId : Str) (network : AddressNetwork)
    (output : TransactionV2Output × ℕ) : Mutate Error Utxos Unit := do
  bailIf (u32Max < output.2) "transaction v2 output index exceeds u32"
  let address ← internalAddress output.1.address network
  let utxos ← get
  let outpoint := { txid := transactionId, index := output.2 }
  modify fun utxos => utxos.insert outpoint { address := address, amount := output.1.amount }
  bailIf (outpoint ∈ utxos) "transaction v2 recreates an existing outpoint"

/-- `apply_transaction_v2_to_utxos_with_policy`. -/
def applyTransactionV2ToUtxosWithPolicy (transaction : TransactionV2)
    (domain : TransactionV2Domain) (network : AddressNetwork) (verifyAuthorizations : Bool) :
    Mutate Error Utxos Unit := do
  let spent ← spendTransactionV2 transaction network
  let credited ← sumOutputs transaction.outputs
  let withFee ← orError "transaction v2 output value plus fee overflows"
    (checkedAdd credited transaction.fee)
  let required ← orError "transaction v2 output value plus burn overflows"
    (checkedAdd withFee transaction.amount)
  bailIf (spent ≠ required) "transaction v2 input value does not equal outputs plus fee"
  if verifyAuthorizations then
    (transaction.verifyAuthorizations domain : Result Unit)
  let transactionId ← transaction.transactionId domain
  forM transaction.outputs.zipIdx (createOutputV2 (hexEncode transactionId.val) network)

/-- `apply_transaction_v2_to_utxos`. -/
def applyTransactionV2ToUtxos (transaction : TransactionV2) (domain : TransactionV2Domain)
    (network : AddressNetwork) : Mutate Error Utxos Unit :=
  applyTransactionV2ToUtxosWithPolicy transaction domain network true

/-- `apply_prevalidated_transaction_v2_to_utxos`. -/
def applyPrevalidatedTransactionV2ToUtxos (transaction : TransactionV2)
    (domain : TransactionV2Domain) (network : AddressNetwork) : Mutate Error Utxos Unit :=
  applyTransactionV2ToUtxosWithPolicy transaction domain network false

/-! ## Application with lineage -/

omit [Crypto] in
/-- The outputs a v2 transaction is about to spend. -/
def spentOutputs (transaction : TransactionV2) (utxos : Utxos) :
    Result (List (OutPoint × TxOutput)) :=
  (transactionV2Outpoints transaction).mapM fun outpoint => do
    let output ← orError s!"transaction v2 input {String.ofList outpoint.id} is not spendable"
      utxos[outpoint]?
    pure (outpoint, output)

omit [Crypto] in
/-- One spent output leaves the lineage index, and its root is inherited if it is the newest. -/
def inheritSpentLineage (inheritedRoot : Option UtxoLineageRoot) (spent : OutPoint × TxOutput) :
    Mutate Error LineageState (Option UtxoLineageRoot) := do
  let root ← removeSpentOutputLineage spent.1 spent.2
  pure (newestLineageRoot inheritedRoot root)

omit [Crypto] in
/-- One created output of a v2 transaction is tagged with the inherited root. -/
def attachOutputV2 (transactionId : Str) (root : UtxoLineageRoot)
    (output : TransactionV2Output × ℕ) : Mutate Error LineageState Unit := do
  bailIf (u32Max < output.2) "transaction v2 output index exceeds u32"
  let outpoint := { txid := transactionId, index := output.2 }
  let state ← get
  let internal ← orError "transaction v2 output is missing after application"
    state.utxos[outpoint]?
  attachExistingOutputLineage outpoint internal root

/-- `apply_transaction_v2_with_lineage`. -/
def applyTransactionV2WithLineage (transaction : TransactionV2) (domain : TransactionV2Domain)
    (network : AddressNetwork) (verifyAuthorizations : Bool) : Mutate Error LineageState Unit := do
  let state ← get
  let spent ← spentOutputs transaction state.utxos
  Mutate.zoom LineageState.utxos (fun state utxos => { state with utxos := utxos })
    (applyTransactionV2ToUtxosWithPolicy transaction domain network verifyAuthorizations)
  let inheritedRoot ← spent.foldlM inheritSpentLineage none
  match inheritedRoot with
  | none => pure ()
  | some root => do
    let transactionId ← transaction.transactionId domain
    forM transaction.outputs.zipIdx (attachOutputV2 (hexEncode transactionId.val) root)

/-! ## Hybrid identities -/

/-- One round of `record_hybrid_legacy_owner_bindings`. -/
def recordHybridLegacyOwnerBinding (network : AddressNetwork) (bindings : BTreeMap Str Str)
    (binding : VersionedAddress × Str) : Result (BTreeMap Str Str) := do
  let hybridOwner ← encodeVersionedAddress binding.1 network
  match bindings[hybridOwner]? with
  | some existing => do
    bailIf (existing ≠ binding.2)
      "hybrid address is bound to conflicting legacy identities"
    pure bindings
  | none => pure (bindings.insert hybridOwner binding.2)

/-- `record_hybrid_legacy_owner_bindings`. -/
def recordHybridLegacyOwnerBindings (bindings : BTreeMap Str Str) (transaction : TransactionV2)
    (network : AddressNetwork) : Result (BTreeMap Str Str) := do
  let newBindings ← transaction.hybridLegacyOwnerBindings
  newBindings.foldlM (recordHybridLegacyOwnerBinding network) bindings

end Iuna
