import Iuna.Domain.Pending

/-!
# Submission to the mempool

A submitted transaction joins the pending pool, waits among the orphans for inputs that nothing
has created yet, or is rejected; when the pool is full, packages of connected transactions with a
lower fee rate make room for it.  This module is `ledger_mempool.rs` and `submit_transaction_v2`.
As in `Pending`, the functions write the pools only.
-/

namespace Iuna

/-- `TransactionSubmitOutcome`. -/
inductive TransactionSubmitOutcome
  | added
  | alreadyKnown
  | conflictsWithPending
  deriving DecidableEq

/-! ## Eviction -/

/-- `EvictionPackage`. -/
structure EvictionPackage where
  signatures : List Str
  fee : ℕ
  economicBytes : ℕ
  pendingBytes : ℕ
  pendingCount : ℕ
  tieBreak : Str

/-- `protocol_id_size_bytes`. -/
def protocolIdSizeBytes (value : Str) : ℕ :=
  match decodeHex value with
  | .ok bytes => if bytes.length = hashBytes then hashBytes else signatureBytes
  | .error _ => signatureBytes

/-- `compact_inputs_size_bytes`. -/
def compactInputsSizeBytes (inputs : List TxInput) : ℕ :=
  (inputs.map fun input => protocolIdSizeBytes input.outpoint.txid
    + compactLen input.outpoint.index + publicKeyBytes).sum

/-- `compact_outputs_size_bytes`. -/
def compactOutputsSizeBytes (outputs : List TxOutput) : ℕ :=
  (outputs.map fun output => publicKeyBytes + compactLen output.amount).sum

/-- `economic_size_bytes`. -/
def Transaction.economicSizeBytes : Transaction → ℕ
  | .transfer inputs outputs fee _ =>
    1 + compactLen inputs.length + compactInputsSizeBytes inputs + compactLen outputs.length
      + compactOutputsSizeBytes outputs + compactLen fee + signatureBytes
  | .burn inputs change amount fee anchor _ =>
    1 + compactLen inputs.length + compactInputsSizeBytes inputs + compactLen change.length
      + compactOutputsSizeBytes change + compactLen amount + compactLen fee
      + (if anchor.isSome then hashBytes else 0) + signatureBytes
  | .mine _ _ salt nonce difficultyBits proofHeader _ =>
    1 + publicKeyBytes + hashBytes + compactLen salt + compactLen nonce
      + compactLen difficultyBits + 1 + (if proofHeader.isSome then stratumMineHeaderBytes else 0)
      + hashBytes

/-- The position of a pending transaction by its signature: the last one, as in the map that the
source collects. -/
def pendingIndex (pending : List Transaction) (signature : Str) : Option ℕ :=
  (pending.zipIdx.reverse.find? fun entry => entry.1.signature = signature).map Prod.snd

/-- The parents and the children of a pending transaction among the pending ones, in the order in
which the source records the edges. -/
def pendingEdges (pending : List Transaction) (index : ℕ) : List ℕ :=
  pending.zipIdx.flatMap fun entry =>
    entry.1.inputs.flatMap fun input =>
      match pendingIndex pending input.outpoint.txid with
      | none => []
      | some parent =>
        (if entry.2 = index then [parent] else []) ++ (if parent = index then [entry.2] else [])

/-- The depth-first search of `pending_eviction_plan` for a component: the stack, the visited
positions and the component so far.  Every round pops a position that was pushed when it was first
visited, so the number of transactions bounds the rounds. -/
def connectedComponent (pending : List Transaction) :
    ℕ → List ℕ → List ℕ → List ℕ → List ℕ × List ℕ
  | 0, _, visited, indices => (visited, indices)
  | _ + 1, [], visited, indices => (visited, indices)
  | fuel + 1, index :: stack, visited, indices =>
    let (visited, stack) := (pendingEdges pending index).foldl (fun state adjacent =>
      if adjacent ∈ state.1 then state else (adjacent :: state.1, adjacent :: state.2))
      (visited, stack)
    connectedComponent pending fuel stack visited (indices ++ [index])

/-- The package of a component. -/
def evictionPackage (pending : List Transaction) (indices : List ℕ) : Result EvictionPackage := do
  let transactions := indices.filterMap fun index => pending[index]?
  let pendingBytes ← transactions.foldlM (fun total transaction =>
    orError "pending eviction package byte size overflow"
      (checkedAdd total transaction.jsonSize)) 0
  let signatures := (transactions.map Transaction.signature).mergeSort fun left right =>
    compare left right ≠ .gt
  pure {
    signatures := signatures
    fee := (transactions.map Transaction.fee).sum
    economicBytes := (transactions.map Transaction.economicSizeBytes).sum
    pendingBytes := pendingBytes
    pendingCount := indices.length
    tieBreak := signatures.head?.getD [] }

/-- The packages that may be evicted for a candidate: the components of the pending graph that
contain none of its parents. -/
def evictionPackages (pending : List Transaction) (candidate : Transaction) :
    List ℕ → List ℕ → Result (List EvictionPackage)
  | [], _ => pure []
  | start :: starts, visited =>
    if start ∈ visited then evictionPackages pending candidate starts visited
    else do
      let (visited, indices) := connectedComponent pending pending.length [start]
        (start :: visited) []
      let isProtected := indices.any fun index => candidate.inputs.any fun input =>
        pendingIndex pending input.outpoint.txid = some index
      if isProtected then evictionPackages pending candidate starts visited
      else do
        let package ← evictionPackage pending indices
        let packages ← evictionPackages pending candidate starts visited
        pure (package :: packages)

/-- `u128::saturating_mul`. -/
def saturatingMulWide (a b : ℕ) : ℕ := min (a * b) u128Max

/-- `compare_package_fee_rate`. -/
def comparePackageFeeRate (left right : EvictionPackage) : Ordering :=
  ((compare (saturatingMulWide left.fee right.economicBytes)
    (saturatingMulWide right.fee left.economicBytes)).then
    (compare left.fee right.fee)).then (compare left.tieBreak right.tieBreak)

/-- The rounds of `extend_with_orphan_descendants`: a round that changes something adds an orphan,
so their number bounds the rounds. -/
def extendWithOrphanDescendants (orphans : List Transaction) : ℕ → List Str → List Str
  | 0, evicted => evicted
  | fuel + 1, evicted =>
    let extended := orphans.foldl (fun evicted orphan =>
      if orphan.signature ∉ evicted
          ∧ orphan.inputs.any (fun input => input.outpoint.txid ∈ evicted) then
        orphan.signature :: evicted
      else evicted) evicted
    if extended.length = evicted.length then evicted
    else extendWithOrphanDescendants orphans fuel extended

/-- Whether a candidate fits beside the transactions that remain. -/
def candidateFits (remainingCount remainingBytes candidateBytes : ℕ) : Bool :=
  remainingCount < maxPendingTransactions
    ∧ remainingBytes + candidateBytes ≤ maxPendingPoolBytes

/-- The loop of `pending_eviction_plan` over the packages, cheapest first. -/
def evictPackages (candidate : Transaction) (candidateBytes : ℕ) :
    List EvictionPackage → ℕ → ℕ → List Str → Option (List Str)
  | [], remainingCount, remainingBytes, evicted =>
    if candidateFits remainingCount remainingBytes candidateBytes then some evicted else none
  | package :: packages, remainingCount, remainingBytes, evicted =>
    if candidateFits remainingCount remainingBytes candidateBytes then some evicted
    else if saturatingMulWide candidate.fee package.economicBytes
        ≤ saturatingMulWide package.fee candidate.economicSizeBytes then none
    else evictPackages candidate candidateBytes packages (remainingCount - package.pendingCount)
      (remainingBytes - package.pendingBytes) (package.signatures ++ evicted)

/-- `pending_eviction_plan`. -/
def pendingEvictionPlan (pending orphans : List Transaction) (candidate : Transaction)
    (candidateBytes : ℕ) : Result (List Str) := do
  bailIf (maxPendingPoolBytes < candidateBytes) "mempool byte limit exceeded"
  let packages ← evictionPackages pending candidate (List.range pending.length) []
  let sorted := packages.mergeSort fun left right => comparePackageFeeRate left right ≠ .gt
  let remainingBytes ← Ledger.serializedPoolLen pending
  let evicted ← orError
    "mempool is full and candidate fee rate does not exceed an evictable package"
    (evictPackages candidate candidateBytes sorted pending.length remainingBytes [])
  pure (extendWithOrphanDescendants orphans (orphans.length + 1) evicted)

/-! ## Legacy submissions -/

/-- `pending_room_required`. -/
def Pools.pendingRoomRequired (pools : Pools) (candidateBytes : ℕ) : Bool :=
  maxPendingTransactions ≤ pools.pending.length
    ∨ maxPendingPoolBytes < pools.pendingBytes + candidateBytes

/-- `make_pending_room`. -/
def makePendingRoom (candidate : Transaction) (candidateBytes : ℕ) : Mutate Error Pools Unit := do
  let pools ← get
  if pools.pendingRoomRequired candidateBytes then do
    let evicted ← pendingEvictionPlan pools.pending pools.orphans candidate candidateBytes
    modify fun pools => { pools with
      pending := pools.pending.filter fun transaction => transaction.signature ∉ evicted
      orphans := pools.orphans.filter fun transaction => transaction.signature ∉ evicted }
    Ledger.refreshPendingPoolByteCounters

/-- `restore_pending_after_failed_replacement` around a step: on failure the legacy pools are put
back if a replacement was under way. -/
def restoringOnFailure {α : Type} (backup : Option Pools) (x : Mutate Error Pools α) :
    Mutate Error Pools α := fun pools =>
  match x pools with
  | .ok a pools' => .ok a pools'
  | .error e pools' =>
    match backup with
    | none => .error e pools'
    | some backup => .error e { pools' with
        pending := backup.pending, orphans := backup.orphans,
        pendingBytes := backup.pendingBytes, orphanBytes := backup.orphanBytes }

namespace Ledger

variable [Crypto]

omit [Crypto] in
/-- `has_transaction`. -/
def hasTransaction (ledger : Ledger) (signature : Str) : Bool :=
  signature ∈ ledger.minedTransactionIds
    ∨ (ledger.pending ++ ledger.orphans).any fun transaction => transaction.signature = signature

omit [Crypto] in
/-- `transaction_conflicts_with_pending_v2`. -/
def transactionConflictsWithPendingV2 (ledger : Ledger) (transaction : Transaction) : Bool :=
  transaction.inputs.any fun legacyInput => ledger.pendingV2.any fun pending =>
    match pending with
    | .migration inputs _ _ _ => inputs.any fun v2Input => v2Input.outpoint = legacyInput.outpoint
    | _ => false

/-- The admission of a spendable candidate, after room has been made. -/
def admitPending (ledger : Ledger) (transaction : Transaction)
    (signingDomain : TransactionSigningDomain) (candidateBytes : ℕ) : Mutate Error Pools Unit := do
  makePendingRoom transaction candidateBytes
  let pools ← get
  let utxos ← (ledger.withPools pools).utxosAfterValidPending
  bailIf (transactionHasMissingInputs transaction utxos)
    "mempool replacement removed a candidate dependency"
  let (_, _) ← Mutate.outcome (applyTransaction transaction signingDomain) utxos
  modify fun pools => { pools with
    pending := pools.pending ++ [transaction]
    pendingBytes := saturatingAdd pools.pendingBytes candidateBytes }
  ledger.promoteOrphanTransactions

/-- `submit_transaction_with_outcome`. -/
def submitTransactionWithOutcome (ledger : Ledger) (transaction : Transaction) :
    Mutate Error Pools TransactionSubmitOutcome := do
  let pools ← get
  let current := ledger.withPools pools
  if current.hasTransaction transaction.signature then pure .alreadyKnown
  else do
    current.validateTransactionTerms transaction
    current.validateTransactionAnchorForPending transaction
    let signingDomain := current.transactionSigningDomainForPending transaction
    transaction.verifySignature signingDomain
    ensureTransactionFitsEmptyBlock current.compactBlockContext transaction
      current.launchProfile.maxBlockBytes
    current.validateMineAnchorAvailable transaction
    if transactionInputsSpentBy transaction pools.pending
        ∨ transactionInputsSpentBy transaction pools.orphans
        ∨ current.transactionConflictsWithPendingV2 transaction then
      pure .conflictsWithPending
    else do
      let utxos ← current.utxosAfterValidPending
      if transactionHasMissingInputs transaction utxos then do
        bailIf (maxOrphanTransactions ≤ pools.orphans.length)
          "orphan transaction pool is full"
        let totalBytes ← checkedAddBytes pools.orphanBytes transaction.jsonSize
        bailIf (maxPendingPoolBytes < totalBytes) "orphan transaction pool byte limit exceeded"
        modify fun pools => { pools with
          orphans := pools.orphans ++ [transaction]
          orphanBytes := saturatingAdd pools.orphanBytes transaction.jsonSize }
        pure .added
      else do
        let (_, _) ← Mutate.outcome (applyTransaction transaction signingDomain) utxos
        let candidateBytes := transaction.jsonSize
        let backup := if pools.pendingRoomRequired candidateBytes then some pools else none
        restoringOnFailure backup
          (ledger.admitPending transaction signingDomain candidateBytes)
        pure .added

/-! ## v2 submissions -/

/-- `utxos_after_all_spendable_pending`. -/
def utxosAfterAllSpendablePending (ledger : Ledger) : Result Utxos := do
  let utxos := ledger.utxosAfterSpendablePending
  if ledger.pendingV2 = [] then pure utxos
  else do
    let domain ← ledger.transactionV2Domain
    let (_, utxos) ← Mutate.outcome (forM ledger.pendingV2 fun pending =>
      applyPrevalidatedTransactionV2ToUtxos pending domain ledger.network) utxos
    pure utxos

/-- Whether a missing input is one that the confirmed state or a pending v2 transaction creates:
it is reserved then, and not unknown. -/
def inputIsReserved (ledger : Ledger) (domain : TransactionV2Domain) (outpoint : OutPoint) : Bool :=
  outpoint ∈ ledger.utxos ∨ ledger.pendingV2.any fun pending =>
    match pending.transactionId domain with
    | .ok id => hexEncode id.val = outpoint.txid ∧ outpoint.index < pending.outputs.length
    | .error _ => false

/-- `submit_transaction_v2`. -/
def submitTransactionV2 (ledger : Ledger) (transaction : TransactionV2) :
    Mutate Error Pools TransactionSubmitOutcome := do
  let pools ← get
  let current := ledger.withPools pools
  let height := saturatingAdd current.height 1
  ensureTransactionV2Active height
  transaction.validateAuthorizationPolicyAtHeight height
  current.validateTransactionV2AnchorForPending transaction
  let domain ← current.transactionV2Domain
  let transactionId ← transaction.transactionId domain
  if pools.pendingV2.any fun pending => pending.transactionId domain = .ok transactionId then
    pure .alreadyKnown
  else do
    bailIf (transaction.fee = 0) "public transaction v2 fee must be greater than zero"
    let encoded ← transaction.encode domain
    ensureTransactionV2FitsEmptyBlock current.compactBlockContext (hexEncode encoded)
      current.launchProfile.maxBlockBytes
    bailIf (current.launchProfile.maxPendingTransactions
        ≤ pools.pending.length + pools.pendingV2.length)
      "mempool is full"
    bailIf (maxPendingPoolBytes
        < saturatingAdd pools.pendingBytes pools.pendingV2Bytes + encoded.length)
      "mempool byte limit exceeded"
    let utxos ← current.utxosAfterAllSpendablePending
    let missingInputs := (transactionV2Outpoints transaction).filter fun outpoint =>
      outpoint ∉ utxos
    match missingInputs.head? with
    | some first =>
      if missingInputs.all (current.inputIsReserved domain) then
        liftM (Except.error (Error.context
          s!"transaction v2 input {String.ofList first.id} is already reserved"
          (Error.validation .mempoolConflict)) : Result Unit)
      else pure ()
    | none => pure ()
    let (_, _) ← Mutate.outcome
      (applyTransactionV2ToUtxos transaction domain current.network) utxos
    modify fun pools => { pools with
      pendingV2 := pools.pendingV2 ++ [transaction]
      pendingV2Bytes := saturatingAdd pools.pendingV2Bytes encoded.length }
    pure .added

end Ledger

end Iuna
