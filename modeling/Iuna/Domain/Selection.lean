import Iuna.Domain.Apply
import Iuna.Domain.Mempool

/-!
# Selection of the transactions of a block

A finalizer fills the next block from its pending pools.  The burn that anchors the block comes
first, then the burns that the committee has attested, and the space that is left goes to the
transactions that pay the most for each byte.  A pending v2 transaction that a required burn
spends from comes with it.  This module is `selection.rs` and the selection half of
`ledger_pending.rs`.
-/

namespace Iuna

/-! ## Positions in a pool -/

/-- `Vec::remove`, at a position that a search has found. -/
def removeAt {α : Type} (items : List α) (index : ℕ) : Option (α × List α) :=
  items[index]?.map fun item => (item, items.eraseIdx index)

lemma removeAt_perm {α : Type} {items rest : List α} {index : ℕ} {item : α}
    (h : removeAt items index = some (item, rest)) : items.Perm (item :: rest) := by
  obtain ⟨found, hfound, heq⟩ := Option.map_eq_some_iff.mp h
  obtain ⟨rfl, rfl⟩ := Prod.mk.inj heq
  obtain ⟨hlt, rfl⟩ := List.getElem?_eq_some_iff.mp hfound
  exact (List.getElem_cons_eraseIdx_perm hlt).symm

/-! ## Fee rates -/

/-- `TransactionKind`. -/
inductive TransactionKind
  | burn
  deriving DecidableEq

/-- A fee for each million bytes; nothing is paid for an empty encoding. -/
def feePerMillion (fee size : ℕ) : ℕ := if size = 0 then 0 else fee * 1000000 / size

/-- `fee_rate_key`. -/
def feeRateKey (transaction : Transaction) : ℕ :=
  feePerMillion transaction.fee transaction.economicSizeBytes

variable [Crypto]

/-- The position of the best transaction of those that `admitted` lets through and that apply to
`utxos`. -/
def bestApplicableIndex (compare : Transaction → Transaction → Ordering)
    (admitted : Transaction → Bool) (transactions : List Transaction) (utxos : Utxos)
    (signingDomain : TransactionSigningDomain) : Option ℕ :=
  let applicable := (transactions.zipIdx.filter fun entry => admitted entry.1).filter fun entry =>
    Outcome.succeeds (Mutate.outcome (applyTransaction entry.1 signingDomain) utxos)
  (maxBy (fun left right => compare left.1 right.1) applicable).map Prod.snd

/-- `best_selectable_transaction_index`. -/
def bestSelectableTransactionIndex (transactions : List Transaction) (utxos : Utxos)
    (requiredKind : Option TransactionKind) (signingDomain : TransactionSigningDomain) :
    Option ℕ :=
  bestApplicableIndex
    (fun left right =>
      (compare (feeRateKey left) (feeRateKey right)).then
        ((compare left.fee right.fee).then
          ((compare left.isBurn right.isBurn).then (compare right.signature left.signature))))
    (fun transaction => match requiredKind with
      | some .burn => transaction.isBurn
      | none => true)
    transactions utxos signingDomain

/-- `best_selectable_burn_from_index`. -/
def bestSelectableBurnFromIndex (transactions : List Transaction) (utxos : Utxos) (owner : Str)
    (signingDomain : TransactionSigningDomain) : Option ℕ :=
  bestApplicableIndex
    (fun left right =>
      (compare (feeRateKey left) (feeRateKey right)).then
        ((compare left.fee right.fee).then (compare right.signature left.signature)))
    (fun transaction => transaction.isBurn ∧ transaction.sender = owner)
    transactions utxos signingDomain

/-! ## The state of a selection -/

/-- The local variables of the selection: the outputs after what is selected, the pending
transactions that are left, and what is selected. -/
structure Selecting where
  utxos : Utxos
  remaining : List Transaction
  remainingV2 : List TransactionV2
  selection : BlockSelection

omit [Crypto] in
/-- The text of a v2 transaction in a block. -/
def envelopeOf (domain : TransactionV2Domain) (transaction : TransactionV2) : Result Str := do
  let bytes ← transaction.encode domain
  pure (hexEncode bytes)

/-- The identity of a v2 transaction, in hexadecimal, is `id`. -/
def hasTransactionId (domain : TransactionV2Domain) (id : Str) (transaction : TransactionV2) :
    Bool :=
  match transaction.transactionId domain with
  | .ok bytes => hexEncode bytes.val = id
  | .error _ => false

namespace Selecting

/-- How many transactions are selected. -/
def count (packing : Selecting) : ℕ :=
  packing.selection.transactions.length + packing.selection.transactionsV2.length

/-- `selected.push`. -/
def push (packing : Selecting) (transaction : Transaction) : Selecting :=
  { packing with selection := { packing.selection with
      transactions := packing.selection.transactions ++ [transaction] } }

/-- `selected_v2.push`. -/
def pushV2 (packing : Selecting) (envelope : Str) : Selecting :=
  { packing with selection := { packing.selection with
      transactionsV2 := packing.selection.transactionsV2 ++ [envelope] } }

/-- `apply_transaction` to the outputs of the selection. -/
def apply (packing : Selecting) (transaction : Transaction)
    (signingDomain : TransactionSigningDomain) : Result Selecting := do
  let (_, utxos) ← Mutate.outcome (applyTransaction transaction signingDomain) packing.utxos
  pure { packing with utxos := utxos }

/-- `apply_prevalidated_transaction_v2_to_utxos` to the outputs of the selection. -/
def applyV2 (packing : Selecting) (transaction : TransactionV2) (domain : TransactionV2Domain)
    (network : AddressNetwork) : Result Selecting := do
  let (_, utxos) ← Mutate.outcome
    (applyPrevalidatedTransactionV2ToUtxos transaction domain network) packing.utxos
  pure { packing with utxos := utxos }

/-- `apply_prevalidated_transaction_v2_with_pending_parents`.  Every nested call follows the
removal of a pending transaction, so their number bounds the depth. -/
def applyWithPendingParents (domain : TransactionV2Domain) (network : AddressNetwork) :
    ℕ → TransactionV2 → Selecting → Result Selecting
  | 0, transaction, packing => packing.applyV2 transaction domain network
  | depth + 1, transaction, packing => do
    let packing ← (transactionV2Outpoints transaction).foldlM (fun packing outpoint =>
      if outpoint ∈ packing.utxos then pure packing
      else
        match (packing.remainingV2.findIdx? (hasTransactionId domain outpoint.txid)).bind
            (removeAt packing.remainingV2) with
        | none => pure packing
        | some (parent, others) => do
          let packing ← applyWithPendingParents domain network depth parent
            { packing with remainingV2 := others }
          let envelope ← envelopeOf domain parent
          pure (packing.pushV2 envelope)) packing
    packing.applyV2 transaction domain network

end Selecting

/-! ## The required burns -/

omit [Crypto] in
/-- `required_burns`. -/
def BurnBundleSection.requiredBurns (burns : BurnBundleSection) : List Transaction :=
  burns.burns.map MaskedBurn.burn

omit [Crypto] in
/-- `required_burns_v2`. -/
def BurnBundleSection.requiredBurnsV2 (burns : BurnBundleSection) : List Str :=
  burns.burnsV2.map MaskedBurnV2.envelope

namespace Ledger

/-- `select_required_anchor_burn`. -/
def selectRequiredAnchorBurn (ledger : Ledger) (transaction : Transaction)
    (requiredBurnOwner : Option Str) (packing : Selecting) : Result Selecting := do
  bailIf (transaction.isBurn = false) "required block anchor must be a burn transaction"
  bailIf (requiredBurnOwner.any fun owner => transaction.sender ≠ owner)
    "required block anchor burn must be from the recovery finalizer"
  bailIf (ledger.launchProfile.maxBlockTransactions ≤ packing.selection.transactions.length)
    "required block anchor burn does not fit within the transaction count limit"
  let packing ← withContext "required block anchor burn is not spendable"
    (packing.apply transaction ledger.transactionSigningDomain)
  pure (packing.push transaction)

/-- Where the anchor burn is: its position among the pending transactions, or among the pending
v2 transactions. -/
def anchorIndices (ledger : Ledger) (domain : TransactionV2Domain)
    (requiredBurnOwner requiredBurnSignature : Option Str) (packing : Selecting) :
    Result (Option ℕ × Option ℕ) :=
  let orElseV2 (legacy : Option ℕ) (wanted : TransactionV2 → Bool) : Option ℕ × Option ℕ :=
    (legacy, if legacy.isNone then packing.remainingV2.findIdx? wanted else none)
  match requiredBurnSignature, requiredBurnOwner with
  | some signature, _ => do
    let indices := orElseV2
      (packing.remaining.findIdx? fun transaction => transaction.signature = signature)
      (hasTransactionId domain signature)
    bailIf (indices = (none, none)) s!"required burn {String.ofList signature} is not pending"
    pure indices
  | none, some owner =>
    pure (orElseV2
      (bestSelectableBurnFromIndex packing.remaining packing.utxos owner
        ledger.transactionSigningDomain)
      fun transaction => transaction.isBurn && match transaction.burnLegacyOwner with
        | .ok candidate => candidate = some owner
        | .error _ => false)
  | none, none =>
    pure (orElseV2
      (bestSelectableTransactionIndex packing.remaining packing.utxos (some .burn)
        ledger.transactionSigningDomain)
      TransactionV2.isBurn)

/-- The anchor burn among the pending transactions is selected first. -/
def selectAnchor (ledger : Ledger) (requiredBurnOwner : Option Str) (required : BTreeSet Str)
    (index : Option ℕ) (packing : Selecting) : Result (BTreeSet Str × Selecting) :=
  match index.bind (removeAt packing.remaining) with
  | none => pure (∅, packing)
  | some (transaction, others) => do
    let packing ← ledger.selectRequiredAnchorBurn transaction requiredBurnOwner
      { packing with remaining := others }
    pure (if transaction.signature ∈ required then
      (insertIds ∅ [transaction.signature], packing) else (∅, packing))

omit [Crypto] in
/-- The anchor burn is from the owner that the finalizer requires. -/
def ensureAnchorBurnFrom (requiredBurnOwner : Option Str) (transaction : TransactionV2) :
    Result Unit :=
  match requiredBurnOwner with
  | none => pure ()
  | some owner => do
    let burnOwner ← transaction.burnLegacyOwner
    bailIf (burnOwner ≠ some owner)
      "required block anchor burn must be from the recovery finalizer"

/-- The anchor burn among the pending v2 transactions, with the pending parents it spends from. -/
def selectAnchorV2 (ledger : Ledger) (domain : TransactionV2Domain)
    (requiredBurnOwner : Option Str) (required : BTreeSet Str) (index : Option ℕ)
    (packing : Selecting) : Result (BTreeSet Str × Selecting) :=
  match index.bind (removeAt packing.remainingV2) with
  | none => pure (∅, packing)
  | some (transaction, others) => do
    bailIf (transaction.isBurn = false) "required block anchor must be a burn transaction"
    ensureAnchorBurnFrom requiredBurnOwner transaction
    let packing ← withContext "required transaction v2 anchor burn is not spendable"
      (Selecting.applyWithPendingParents domain ledger.network others.length transaction
        { packing with remainingV2 := others })
    let envelope ← envelopeOf domain transaction
    let packing := packing.pushV2 envelope
    pure (insertIds ∅ (packing.selection.transactionsV2.filter fun selected =>
      selected ∈ required), packing)

/-- The loop over the attested burns.  The position of the source splits what remains into
`passed` and the rest. -/
def selectAttestedBurns (ledger : Ledger) (required : BTreeSet Str) :
    List Transaction → List Transaction → BTreeSet Str → Selecting →
    Result (BTreeSet Str × Selecting)
  | passed, [], selected, packing => pure (selected, { packing with remaining := passed })
  | passed, transaction :: rest, selected, packing =>
    if selected.size < required.size then
      if transaction.signature ∈ required then do
        bailIf (transaction.isBurn = false) "attested transaction must be a burn"
        bailIf (ledger.launchProfile.maxBlockTransactions ≤ packing.selection.transactions.length)
          "attested burns do not fit within the block transaction count limit"
        let packing ← withContext "attested burn is not spendable"
          (packing.apply transaction ledger.transactionSigningDomain)
        selectAttestedBurns ledger required passed rest
          (insertIds selected [transaction.signature]) (packing.push transaction)
      else selectAttestedBurns ledger required (passed ++ [transaction]) rest selected packing
    else pure (selected, { packing with remaining := passed ++ transaction :: rest })

omit [Crypto] in
/-- Every attested burn has been found. -/
def ensureAllAttested (required selected : BTreeSet Str) : Result Unit :=
  if selected.size = required.size then pure ()
  else
    match required.keys.find? fun signature => signature ∉ selected with
    | none => bail "attested burn selection is inconsistent"
    | some missing => bail s!"attested burn {String.ofList missing} is not pending"

omit [Crypto] in
/-- The first pending v2 transaction whose envelope is required, and the others. -/
def findAttestedV2 (domain : TransactionV2Domain) (required : BTreeSet Str) :
    List TransactionV2 → Result (Option (TransactionV2 × Str × List TransactionV2))
  | [] => pure none
  | transaction :: rest => do
    let envelope ← envelopeOf domain transaction
    if envelope ∈ required then pure (some (transaction, envelope, rest))
    else do
      let found ← findAttestedV2 domain required rest
      pure (found.map fun (attested, envelope, others) =>
        (attested, envelope, transaction :: others))

/-- The loop over the attested v2 burns: a turn takes one of them, with its pending parents, and
looks for the next from the start.  A turn removes a pending transaction, so their number bounds
the turns. -/
def selectAttestedBurnsV2 (ledger : Ledger) (domain : TransactionV2Domain)
    (required : BTreeSet Str) : ℕ → BTreeSet Str → Selecting → Result (BTreeSet Str × Selecting)
  | 0, selected, packing => pure (selected, packing)
  | turns + 1, selected, packing =>
    if selected.size < required.size then do
      match ← findAttestedV2 domain required packing.remainingV2 with
      | none => pure (selected, packing)
      | some (transaction, envelope, others) => do
        bailIf (transaction.isBurn = false) "attested transaction v2 must be a burn"
        let packed ← withContext "attested transaction v2 burn is not spendable"
          (Selecting.applyWithPendingParents domain ledger.network others.length transaction
            { packing with remainingV2 := others })
        let parents := packed.selection.transactionsV2.drop
          packing.selection.transactionsV2.length
        let packed := packed.pushV2 envelope
        bailIf (ledger.launchProfile.maxBlockTransactions < packed.count)
          ("attested transaction v2 burns do not fit within the block transaction count " ++
            "limit")
        selectAttestedBurnsV2 ledger domain required turns
          (insertIds selected ((parents.filter fun parent => parent ∈ required) ++ [envelope]))
          packed
    else pure (selected, packing)

/-! ## The rest of the block -/

/-- The best v2 transaction of those that apply, with its rate and the outputs after it. -/
def bestSelectableV2 (domain : TransactionV2Domain) (network : AddressNetwork)
    (packing : Selecting) : Option (ℕ × ℕ × Utxos) :=
  maxBy (fun left right => (compare left.2.1 right.2.1).then (compare right.1 left.1))
    (packing.remainingV2.zipIdx.filterMap fun entry => do
      let applied ← (packing.applyV2 entry.1 domain network).toOption
      let bytes ← (entry.1.encode domain).toOption
      pure (entry.2, feePerMillion entry.1.fee bytes.length, applied.utxos))

/-- A transaction is taken from the pool, and selected if the block has room for it. -/
def offerLegacy (ledger : Ledger) (finalizerMode : FinalizerMode)
    (burnBundleSection : BurnBundleSection) (index : ℕ) (packing : Selecting) : Result Selecting :=
  match removeAt packing.remaining index with
  | none => pure packing
  | some (transaction, others) => do
    let packing := { packing with remaining := others }
    let candidate := packing.push transaction
    let size ← estimatedBlockSelectionSizeBytes ledger.compactBlockContext candidate.selection
      finalizerMode burnBundleSection
    if size ≤ ledger.launchProfile.maxBlockBytes then
      candidate.apply transaction ledger.transactionSigningDomain
    else pure packing

/-- A v2 transaction is taken from the pool, and selected if the block has room for it. -/
def offerV2 (ledger : Ledger) (domain : TransactionV2Domain) (finalizerMode : FinalizerMode)
    (burnBundleSection : BurnBundleSection) (index : ℕ) (candidateUtxos : Utxos)
    (packing : Selecting) : Result Selecting :=
  match removeAt packing.remainingV2 index with
  | none => pure packing
  | some (transaction, others) => do
    let packing := { packing with remainingV2 := others }
    let envelope ← envelopeOf domain transaction
    let candidate := packing.pushV2 envelope
    let size ← estimatedBlockSelectionSizeBytes ledger.compactBlockContext candidate.selection
      finalizerMode burnBundleSection
    if size ≤ ledger.launchProfile.maxBlockBytes then
      pure { candidate with utxos := candidateUtxos }
    else pure packing

/-- One turn of the loop that fills the block, if it has room and something can be selected. -/
def fillTurn (ledger : Ledger) (domain : TransactionV2Domain) (finalizerMode : FinalizerMode)
    (burnBundleSection : BurnBundleSection) (packing : Selecting) : Option (Result Selecting) :=
  if ledger.launchProfile.maxBlockTransactions ≤ packing.count then none
  else
    let legacy := (bestSelectableTransactionIndex packing.remaining packing.utxos none
      ledger.transactionSigningDomain).map fun index =>
        (index, (packing.remaining[index]?.map feeRateKey).getD 0)
    match legacy, bestSelectableV2 domain ledger.network packing with
    | none, none => none
    | none, some (index, _, utxos) =>
      some (ledger.offerV2 domain finalizerMode burnBundleSection index utxos packing)
    | some (index, _), none =>
      some (ledger.offerLegacy finalizerMode burnBundleSection index packing)
    | some (index, rate), some (indexV2, rateV2, utxos) =>
      some (if rate < rateV2 then
        ledger.offerV2 domain finalizerMode burnBundleSection indexV2 utxos packing
        else ledger.offerLegacy finalizerMode burnBundleSection index packing)

/-- The loop that fills the block.  A turn removes a pending transaction, so their number bounds
the turns. -/
def fillBlock (ledger : Ledger) (domain : TransactionV2Domain) (finalizerMode : FinalizerMode)
    (burnBundleSection : BurnBundleSection) : ℕ → Selecting → Result Selecting
  | 0, packing => pure packing
  | turns + 1, packing =>
    match ledger.fillTurn domain finalizerMode burnBundleSection packing with
    | none => pure packing
    | some turn => do
      let packing ← turn
      fillBlock ledger domain finalizerMode burnBundleSection turns packing

/-! ## The selection -/

/-- The pools that a selection starts from. -/
def packable (ledger : Ledger) : Selecting where
  utxos := ledger.utxos
  remaining := ledger.validPendingTransactions.filter ledger.transactionIsEligibleForNextBlock
  remainingV2 := if transactionV2ActivationHeight ≤ saturatingAdd ledger.height 1 then
    ledger.pendingV2.filter ledger.transactionV2IsEligibleForNextBlock else []
  selection := { transactions := [], transactionsV2 := [] }

/-- The part of the selection that the block cannot do without: the anchor and the attested
burns. -/
def selectRequired (ledger : Ledger) (domain : TransactionV2Domain)
    (requiredBurnOwner requiredBurnSignature : Option Str)
    (burnBundleSection : BurnBundleSection) : Result Selecting := do
  let required := insertIds ∅ (burnBundleSection.requiredBurns.map Transaction.signature)
  let requiredV2 := insertIds ∅ burnBundleSection.requiredBurnsV2
  let packing := ledger.packable
  let (index, indexV2) ← ledger.anchorIndices domain requiredBurnOwner requiredBurnSignature
    packing
  let (selected, packing) ← ledger.selectAnchor requiredBurnOwner required index packing
  let (selectedV2, packing) ← ledger.selectAnchorV2 domain requiredBurnOwner requiredV2 indexV2
    packing
  let (selected, packing) ← ledger.selectAttestedBurns required [] packing.remaining selected
    packing
  ensureAllAttested required selected
  let (selectedV2, packing) ← ledger.selectAttestedBurnsV2 domain requiredV2
    packing.remainingV2.length selectedV2 packing
  bailIf (selectedV2.size ≠ requiredV2.size) "attested transaction v2 burn is not pending"
  pure packing

/-- `select_block_transactions_with_required_burn_owner`. -/
def selectBlockTransactionsWithRequiredBurnOwner (ledger : Ledger)
    (requiredBurnOwner requiredBurnSignature : Option Str) (finalizerMode : FinalizerMode)
    (burnBundleSection : BurnBundleSection) : Result BlockSelection := do
  let domain ← ledger.transactionV2Domain
  let packing ← ledger.selectRequired domain requiredBurnOwner requiredBurnSignature
    burnBundleSection
  let size ← estimatedBlockSelectionSizeBytes ledger.compactBlockContext packing.selection
    finalizerMode burnBundleSection
  bailIf (ledger.launchProfile.maxBlockBytes < size)
    "required block content does not fit in the block"
  let packing ← ledger.fillBlock domain finalizerMode burnBundleSection
    (packing.remaining.length + packing.remainingV2.length) packing
  pure packing.selection

/-- `select_block_transactions_with_burn_section`. -/
def selectBlockTransactionsWithBurnSection (ledger : Ledger) (miner : Str)
    (requiredBurnSignature : Option Str) (burnBundleSection : BurnBundleSection) :
    Result BlockSelection :=
  ledger.selectBlockTransactionsWithRequiredBurnOwner (some miner) requiredBurnSignature .ticket
    burnBundleSection

/-- `select_recovery_block_transactions_with_burn_section`. -/
def selectRecoveryBlockTransactionsWithBurnSection (ledger : Ledger) (miner : Str)
    (requiredBurnSignature : Option Str) (burnBundleSection : BurnBundleSection) :
    Result BlockSelection :=
  ledger.selectBlockTransactionsWithRequiredBurnOwner (some miner) requiredBurnSignature
    .recovery burnBundleSection

end Ledger

end Iuna
