import Iuna.App.Gossip
import Iuna.Domain.Reveal

/-!
# The node

`NodeCore`: a ledger, the burn bundles collected for the next block and the gossip to be sent.
This module is `receive.rs`, `mempool_gossip`, and the burn bundles of `wallet.rs`.  The state of
automatic mining and the bound on resident history, which none of these functions read, are left
out.
-/

namespace Iuna

/-- The key of a collected burn bundle: its height, slot and member. -/
structure BurnBundleKey where
  height : ℕ
  slot : ℕ
  member : Str
  deriving DecidableEq

instance : Ord BurnBundleKey where
  compare := compareLex (compareOn BurnBundleKey.height)
    (compareLex (compareOn BurnBundleKey.slot) (compareOn BurnBundleKey.member))

instance : Std.TransOrd BurnBundleKey :=
  inferInstanceAs (Std.TransCmp (compareLex (compareOn BurnBundleKey.height)
    (compareLex (compareOn BurnBundleKey.slot) (compareOn BurnBundleKey.member))))

instance : Std.LawfulEqOrd BurnBundleKey where
  eq_of_compare {a b} h := by
    have hlex : (compareOn BurnBundleKey.height a b).then ((compareOn BurnBundleKey.slot a b).then
        (compareOn BurnBundleKey.member a b)) = .eq := h
    rw [Ordering.then_eq_eq, Ordering.then_eq_eq] at hlex
    obtain ⟨hheight, hslot, hmember⟩ := hlex
    cases a
    cases b
    simp only [compareOn] at hheight hslot hmember
    rw [Std.LawfulEqOrd.eq_of_compare hheight, Std.LawfulEqOrd.eq_of_compare hslot,
      Std.LawfulEqOrd.eq_of_compare hmember]

/-- The key of a bundle. -/
def BurnBundle.key (bundle : BurnBundle) : BurnBundleKey :=
  ⟨bundle.height, bundle.slot, bundle.member⟩

/-- `NodeCore`. -/
structure Node where
  ledger : Ledger
  networkMigrationFrom : Option Str
  burnBundles : BTreeMap BurnBundleKey BurnBundle
  equivocatedBurnBundleSlots : BTreeSet BurnBundleKey
  outbox : Outbox

/-- An unlocked wallet: its address, its signatures and the reward address that it discovers. -/
structure Wallet where
  address : Str
  signPayload : Str → Str
  rewardAddress : Ledger → ℕ → Result Str

/-- `error_has_validation`. -/
def Error.hasValidation (failure : ValidationError) : Error → Bool
  | .validation found => found = failure
  | .message _ => false
  | .context _ cause => cause.hasValidation failure

namespace Ledger

/-- `first_contiguous_resident_height`. -/
def firstContiguousResidentHeight (ledger : Ledger) : ℕ :=
  if ledger.historyPruned then (ledger.chain[1]?.map Block.height).getD 0 else 0

/-- `blocks_from`. -/
def blocksFrom (ledger : Ledger) (fromHeight limit : ℕ) : List Block :=
  if limit = 0 ∨ fromHeight < ledger.firstContiguousResidentHeight then []
  else (ledger.chain.filter fun block => fromHeight ≤ block.height).take limit

/-- `is_setup_placeholder`. -/
def isSetupPlaceholder (ledger : Ledger) : Bool :=
  ledger.height = 0 ∧ ledger.genesisAllocations.isEmpty ∧ ledger.genesis.transactions = []
    ∧ ledger.pending = []

variable [Crypto]

/-- `decode_transaction_v2`. -/
def decodeTransactionV2 (ledger : Ledger) (encoded : Bytes) : Result TransactionV2 := do
  let (domain, transaction) ← TransactionV2.decode encoded
  let expected ← ledger.transactionV2Domain
  bailIf (domain ≠ expected) "transaction v2 belongs to a different chain domain"
  pure transaction

/-- `precheck_next_block_burn_bundle`: the first rank whose committee accepts the bundle. -/
def precheckNextBlockBurnBundle (ledger : Ledger) (bundle : BurnBundle) : Result Unit := do
  let expectedHeight := ledger.tip.height + 1
  let maxRank := min
    (rankedTicketsForHeight ledger.tip expectedHeight ledger.tickets).length burnCommitteeSize
  let results := (List.range maxRank).map fun rank =>
    ledger.precheckBurnBundleForBlock expectedHeight ledger.tip.hash
      (ledger.burnCommitteeForTicketBlock expectedHeight rank) bundle
  if results.any Outcome.succeeds then pure ()
  else results.head?.getD (bail "burn bundle slot is not assigned")

/-- `burn_committee_memberships_for_next_block`: one membership for each slot, in slot order. -/
def burnCommitteeMembershipsForNextBlock (ledger : Ledger) (owner : Str) :
    List BurnCommitteeMember :=
  let expectedHeight := ledger.tip.height + 1
  let maxRank := min
    (rankedTicketsForHeight ledger.tip expectedHeight ledger.tickets).length burnCommitteeSize
  let members := (List.range maxRank).flatMap (ledger.burnCommitteeForTicketBlock expectedHeight)
  let memberships := (members.filter fun member => member.owner = owner).foldl
    (fun memberships member =>
      if memberships.any fun other => other.slot = member.slot then memberships
      else memberships ++ [member]) []
  memberships.mergeSort fun left right => left.slot ≤ right.slot

/-- The burns that `build_burn_bundles` may attest: the fee, the id, and the legacy transaction or
the v2 envelope. -/
def bundleCandidates (ledger : Ledger) : Result (List (Amount × Str × (Transaction ⊕ Str))) := do
  let burns := ledger.validPendingTransactions.filter fun transaction =>
    transaction.isBurn ∧ ledger.transactionIsEligibleForNextBlock transaction
  let domain ← ledger.transactionV2Domain
  let burnsV2 := ledger.pendingV2.filter fun transaction =>
    transaction.isBurn ∧ ledger.transactionV2IsEligibleForNextBlock transaction
      ∧ (transactionV2Outpoints transaction).all fun outpoint => outpoint ∈ ledger.utxos
  let candidatesV2 ← burnsV2.mapM fun transaction => do
    let id ← transaction.transactionId domain
    let encoded ← transaction.encode domain
    pure (transaction.fee, hexEncode id.val, Sum.inr (hexEncode encoded))
  let candidates := (burns.map fun burn => (burn.fee, burn.signature, Sum.inl burn)) ++ candidatesV2
  pure (candidates.mergeSort fun left right =>
    ((compare right.1 left.1).then (compare left.2.1 right.2.1)) ≠ .gt)

end Ledger

/-- `burn_bundle` of the wallet, on a payload of the next block. -/
def Wallet.burnBundle (wallet : Wallet) (ledger : Ledger) (slot : ℕ) (rewardAddress : Option Str)
    (burns : List Transaction) (burnsV2 : List Str) : BurnBundle :=
  let payload : BurnBundle := {
    height := ledger.tip.height + 1
    prevHash := ledger.tip.hash
    slot := slot
    member := wallet.address
    rewardAddress := rewardAddress
    burns := burns
    burnsV2 := burnsV2
    signature := [] }
  { payload with signature := wallet.signPayload payload.canonicalPayload }

/-- One candidate of `build_burn_bundles`: it is selected if the bundle stays within its size. -/
def selectCandidate (wallet : Wallet) (ledger : Ledger) (slot : ℕ) (rewardAddress : Option Str)
    (selected : List Transaction × List Str) (candidate : Amount × Str × (Transaction ⊕ Str)) :
    List Transaction × List Str :=
  let extended := match candidate.2.2 with
    | .inl burn => (selected.1 ++ [burn], selected.2)
    | .inr envelope => (selected.1, selected.2 ++ [envelope])
  let bundle := wallet.burnBundle ledger slot rewardAddress extended.1 extended.2
  if bundle.serializedSizeBytes ≤ maxBurnBundleBytes then extended else selected

/-- `build_burn_bundles`. -/
def Ledger.buildBurnBundles [Crypto] (ledger : Ledger) (wallet : Wallet) :
    Result (List BurnBundle) := do
  let memberships := ledger.burnCommitteeMembershipsForNextBlock wallet.address
  if memberships = [] then pure []
  else do
    let candidates ← ledger.bundleCandidates
    memberships.mapM fun member => do
      let height := ledger.tip.height + 1
      let rewardAddress ← if hybridRewardActivationHeight ≤ height then
          some <$> wallet.rewardAddress ledger height
        else pure none
      let selected := candidates.foldl (selectCandidate wallet ledger member.slot rewardAddress)
        ([], [])
      pure (wallet.burnBundle ledger member.slot rewardAddress selected.1 selected.2)

namespace Node

variable [Crypto] [SerdeJson]

/-! ## Transactions -/

omit [Crypto] in
/-- `enqueue_gossip`. -/
def enqueueGossip (node : Node) (envelope : GossipEnvelope) : Node :=
  { node with outbox := node.outbox.enqueueGossip envelope }

omit [Crypto] [SerdeJson] in
/-- A submission to the pools of the node's ledger. -/
def submit {α : Type} (submission : Ledger → Mutate Error Pools α) : Mutate Error Node α :=
  fun node => Mutate.zoom (fun node : Node => node.ledger.toPools)
    (fun node pools => { node with ledger := node.ledger.withPools pools })
    (submission node.ledger) node

omit [Crypto] in
/-- The gossip of a transaction that has been added. -/
def gossipIfAdded (outcome : TransactionSubmitOutcome) (envelope : GossipEnvelope) :
    Mutate Error Node Unit :=
  modify fun node => if outcome = .added then node.enqueueGossip envelope else node

/-- `submit_public_transaction`, and `submit_public_mine_action` on a mine action. -/
def submitPublicTransaction (transaction : Transaction) : Mutate Error Node Unit := do
  let outcome ← submit fun ledger => ledger.submitTransactionWithOutcome transaction
  gossipIfAdded outcome (.transaction transaction)

/-- A submission whose failure with the given validation error is not an error of the caller. -/
def submitTolerating (tolerated : Error → Bool) (envelope : GossipEnvelope)
    (submission : Ledger → Mutate Error Pools TransactionSubmitOutcome) :
    Mutate Error Node Unit := fun node =>
  match submit submission node with
  | .ok outcome node => gossipIfAdded outcome envelope node
  | .error error node => if tolerated error then .ok () node else .error error node

/-- `receive_gossiped_transaction`. -/
def receiveGossipedTransaction (transaction : Transaction) : Mutate Error Node Unit :=
  submitTolerating (fun error => transaction.isMine ∧ error.hasValidation .mineAnchorLimitReached)
    (.transaction transaction) fun ledger => ledger.submitTransactionWithOutcome transaction

/-- `receive_gossiped_transaction_v2`. -/
def receiveGossipedTransactionV2 (envelope : Str) : Mutate Error Node Unit := do
  let encoded ← decodeHex envelope
  let node ← get
  let transaction ← node.ledger.decodeTransactionV2 encoded
  submitTolerating (fun error => error.hasValidation .mempoolConflict)
    (.transactionV2 (hexEncode encoded)) fun ledger => ledger.submitTransactionV2 transaction

/-- `submit_public_transaction_v2`. -/
def submitPublicTransactionV2 (transaction : TransactionV2) : Mutate Error Node Unit := do
  let node ← get
  let domain ← node.ledger.transactionV2Domain
  let encoded ← transaction.encode domain
  let outcome ← submit fun ledger => ledger.submitTransactionV2 transaction
  gossipIfAdded outcome (.transactionV2 (hexEncode encoded))

/-! ## Burn bundles -/

omit [Crypto] [SerdeJson] in
/-- `usable_burn_bundles`. -/
def usableBurnBundles (node : Node) : List BurnBundle :=
  let nextHeight := node.ledger.height + 1
  let bundles := (node.burnBundles.toList.filter fun entry =>
    entry.1.height = nextHeight ∧ entry.1 ∉ node.equivocatedBurnBundleSlots).map Prod.snd
  bundles.mergeSort fun left right => left.slot ≤ right.slot

omit [Crypto] [SerdeJson] in
/-- `prune_burn_bundles`. -/
def pruneBurnBundles (node : Node) : Node :=
  { node with
    burnBundles := node.burnBundles.filter fun key _ => node.ledger.height < key.height
    equivocatedBurnBundleSlots := node.equivocatedBurnBundleSlots.filter fun key _ =>
      node.ledger.height < key.height }

/-- The end of `receive_burn_bundle`: a second, different bundle for a key marks it. -/
def recordBurnBundle (node : Node) (bundle : BurnBundle) : Node :=
  if bundle.key ∈ node.equivocatedBurnBundleSlots then node
  else match node.burnBundles[bundle.key]? with
    | some existing =>
      if existing.canonical ≠ bundle.canonical then
        { node with
          burnBundles := node.burnBundles.erase bundle.key
          equivocatedBurnBundleSlots := node.equivocatedBurnBundleSlots.insert bundle.key () }
      else node
    | none =>
      { node with burnBundles := node.burnBundles.insert bundle.key bundle }.enqueueGossip
        (.burnBundle bundle)

/-- `receive_burn_bundle`. -/
def receiveBurnBundle (bundle : BurnBundle) : Mutate Error Node Unit := do
  let node ← get
  if bundle.height ≤ node.ledger.height ∨ node.ledger.height + 1 < bundle.height then pure ()
  else do
    node.ledger.precheckNextBlockBurnBundle bundle
    forM bundle.burns receiveGossipedTransaction
    forM bundle.burnsV2 receiveGossipedTransactionV2
    let node ← get
    let _ ← node.ledger.validateNextBlockBurnBundles [bundle]
    modify fun node => node.recordBurnBundle bundle

/-- One bundle of `publish_burn_bundle_for_next_block`. -/
def publishBurnBundle (anchored : Ledger) (bundle : BurnBundle) : Mutate Error Node Unit := do
  let node ← get
  if bundle.key ∈ node.equivocatedBurnBundleSlots then pure ()
  else match node.burnBundles[bundle.key]? with
    | some existing => modify fun node => node.enqueueGossip (.burnBundle existing)
    | none => do
      let _ ← anchored.validateNextBlockBurnBundles [bundle]
      modify fun node => { node with
        burnBundles := node.burnBundles.insert bundle.key bundle }.enqueueGossip
          (.burnBundle bundle)

/-- `publish_burn_bundle_for_next_block` with an unlocked wallet.  The ledger with the local block
anchor differs from the node's own in its pools only. -/
def publishBurnBundleForNextBlock (wallet : Wallet) (anchoredPools : Pools) :
    Mutate Error Node Unit := do
  let node ← get
  let anchored := node.ledger.withPools anchoredPools
  let bundles ← anchored.buildBurnBundles wallet
  forM bundles (publishBurnBundle anchored)

/-! ## Blocks and chains -/

/-- `GossipEnvelope::Block`, and `receive_preverified_block_at` without the VDF. -/
def receiveBlock (block : Block) (verifyVdf : Bool) (nowMs : ℕ) : Mutate Error Node Unit := do
  let node ← get
  let previousHeight := node.ledger.height
  Mutate.zoom Node.ledger (fun node ledger => { node with ledger := ledger })
    (Ledger.applyBlockWithVdfPolicy block verifyVdf nowMs)
  modify fun node => if previousHeight < node.ledger.height then
      node.pruneBurnBundles.enqueueGossip (.block block)
    else node

/-- `enqueue_imported_blocks`. -/
def enqueueImportedBlocks (node : Node) (previousHeight : ℕ) : Node :=
  if node.ledger.height ≤ previousHeight then node
  else
    let blocks := node.ledger.blocksFrom (previousHeight + 1) importRebroadcastLimit
    if blocks = [] then node else node.pruneBurnBundles.enqueueGossip (.blocks blocks)

/-- `import_chain_snapshot`. -/
def importChainSnapshot (snapshot : ChainSnapshot) (nowMs : ℕ) (node : Node) : Result Node := do
  bailIf node.networkMigrationFrom.isSome
    "local chain reset is required before joining the new network"
  let (imported, ledger) ← node.ledger.extendFromSnapshotWithVdfPolicy snapshot true nowMs
  let received := { node with ledger := ledger }
  pure (if imported then
      received.pruneBurnBundles.enqueueImportedBlocks node.ledger.height
    else received)

/-- `import_verified_ledger`, with whether the ledger was imported. -/
def importVerifiedLedger (ledger : Ledger) (node : Node) : Result (Bool × Node) := do
  bailIf node.networkMigrationFrom.isSome
    "local chain reset is required before joining the new network"
  let replacesSetupPlaceholder :=
    node.ledger.isSetupPlaceholder ∧ ledger.genesisHash ≠ node.ledger.genesisHash
  bailIf (ledger.genesisHash ≠ node.ledger.genesisHash ∧ ¬ replacesSetupPlaceholder)
    "chain snapshot genesis does not match local chain"
  if ¬ replacesSetupPlaceholder ∧ (ledger.height < node.ledger.height
      ∨ ledger.height = node.ledger.height ∧ ledger.tip.hash = node.ledger.tip.hash) then
    pure (false, node)
  else pure (true, ({ node with ledger := ledger }.pruneBurnBundles).enqueueImportedBlocks
    node.ledger.height)

/-! ## Gossip of the pools -/

/-- `pending_transaction_v2_envelopes`. -/
def pendingTransactionV2Envelopes (node : Node) : Result (List Str) := do
  let domain ← node.ledger.transactionV2Domain
  node.ledger.pendingV2.mapM fun transaction => do
    let _ ← transaction.transactionId domain
    let encoded ← transaction.encode domain
    pure (hexEncode encoded)

/-- `mempool_gossip`. -/
def mempoolGossip (node : Node) : List GossipEnvelope :=
  (chunks transactionBatchLimit node.ledger.pending).map .transactions
    ++ ((node.pendingTransactionV2Envelopes).toOption.getD []).map .transactionV2
    ++ (chunks transactionBatchLimit node.usableBurnBundles).map .burnBundles

end Node

end Iuna
