import Iuna.Domain.Apply
import Iuna.Domain.Genesis
import Iuna.Domain.Mempool

/-!
# Chains: construction, replay and fork choice

`ledger_chain.rs`: how a ledger starts from a genesis block, how it is rebuilt from a snapshot
(validating or trusting the blocks), and how a node decides between its own chain and a
candidate.  The comparison of two chains is `fork.rs`.
-/

namespace Iuna

/-! ## Leader scores -/

/-- `LeaderScore`. -/
structure LeaderScore where
  finalizerModeRank : ℕ
  finalizerRank : ℕ
  proofRank : Str
  deriving DecidableEq

/-- `LeaderScore::cmp`. -/
def LeaderScore.cmp (left right : LeaderScore) : Ordering :=
  ((compare left.finalizerModeRank right.finalizerModeRank).then
    (compare left.finalizerRank right.finalizerRank)).then
    (compare left.proofRank right.proofRank)

/-- `leader_score`. -/
def Block.leaderScore [Crypto] (block : Block) : LeaderScore where
  finalizerModeRank := block.finalizerMode.forkChoiceRank
  finalizerRank := block.finalizerRank
  proofRank := match block.leaderProof with
    | some proof => proof.rank
    | none => block.hash

/-- `ForkQuality`. -/
inductive ForkQuality
  | localBetter
  | remoteBetter
  | equal
  deriving DecidableEq

/-- `ForkQuality::from`: a smaller score is better. -/
def ForkQuality.ofOrdering : Ordering → ForkQuality
  | .lt => .localBetter
  | .eq => .equal
  | .gt => .remoteBetter

/-- `ForkChoice`. -/
inductive ForkChoice
  | keepLocal
  | switchToCandidate
  deriving DecidableEq

/-- `objective_finality_quality`. -/
def objectiveFinalityQuality (localCheckpoint remoteCheckpoint : Option FinalityCheckpoint) :
    ForkQuality :=
  match localCheckpoint, remoteCheckpoint with
  | none, none => .equal
  | none, some _ => .remoteBetter
  | some _, none => .localBetter
  | some localCheckpoint, some remoteCheckpoint =>
    match compare localCheckpoint.height remoteCheckpoint.height with
    | .lt => .remoteBetter
    | .gt => .localBetter
    | .eq =>
      if localCheckpoint.hash = remoteCheckpoint.hash then .equal
      else if compare remoteCheckpoint.hash localCheckpoint.hash = .lt then .remoteBetter
      else .localBetter

/-- `fork_rewrites_finalized_history`. -/
def forkRewritesFinalizedHistory (localHeight commonAncestorHeight : ℕ) : Bool :=
  commonAncestorHeight < localHeight - forkFinalityDepth

namespace Ledger

/-! ## Genesis ledgers -/

/-- The ledger on a genesis block, before its tickets and its size context are known. -/
def atGenesis (genesisAllocations : BTreeMap Str Amount) (genesis : Block) (utxos : Utxos)
    (vdfRounds : ℕ) (launchProfile : LaunchProfile) (tickets : List BurnTicket)
    (compactBlockContext : CompactBlockContext) : Ledger where
  utxos := utxos
  utxoLineage := ∅
  lineageValues := ∅
  lineageOwners := ∅
  toPools := .empty
  chain := [genesis]
  chainNonempty := by simp
  historyPruned := false
  genesisAllocations := genesisAllocations
  hybridLegacyOwners := ∅
  tickets := tickets
  minedTransactionIds := insertIds ∅ (genesis.transactions.map Transaction.signature)
  mineDifficultyWindows := [launchProfile.mineDifficultyBits]
  initialVdfRounds := vdfRounds
  vdfRounds := vdfRounds
  launchProfile := launchProfile
  compactBlockContext := compactBlockContext
  objectiveFinalityCheckpoint := none
  vdfRetargetObservations := []
  ticketDrawHorizon := 0
  residentTicketDraws := ∅

variable [Crypto]

/-- `new_with_genesis_transactions`: without allocations the size context starts empty. -/
def newWithGenesisTransactions (genesisAllocations : BTreeMap Str Amount)
    (genesisTransactions : List Transaction) (vdfRounds : ℕ) (launchProfile : LaunchProfile) :
    Result Ledger := do
  validateGenesisAllocations genesisAllocations
  let genesis := buildGenesisBlock genesisAllocations genesisTransactions
  let utxos ← utxosAfterGenesis genesisAllocations genesis
  let tickets ← genesisTickets genesisAllocations genesis launchProfile
  let compactBlockContext ←
    if genesisAllocations.isEmpty then pure CompactBlockContext.default
    else CompactBlockContext.forChain genesisAllocations [genesis]
  pure (atGenesis genesisAllocations genesis utxos vdfRounds launchProfile tickets
    compactBlockContext)

/-- The genesis part of `from_snapshot_with_revalidation_policy`: the first block must be the one
that the allocations and its own transactions determine. -/
def genesisFromSnapshot (snapshot : ChainSnapshot) : Result Ledger := do
  let genesis ← orError "chain snapshot is empty" snapshot.blocks.head?
  validateGenesisAllocations snapshot.genesisAllocations
  validateGenesisBlock genesis
  bailIf (genesis ≠ buildGenesisBlock snapshot.genesisAllocations genesis.transactions)
    "chain snapshot genesis does not match its allocations and transactions"
  let utxos ← utxosAfterGenesis snapshot.genesisAllocations genesis
  let compactBlockContext ← CompactBlockContext.forChain snapshot.genesisAllocations [genesis]
  let tickets ← genesisTickets snapshot.genesisAllocations genesis snapshot.launchProfile
  let ledger := atGenesis snapshot.genesisAllocations genesis utxos snapshot.vdfRounds
    snapshot.launchProfile tickets compactBlockContext
  pure { ledger with
    ticketDrawHorizon := (snapshot.blocks.getLast?.map Block.height).getD 0 }

/-! ## Replaying a snapshot -/

/-- `from_locally_verified_snapshot`: every block after the genesis is trusted. -/
def fromLocallyVerifiedSnapshot (snapshot : ChainSnapshot) : Result Ledger := do
  let ledger ← genesisFromSnapshot snapshot
  snapshot.blocks.tail.foldlM applyTrustedBlockAt ledger

/-- `from_snapshot_with_vdf_policy`: every block after the genesis is validated. -/
def fromSnapshotWithVdfPolicy (snapshot : ChainSnapshot) (verifyVdf : Bool) (nowMs : ℕ) :
    Result Ledger := do
  let ledger ← genesisFromSnapshot snapshot
  let (_, ledger) ← Mutate.outcome (forM snapshot.blocks.tail fun block =>
    applyBlockWithVdfPolicy block verifyVdf nowMs) ledger
  pure ledger

/-! ## Fork choice -/

omit [Crypto] in
/-- `fork_point_with_candidate`: the height of the last local block that the candidate has too. -/
def forkPointWithCandidate (ledger candidate : Ledger) : Result ℕ := do
  bailIf (candidate.genesisHash ≠ ledger.genesisHash)
    "candidate chain has no common genesis block"
  let ancestor ← orError "candidate chain has no common block in the resident fork window"
    (ledger.chain.reverse.find? fun localBlock => candidate.chain.any fun remote =>
      remote.height = localBlock.height ∧ remote.hash = localBlock.hash)
  pure ancestor.height

omit [Crypto] in
/-- The blocks of a chain from the first diverging height on. -/
def forkBlocks (ledger : Ledger) (commonAncestorHeight : ℕ) : List Block :=
  ledger.chain.filter fun block => commonAncestorHeight + 1 ≤ block.height

/-- The loop of `fork_quality`: the first pair of different leader scores decides. -/
def compareForkBlocks : List Block → List Block → ForkQuality
  | localBlock :: localBlocks, remote :: remotes =>
    match localBlock.leaderScore.cmp remote.leaderScore with
    | .eq => compareForkBlocks localBlocks remotes
    | ordering => .ofOrdering ordering
  | _, _ => .equal

/-- `fork_quality`. -/
def forkQuality (ledger candidate : Ledger) (commonAncestorHeight : ℕ) : ForkQuality :=
  compareForkBlocks (ledger.forkBlocks commonAncestorHeight)
    (candidate.forkBlocks commonAncestorHeight)

/-- The part of `choose_fork` after the finality rules: the higher chain, and among chains of
equal height the better leader scores. -/
def chooseByHeightAndQuality (ledger candidate : Ledger) (commonAncestorHeight : ℕ) :
    ForkChoice :=
  if ledger.height < candidate.height then .switchToCandidate
  else if candidate.height < ledger.height then .keepLocal
  else match ledger.forkQuality candidate commonAncestorHeight with
    | .remoteBetter => .switchToCandidate
    | .localBetter => .keepLocal
    | .equal => .keepLocal

/-- `choose_fork`. -/
def chooseFork (ledger candidate : Ledger) (commonAncestorHeight : ℕ) : ForkChoice :=
  if candidate.height = ledger.height ∧ candidate.tip.hash = ledger.tip.hash then .keepLocal
  else if commonAncestorHeight + 1 < objectiveFinalityActivationHeight then
    if objectiveFinalityActivationHeight ≤ ledger.height
        ∨ forkRewritesFinalizedHistory ledger.height commonAncestorHeight then
      .keepLocal
    else ledger.chooseByHeightAndQuality candidate commonAncestorHeight
  else match objectiveFinalityQuality ledger.objectiveFinalityCheckpoint
      candidate.objectiveFinalityCheckpoint with
    | .remoteBetter => .switchToCandidate
    | .localBetter => .keepLocal
    | .equal => ledger.chooseByHeightAndQuality candidate commonAncestorHeight

/-- A pool operation whose error is ignored, `let _ = candidate.submit_…`. -/
def submitIgnoringErrors {α : Type} (submit : Ledger → Mutate Error Pools α) (ledger : Ledger) :
    Ledger :=
  match submit ledger ledger.toPools with
  | .ok _ pools => ledger.withPools pools
  | .error _ pools => ledger.withPools pools

/-- The v2 transaction of a stale envelope, if it belongs to this chain. -/
def decodeStaleEnvelope (ledger : Ledger) (envelope : Str) : Option TransactionV2 :=
  match decodeHex envelope with
  | .error _ => none
  | .ok bytes =>
    match TransactionV2.decode bytes, ledger.transactionV2Domain with
    | .ok (domain, transaction), .ok expected =>
      if domain = expected then some transaction else none
    | _, _ => none

/-- Whether a v2 transaction is already in the candidate's chain. -/
def minedV2 (candidate : Ledger) (transaction : TransactionV2) : Bool :=
  match candidate.transactionV2Domain with
  | .error _ => false
  | .ok domain =>
    match transaction.transactionId domain with
    | .error _ => false
    | .ok id => hexEncode id.val ∈ candidate.minedTransactionIds

/-- `replace_with_better_chain`: the candidate, with the transactions of the local pools and of
the abandoned blocks submitted to it again. -/
def replaceWithBetterChain (ledger candidate : Ledger) (staleBlocks : List Block) : Ledger :=
  let carryForward := ledger.pending ++ ledger.orphans ++ staleBlocks.flatMap Block.transactions
  let minedSignatures := candidate.chain.flatMap fun block =>
    block.transactions.map Transaction.signature
  let resubmitted := (carryForward.filter fun transaction =>
      transaction.signature ∉ minedSignatures).foldl
    (fun candidate transaction =>
      candidate.submitIgnoringErrors fun ledger => ledger.submitTransactionWithOutcome transaction)
    candidate
  let carryForwardV2 :=
    (staleBlocks.flatMap fun block => block.transactionsV2.filterMap ledger.decodeStaleEnvelope)
      ++ ledger.pendingV2
  (carryForwardV2.filter fun transaction => ¬ candidate.minedV2 transaction).foldl
    (fun candidate transaction =>
      candidate.submitIgnoringErrors fun ledger => ledger.submitTransactionV2 transaction)
    resubmitted

omit [Crypto] in
/-- `validate_snapshot_identity`. -/
def validateSnapshotIdentity (ledger : Ledger) (snapshot : ChainSnapshot) : Result Unit := do
  let first ← orError "chain snapshot is empty" snapshot.blocks.head?
  bailIf (snapshot.vdfRounds ≠ ledger.initialVdfRounds)
    "chain snapshot initial VDF rounds do not match local chain"
  bailIf (snapshot.launchProfile ≠ ledger.launchProfile)
    "chain snapshot launch profile does not match local chain"
  bailIf (snapshot.genesisAllocations.toList ≠ ledger.genesisAllocations.toList)
    "chain snapshot genesis allocations do not match local chain"
  bailIf (first.hash ≠ ledger.genesisHash) "chain snapshot genesis does not match local chain"

/-- The decision of `extend_from_snapshot_with_vdf_policy` on a candidate ledger, with whether the
local chain was replaced. -/
def adoptCandidate (ledger candidate : Ledger) : Result (Bool × Ledger) := do
  let commonAncestorHeight ← ledger.forkPointWithCandidate candidate
  if ledger.chooseFork candidate commonAncestorHeight = .keepLocal then pure (false, ledger)
  else pure (true, ledger.replaceWithBetterChain candidate
    (ledger.forkBlocks commonAncestorHeight))

/-- `extend_from_snapshot_with_vdf_policy`. -/
def extendFromSnapshotWithVdfPolicy (ledger : Ledger) (snapshot : ChainSnapshot)
    (verifyVdf : Bool) (nowMs : ℕ) : Result (Bool × Ledger) := do
  ledger.validateSnapshotIdentity snapshot
  let candidate ← fromSnapshotWithVdfPolicy snapshot verifyVdf nowMs
  ledger.adoptCandidate candidate

end Ledger

end Iuna
