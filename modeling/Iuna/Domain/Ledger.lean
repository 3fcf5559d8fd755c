import Iuna.Domain.LedgerV2
import Iuna.Domain.Retarget

/-!
# The ledger

The state of a node's consensus engine: the chain, what is derived from it, and the pools of
pending transactions.  Beside the structure this module holds the parts of `ledger_consensus.rs`
and `ledger_queries.rs` that validation reads: the ranked tickets of the next block, its VDF
rounds, the mine difficulty, the burn committee and the signing domains.

The index of confirmed hybrid addresses, which only the wallet reads, is left out.
-/

namespace Iuna

/-- `FinalityCheckpoint`. -/
structure FinalityCheckpoint where
  height : ℕ
  hash : Str
  deriving DecidableEq

/-- `ResidentTicketDraw`. -/
structure ResidentTicketDraw where
  blockHash : Str
  parentRandomness : Str
  eligibleTickets : List BurnTicket
  deriving DecidableEq

/-- The pools of transactions that wait for a block, with their sizes. -/
structure Pools where
  pending : List Transaction
  orphans : List Transaction
  pendingBytes : ℕ
  orphanBytes : ℕ
  pendingV2 : List TransactionV2
  pendingV2Bytes : ℕ
  deriving DecidableEq

/-- No transaction waits. -/
def Pools.empty : Pools :=
  { pending := [], orphans := [], pendingBytes := 0, orphanBytes := 0, pendingV2 := [],
    pendingV2Bytes := 0 }

/-- `Ledger`.  It is always initialized with a genesis block, so the chain is never empty. -/
structure Ledger extends LineageState, Pools where
  chain : List Block
  chainNonempty : chain ≠ []
  historyPruned : Bool
  genesisAllocations : BTreeMap Str Amount
  hybridLegacyOwners : BTreeMap Str Str
  tickets : List BurnTicket
  minedTransactionIds : BTreeSet Str
  mineDifficultyWindows : List ℕ
  initialVdfRounds : ℕ
  vdfRounds : ℕ
  launchProfile : LaunchProfile
  compactBlockContext : CompactBlockContext
  objectiveFinalityCheckpoint : Option FinalityCheckpoint
  vdfRetargetObservations : List ℕ
  ticketDrawHorizon : ℕ
  residentTicketDraws : BTreeMap ℕ ResidentTicketDraw

namespace Ledger

/-! ## The chain -/

/-- `tip`. -/
def tip (ledger : Ledger) : Block := ledger.chain.getLast ledger.chainNonempty

/-- `height`. -/
def height (ledger : Ledger) : ℕ := ledger.tip.height

/-- `chain[0]`. -/
def genesis (ledger : Ledger) : Block := ledger.chain.head ledger.chainNonempty

/-- `genesis_hash`. -/
def genesisHash (ledger : Ledger) : Str := ledger.genesis.hash

/-- `snapshot`. -/
def snapshot (ledger : Ledger) : ChainSnapshot where
  genesisAllocations := ledger.genesisAllocations
  vdfRounds := ledger.initialVdfRounds
  launchProfile := ledger.launchProfile
  blocks := ledger.chain

/-- `chain.push`. -/
def pushBlock (ledger : Ledger) (block : Block) : Ledger :=
  { ledger with chain := ledger.chain ++ [block], chainNonempty := by simp }

/-- `retain_recent_chain_blocks`: the genesis block and a window of recent blocks stay. -/
def retainRecentChainBlocks (ledger : Ledger) (recentLimit : ℕ) : Ledger :=
  let recentLimit := max recentLimit 1
  if ledger.chain.length ≤ recentLimit + 1 then ledger
  else { ledger with
    chain := ledger.genesis :: ledger.chain.drop (ledger.chain.length - recentLimit)
    chainNonempty := by simp
    historyPruned := true }

@[simp] lemma pushBlock_chain (ledger : Ledger) (block : Block) :
    (ledger.pushBlock block).chain = ledger.chain ++ [block] := rfl

@[simp] lemma pushBlock_tip (ledger : Ledger) (block : Block) :
    (ledger.pushBlock block).tip = block := by
  simp [tip, pushBlock]

/-- The network of the launch profile. -/
def network (ledger : Ledger) : AddressNetwork :=
  AddressNetwork.fromProfileId ledger.launchProfile.profileId

/-- `transaction_signing_domain_at`. -/
def transactionSigningDomainAt (ledger : Ledger) (height : ℕ) : TransactionSigningDomain :=
  .forHeight ledger.launchProfile.profileId ledger.genesisHash height

/-- `transaction_signing_domain`. -/
def transactionSigningDomain (ledger : Ledger) : TransactionSigningDomain :=
  ledger.transactionSigningDomainAt (saturatingAdd ledger.height 1)

/-- `transaction_v2_domain`. -/
def transactionV2Domain (ledger : Ledger) : Result TransactionV2Domain := do
  let genesisHash ← withContext "ledger genesis hash is not a 32-byte hexadecimal value"
    (decodeHexArray 32 ledger.genesisHash)
  TransactionV2Domain.new ledger.launchProfile.profileId genesisHash

/-! ## VDF rounds -/

/-- `next_vdf_rounds_after_tip`. -/
def nextVdfRoundsAfterTip (ledger : Ledger) : ℕ :=
  let tip := ledger.tip
  if tip.height < 2 then ledger.vdfRounds
  else
    let averageObservedMs :=
      if ledger.vdfRetargetObservations = [] then
        recentVdfRetargetAverageObservedBlockMs ledger.chain
      else averageVdfRetargetObservation ledger.vdfRetargetObservations
    match averageObservedMs with
    | none => ledger.vdfRounds
    | some averageObservedMs =>
      retargetVdfRounds (baseVdfRoundsForFinalizerRank tip.vdfRounds tip.finalizerRank)
        averageObservedMs

/-- `record_vdf_retarget_observation`: the newest observations are kept. -/
def recordVdfRetargetObservation (ledger : Ledger) (block : Block) : Ledger :=
  if ledger.tip.height = 0 then ledger
  else match vdfRetargetObservedBlockMs ledger.tip block with
    | none => ledger
    | some observed =>
      let observations := ledger.vdfRetargetObservations ++ [observed]
      { ledger with
        vdfRetargetObservations :=
          observations.drop (observations.length - vdfRetargetWindowBlocks) }

/-- `recovery_vdf_rounds`. -/
def recoveryVdfRounds (ledger : Ledger) : Result ℕ :=
  vdfRoundsForFinalizerRank ledger.vdfRounds 0

/-- `expected_vdf_rounds_for_block`. -/
def expectedVdfRoundsForBlock (ledger : Ledger) (block : Block) : Result ℕ :=
  match block.finalizerMode with
  | .ticket => vdfRoundsForFinalizerRank ledger.vdfRounds block.finalizerRank
  | .recovery => ledger.recoveryVdfRounds

/-! ## Mine difficulty -/

/-- `mine_difficulty_bits_for_anchor_height`. -/
def mineDifficultyBitsForAnchorHeight (ledger : Ledger) (anchorHeight : ℕ) : ℕ :=
  match ledger.mineDifficultyWindows[anchorHeight / mineRetargetWindowBlocks]? with
  | some difficulty => difficulty
  | none =>
    (mineDifficultyWindowsForChain ledger.chain ledger.launchProfile.mineDifficultyBits
      anchorHeight).getLast?.getD ledger.launchProfile.mineDifficultyBits

/-- `update_mine_difficulty_cache_after_tip`. -/
def updateMineDifficultyCacheAfterTip (ledger : Ledger) : Ledger :=
  let height := ledger.tip.height
  if height = 0 ∨ height % mineRetargetWindowBlocks ≠ 0 then ledger
  else if height / mineRetargetWindowBlocks + 1 ≤ ledger.mineDifficultyWindows.length then ledger
  else
    let mineActions :=
      ((ledger.chain.reverse.take mineRetargetWindowBlocks).map mineActionCount).sum
    let previous :=
      ledger.mineDifficultyWindows.getLast?.getD ledger.launchProfile.mineDifficultyBits
    { ledger with
      mineDifficultyWindows := ledger.mineDifficultyWindows ++
        [retargetMineDifficultyBits previous mineActions] }

/-! ## Ticket draws -/

def residentTicketDrawBlocks : ℕ := 128

variable [Crypto]

/-- `ticket_for_finalizer_rank`. -/
def ticketForFinalizerRank (ledger : Ledger) (height rank : ℕ) : Option BurnTicket :=
  (rankedTicketsForHeight ledger.tip height ledger.tickets)[rank]?

/-- `ticket_draw_before`. -/
def ticketDrawBefore (ledger : Ledger) (block : Block) : Option ResidentTicketDraw :=
  if saturatingAdd block.height residentTicketDrawBlocks ≤ ledger.ticketDrawHorizon then none
  else some {
    blockHash := block.hash
    parentRandomness := drawParentRandomness ledger.tip block.height
    eligibleTickets := ledger.tickets.filter fun ticket =>
      ticketIsEligibleForHeight ticket block.height }

omit [Crypto] in
/-- `record_ticket_draw`. -/
def recordTicketDraw (ledger : Ledger) (height : ℕ) (draw : Option ResidentTicketDraw) : Ledger :=
  match draw with
  | none => ledger
  | some draw =>
    let draws := ledger.residentTicketDraws.insert height draw
    { ledger with
      residentTicketDraws := draws.filter fun retained _ =>
        height - (residentTicketDrawBlocks - 1) ≤ retained }

end Ledger

/-! ## The burn committee -/

/-- `LineageCommitteeCandidate`. -/
structure LineageCommitteeCandidate where
  root : UtxoLineageRoot
  value : Amount
  weight : ℕ
  owner : Str
  deriving DecidableEq

/-- `lineage_committee_weight`: the bits of one plus the value, less one. -/
def lineageCommitteeWeight (value : Amount) : ℕ := Nat.log2 (value + 1)

/-- `Iterator::max_by`: the last of the greatest elements. -/
def maxBy {α : Type} (compare : α → α → Ordering) : List α → Option α
  | [] => none
  | first :: rest =>
    some (rest.foldl (fun best value => if compare best value = .gt then best else value) first)

/-- Larger amounts come last, and among equal amounts the smaller outpoint. -/
def compareAmountThenOutpoint (left right : Amount × OutPoint) : Ordering :=
  (compare left.1 right.1).then (compare right.2 left.2)

namespace Ledger

/-- `committee_identity_for_lineage_owner`. -/
def committeeIdentityForLineageOwner (ledger : Ledger) (owner : Str) : Str :=
  if saturatingAdd ledger.tip.height 1 < hybridLineageIdentityActivationHeight then owner
  else ledger.hybridLegacyOwners[owner]?.getD owner

/-- `lineage_root_has_owner`. -/
def lineageRootHasOwner (ledger : Ledger) (root : UtxoLineageRoot) (owner : Str) : Bool :=
  match ledger.lineageOwners[root]? with
  | none => false
  | some owners => owners.toList.any fun entry =>
      ¬ entry.2.isEmpty ∧ ledger.committeeIdentityForLineageOwner entry.1 = owner

/-- `representative_owner_for_lineage_root`: the identity that holds the largest output of the
lineage, among those who have an eligible ticket and are not skipped. -/
def representativeOwnerForLineageRoot (ledger : Ledger) (root : UtxoLineageRoot)
    (skippedOwners eligibleTicketOwners : List Str) : Option Str := do
  let owners ← ledger.lineageOwners[root]?
  let holders := owners.toList.filter fun entry =>
    let identity := ledger.committeeIdentityForLineageOwner entry.1
    identity ∈ eligibleTicketOwners ∧ identity ∉ skippedOwners ∧ ¬ entry.2.isEmpty
  let largest := holders.filterMap fun entry => do
    let output ← maxBy compareAmountThenOutpoint (entry.2.toList.map fun output =>
      (output.2, output.1))
    pure (ledger.committeeIdentityForLineageOwner entry.1, output)
  let representative ← maxBy (fun left right =>
    (compareAmountThenOutpoint left.2 right.2).then (compare right.1 left.1)) largest
  pure representative.1

/-- `eligible_lineage_candidates`: the mature lineages with a positive weight that no skipped
owner takes part in. -/
def eligibleLineageCandidates (ledger : Ledger) (skippedOwners : List Str) :
    List LineageCommitteeCandidate :=
  let mature := ledger.lineageValues.toList.filter fun entry =>
    0 < entry.2
      ∧ saturatingAdd entry.1.height ledger.launchProfile.burnLineageMaturityHeights
        ≤ ledger.tip.height
      ∧ ¬ skippedOwners.any fun owner => ledger.lineageRootHasOwner entry.1 owner
  mature.filterMap fun entry =>
    let weight := lineageCommitteeWeight entry.2
    if 0 < weight then some { root := entry.1, value := entry.2, weight := weight, owner := [] }
    else none

/-- The candidate with its representative, or nothing where there is none. -/
def withRepresentative (ledger : Ledger) (skippedOwners eligibleTicketOwners : List Str)
    (candidate : LineageCommitteeCandidate) : Option LineageCommitteeCandidate := do
  let owner ← ledger.representativeOwnerForLineageRoot candidate.root skippedOwners
    eligibleTicketOwners
  pure { candidate with owner := owner }

variable [Crypto]

/-- `select_weighted_lineage_index`. -/
def selectWeightedLineageIndex (parent : Block) (targetHeight slot : ℕ)
    (candidates : List LineageCommitteeCandidate) : Option ℕ :=
  selectWeightedIndex (colons [str "iuna-burn-lineage-draw-v1", decimal targetHeight,
    drawParentRandomness parent targetHeight, decimal slot])
    (candidates.map LineageCommitteeCandidate.weight)

/-- The loop of `lineage_burn_committee_for_height` over the slots after the finalizer's. -/
def drawCommittee (ledger : Ledger) (height : ℕ) (eligibleTicketOwners : List Str) :
    List ℕ → List Str → List LineageCommitteeCandidate → List BurnCommitteeMember
  | [], _, _ => []
  | slot :: slots, skippedOwners, remaining =>
    match (selectWeightedLineageIndex ledger.tip height slot remaining).bind fun index =>
        (remaining[index]?).map fun selected => (index, selected) with
    | none => []
    | some (index, selected) =>
      let skippedOwners := selected.owner :: skippedOwners
      let rest := (remaining.eraseIdx index).filter fun candidate => candidate.root ≠ selected.root
      { slot := slot, root := selected.root.outpoint.id, owner := selected.owner,
        weight := selected.value }
        :: drawCommittee ledger height eligibleTicketOwners slots skippedOwners
          (rest.filterMap (ledger.withRepresentative skippedOwners eligibleTicketOwners))

/-- `lineage_burn_committee_for_height`. -/
def lineageBurnCommitteeForHeight (ledger : Ledger) (height : ℕ) (ranked : List BurnTicket)
    (finalizerRank : ℕ) : List BurnCommitteeMember :=
  match ranked[finalizerRank]? with
  | none => []
  | some finalizer =>
    let eligibleTicketOwners := ranked.map BurnTicket.owner
    let skippedOwners :=
      finalizer.owner :: (ranked.take finalizerRank).map BurnTicket.owner
    let remaining := (ledger.eligibleLineageCandidates skippedOwners).filterMap
      (ledger.withRepresentative skippedOwners eligibleTicketOwners)
    { slot := 0, root := finalizer.id, owner := finalizer.owner, weight := finalizer.amount }
      :: drawCommittee ledger height eligibleTicketOwners (List.range' 1 (burnCommitteeSize - 1))
        skippedOwners remaining

/-- `burn_committee_for_ticket_block`. -/
def burnCommitteeForTicketBlock (ledger : Ledger) (height finalizerRank : ℕ) :
    List BurnCommitteeMember :=
  ledger.lineageBurnCommitteeForHeight height
    (rankedTicketsForHeight ledger.tip height ledger.tickets) finalizerRank

/-- `burn_committee_for_block`. -/
def burnCommitteeForBlock (ledger : Ledger) (block : Block) : List BurnCommitteeMember :=
  match block.finalizerMode with
  | .ticket => ledger.burnCommitteeForTicketBlock block.height block.finalizerRank
  | .recovery => [{ slot := 0, root := block.hash, owner := block.miner, weight := 0 }]

end Ledger

end Iuna
