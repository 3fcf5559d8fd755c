import Iuna.Domain.Apply

/-!
# The history index

The ranks of burn leaders are served from the retained ticket draws (`cachedBurnLeaderRanks`); older
heights are replayed from the genesis tickets (`replayedBurnLeaderRanks`).  A ledger whose history
has been pruned gets it back from a copy that was rebuilt from the chain store.
-/

namespace Iuna

/-- `BurnLeaderRank`. -/
structure BurnLeaderRank where
  rank : ℕ
  ticketId : Str
  owner : Str
  amount : Amount
  eligibleFromHeight : ℕ
  eligibleUntilHeight : ℕ
  deriving DecidableEq

/-- The answer for ranked tickets.  The position is cast to `u32`. -/
def burnLeaderRanks (ranked : List BurnTicket) : List BurnLeaderRank :=
  ranked.zipIdx.map fun (ticket, rank) => {
    rank := rank % 2 ^ 32
    ticketId := ticket.id
    owner := ticket.owner
    amount := ticket.amount
    eligibleFromHeight := ticket.eligibleFromHeight
    eligibleUntilHeight := ticket.eligibleUntilHeight }

section Replay

variable [Crypto]

/-- `apply_historical_ticket_block`. -/
def applyHistoricalTicketBlock (parent block : Block) (launchProfile : LaunchProfile)
    (tickets : List BurnTicket) : Result (List BurnTicket) := do
  let tickets ← applyFinalizerTicketEffects parent block tickets
  let created ← ticketsCreatedByBlock block launchProfile
  pure (tickets ++ created)

/-- The inner loop of `burn_leader_ranks_for_blocks`: the tickets after the blocks below a height,
and the blocks that are left.  The first block of the list is the parent of the next one. -/
def replayTicketsBelow (launchProfile : LaunchProfile) (height : ℕ) :
    List Block → List BurnTicket → Result (List BurnTicket × List Block)
  | [], tickets => pure (tickets, [])
  | [parent], tickets => pure (tickets, [parent])
  | parent :: block :: rest, tickets =>
    if height ≤ block.height then pure (tickets, parent :: block :: rest)
    else do
      let tickets ← applyHistoricalTicketBlock parent block launchProfile tickets
      replayTicketsBelow launchProfile height (block :: rest) tickets

/-- The replaying part of `burn_leader_ranks_for_blocks` on a complete chain, for one height. -/
def replayedBurnLeaderRanks (genesisAllocations : BTreeMap Str Amount)
    (launchProfile : LaunchProfile) (chain : List Block) (height : ℕ) :
    Result (List BurnLeaderRank) := do
  let genesis ← orError "chain is empty" chain[0]?
  let tickets ← genesisTickets genesisAllocations genesis launchProfile
  let parentIndex ← orError "block height underflows" (checkedSub height 1)
  let parent ← orError s!"missing parent block for height {height}" chain[parentIndex]?
  let (tickets, _) ← replayTicketsBelow launchProfile height chain tickets
  pure (burnLeaderRanks (rankedTicketsForHeight parent height tickets))

end Replay

namespace Ledger

/-- `resident_block_at_height`: the chain is the genesis block and a contiguous tail. -/
def residentBlockAtHeight (ledger : Ledger) (height : ℕ) : Option Block :=
  if height = ledger.genesis.height then some ledger.genesis
  else do
    let firstTail ← ledger.chain[1]?
    let offset ← checkedSub height firstTail.height
    let block ← ledger.chain[offset + 1]?
    if block.height = height then some block else none

variable [Crypto]

/-- `cached_burn_leader_ranks`. -/
def cachedBurnLeaderRanks (ledger : Ledger) (height : ℕ) (blockHash : Str) :
    Option (List BurnLeaderRank) := do
  let draw ← ledger.residentTicketDraws[height]?
  if draw.blockHash ≠ blockHash then none
  else some (burnLeaderRanks (rankedTicketsForParentRandomness draw.parentRandomness height
    draw.eligibleTickets))

/-- `burn_leader_ranks_for_block`, that is `burn_leader_ranks_for_blocks` for one height: from the
retained draw, else by a replay of the complete chain, else nothing. -/
def burnLeaderRanksForBlock (ledger : Ledger) (height : ℕ) : Result (List BurnLeaderRank) :=
  if height = 0 then pure []
  else
    match (ledger.residentBlockAtHeight height).bind fun block =>
      ledger.cachedBurnLeaderRanks height block.hash with
    | some ranks => pure ranks
    | none =>
      if ledger.historyPruned then pure []
      else replayedBurnLeaderRanks ledger.genesisAllocations ledger.launchProfile ledger.chain height

/-- Whether a rebuilt copy with this tip is an ancestor of the resident chain. -/
def extendsRestoredTip (ledger : Ledger) (restoredTip : Block) : Bool :=
  match ledger.residentBlockAtHeight restoredTip.height with
  | some block => block.hash = restoredTip.hash
  | none => (ledger.residentBlockAtHeight (saturatingAdd restoredTip.height 1)).any fun block =>
      block.prevHash = restoredTip.hash

/-- How much of its recent history a node keeps at least, wherever it prunes. -/
def residentChainBlocks : ℕ := 64

/-- `restore_pruned_history`.  An error abandons the rebuilt copy and leaves the ledger alone. -/
def restorePrunedHistory (ledger complete : Ledger) : Result (Bool × Ledger) :=
  if ledger.historyPruned = false then pure (true, ledger)
  else do
    bailIf complete.historyPruned "cannot restore history from a pruned ledger"
    bailIf (complete.genesisHash ≠ ledger.genesisHash)
      "restored history belongs to a different genesis"
    if ledger.extendsRestoredTip complete.tip = false then pure (false, ledger)
    else do
      let newer := ledger.chain.filter fun block => complete.tip.height < block.height
      let rebuilt ← newer.foldlM applyTrustedBlockAt complete
      if rebuilt.tip.hash ≠ ledger.tip.hash then pure (false, ledger)
      else pure (true, { ledger with
        chain := rebuilt.chain
        chainNonempty := rebuilt.chainNonempty
        compactBlockContext := rebuilt.compactBlockContext
        historyPruned := false })

end Ledger

end Iuna
