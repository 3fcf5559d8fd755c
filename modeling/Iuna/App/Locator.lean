import Iuna.App.Node
import Iuna.Domain.Prover

/-!
# Catching up with a peer

The requests of a node that is behind a peer or on another branch, and the blocks that the peer
answers a locator with: `maybe_request_catchup` in `sync.rs`, `request_fork_blocks` in
`process.rs`, and the locators of `ledger_queries.rs`.
-/

namespace Iuna

/-- `LEGACY_MAX_BLOCK_BATCH`. -/
def legacyMaxBlockBatch : ℕ := 128

/-- `CAPABILITY_CHAIN_SEGMENT_SYNC`. -/
def capabilityChainSegmentSync : Str := str "chain-segment-sync"

/-- `negotiated_block_batch_limit`. -/
def negotiatedBlockBatchLimit (capabilities : List Str) : ℕ :=
  if capabilities.any fun capability => capability = capabilityChainSegmentSync then maxBlockBatch
  else legacyMaxBlockBatch

/-- `PeerStatus`, as far as a node catches up by it. -/
structure PeerStatus where
  height : ℕ
  tipHash : Str
  requestBootstrap : Bool
  capabilities : List Str

namespace Ledger

/-- The loop of `block_locator`: the indices of the hashes that it pushes, from an index on and
with a number of hashes pushed.  The index is below the fuel. -/
def locatorIndices : ℕ → ℕ → ℕ → ℕ → List ℕ
  | 0, _, _, _ => []
  | fuel + 1, index, step, pushed =>
    if index = 0 then [index]
    else
      let nextStep := if pushed + 1 > 10 then Vdf.saturatingMul step 2 else step
      index :: locatorIndices fuel (index - step) nextStep (pushed + 1)

/-- `block_locator`. -/
def blockLocator (ledger : Ledger) : List Str :=
  (locatorIndices ledger.chain.length (ledger.chain.length - 1) 1 0).filterMap fun index =>
    ledger.chain[index]?.map Block.hash

/-- `blocks_after_locator`. -/
def blocksAfterLocator (ledger : Ledger) (locator : List Str) (limit : ℕ) : List Block :=
  let commonHeight := locator.findSome? fun hash =>
    (ledger.chain.find? fun block => block.hash = hash).map Block.height
  match commonHeight with
  | some height => ledger.blocksFrom (saturatingAdd height 1) limit
  | none => []

/-- `maybe_request_catchup`. -/
def maybeRequestCatchup (ledger : Ledger) (peerStatus : PeerStatus) : Option GossipEnvelope :=
  let blockBatchLimit := negotiatedBlockBatchLimit peerStatus.capabilities
  if peerStatus.requestBootstrap then some .chainBootstrapRequest
  else if ledger.height < peerStatus.height then
    some (.blockRangeRequest (ledger.height + 1) blockBatchLimit)
  else if peerStatus.height = ledger.height ∧ peerStatus.tipHash ≠ ledger.tip.hash then
    some (.blockLocatorRequest ledger.blockLocator blockBatchLimit)
  else none

/-- `request_fork_blocks`. -/
def requestForkBlocks (ledger : Ledger) : GossipEnvelope :=
  .blockLocatorRequest ledger.blockLocator legacyMaxBlockBatch

end Ledger

end Iuna
