import Iuna.App.Gossip

/-!
# Joining the network

The download of a chain from a join peer: `validate_bootstrap_genesis` and the paging loop of
`fetch_snapshot_with_announcement` in `fetch.rs`.  What the peer sends is a sequence of envelopes
that ends, if it does, with a closed connection, a timeout or a line that is no envelope.
-/

namespace Iuna

/-- `MAX_JOIN_RESPONSE_ENVELOPES`. -/
def maxJoinResponseEnvelopes : ℕ := 16

/-- `CHAIN_SEGMENT_BLOCKS`. -/
def chainSegmentBlocks : ℕ := 256

/-- `MAINNET_CANDIDATE_NETWORK_ID`. -/
def mainnetCandidateNetworkId : Str := str "iuna-mainnet-candidate"

/-- `MAINNET_CANDIDATE_GENESIS_HASH`. -/
def mainnetCandidateGenesisHash : Str :=
  str "3d677cd7ced1c04d3a276cbee7ea38076e34ac65f18a2c9b8286a4872d986a9a"

/-- How joining fails: with an error, without the peer and the heights that its text quotes, or with
a panic on an index out of range. -/
inductive JoinError
  | failed (message : String)
  | indexOutOfRange
  deriving DecidableEq

/-- `validate_network_genesis`. -/
def validateNetworkGenesis (profileId genesisHash : Str) : Except JoinError Unit :=
  Outcome.bailIf (profileId = mainnetCandidateNetworkId
    ∧ genesisHash ≠ mainnetCandidateGenesisHash) (.failed
      "mainnet-candidate genesis does not match pinned genesis")

/-- `u8::is_ascii_hexdigit`. -/
def isAsciiHexdigit (c : Char) : Bool :=
  c.isDigit ∨ ('a' ≤ c ∧ c ≤ 'f') ∨ ('A' ≤ c ∧ c ≤ 'F')

/-- The summary of a segment, by its place in the list. -/
def ChainSegmentSummary.isValid (summary : ChainSegmentSummary) (segmentId : ℕ) : Bool :=
  summary.segmentId = segmentId
    ∧ summary.endHeight = (segmentId + 1) * chainSegmentBlocks - 1
    ∧ byteLen summary.endBlockHash = 64
    ∧ summary.endBlockHash.all isAsciiHexdigit

/-- The number of segments that a chain of some height has completed. -/
def completedSegments (height : ℕ) : ℕ :=
  height / chainSegmentBlocks
    + if height % chainSegmentBlocks = chainSegmentBlocks - 1 then 1 else 0

/-- `validate_bootstrap_genesis`. -/
def validateBootstrapGenesis (expectedProfileId : Str) (bootstrap : ChainBootstrap) :
    Except JoinError Unit := do
  Outcome.bailIf (bootstrap.launchProfile.profileId ≠ expectedProfileId)
    (.failed "chain bootstrap profile does not match expected profile")
  validateNetworkGenesis expectedProfileId bootstrap.genesisBlock.hash
  if bootstrap.segmentSummaries = [] then pure ()
  else do
    Outcome.bailIf (bootstrap.segmentSummaries.length ≠ completedSegments bootstrap.height)
      (.failed "chain bootstrap has an incomplete segment summary list")
    Outcome.bailIf (bootstrap.segmentSummaries.zipIdx.any fun (summary, segmentId) =>
        summary.isValid segmentId = false)
      (.failed "chain bootstrap has an invalid segment summary")

/-- `is_join_control_envelope`. -/
def isJoinControlEnvelope : GossipEnvelope → Bool
  | .hello _ | .peerStatus .. | .peerList _ | .peerVerificationChallenge ..
  | .peerVerificationResponse .. | .inventory _ => true
  | _ => false

/-- What the peer sends, envelope by envelope; nothing where `read_join_envelope` fails. -/
abbrev Answers := ℕ → Option GossipEnvelope

/-- The loop of `read_join_blocks_response`: the page, and how many envelopes have been read. -/
def readBlocksWithin (answers : Answers) : ℕ → ℕ → Except JoinError (List Block × ℕ)
  | 0, _ => throw (.failed "join peer sent too many control envelopes while joining")
  | tries + 1, answered =>
    match answers answered with
    | none => throw (.failed "join peer failed to send a block page")
    | some (.blocks blocks) => pure (blocks, answered + 1)
    | some envelope =>
      if isJoinControlEnvelope envelope then readBlocksWithin answers tries (answered + 1)
      else throw (.failed "join peer sent another envelope instead of a block page")

/-- `read_join_blocks_response`. -/
def readJoinBlocksResponse (answers : Answers) (answered : ℕ) :
    Except JoinError (List Block × ℕ) :=
  readBlocksWithin answers maxJoinResponseEnvelopes answered

/-- The loop over the segment summaries from the first unchecked one on: how many have been
checked. -/
def checkSegments (blocks : List Block) :
    List ChainSegmentSummary → ℕ → Except JoinError ℕ
  | [], checkedSegments => pure checkedSegments
  | summary :: summaries, checkedSegments =>
    if blocks.length ≤ summary.endHeight then pure checkedSegments
    else match blocks[summary.endHeight]? with
      | none => throw .indexOutOfRange
      | some block => do
        Outcome.bailIf (block.hash ≠ summary.endBlockHash)
          (.failed "join peer segment does not match its announced end hash")
        checkSegments blocks summaries (checkedSegments + 1)

/-- The state of the paging loop. -/
structure Paging where
  blocks : List Block
  checkedSegments : ℕ
  answered : ℕ

namespace Paging

/-- The height of the last block received. -/
def lastHeight (paging : Paging) : ℕ := (paging.blocks.getLast?.map Block.height).getD 0

/-- The loop starts from the genesis block of the bootstrap. -/
def start (bootstrap : ChainBootstrap) (answered : ℕ) : Paging where
  blocks := [bootstrap.genesisBlock]
  checkedSegments := 0
  answered := answered

/-- One round of the loop: the page that it accepts, and the state that it leaves. -/
def round (bootstrap : ChainBootstrap) (answers : Answers) (paging : Paging) :
    Except JoinError (List Block × Paging) := do
  let fromHeight := paging.lastHeight + 1
  let (page, answered) ← readJoinBlocksResponse answers paging.answered
  match page with
  | [] => throw (.failed "join peer returned an empty block page")
  | first :: _ => do
    Outcome.bailIf (first.height ≠ fromHeight)
      (.failed "join peer returned a non-contiguous block page")
    let blocks := paging.blocks ++ page
    let checkedSegments ← checkSegments blocks
      (bootstrap.segmentSummaries.drop paging.checkedSegments) paging.checkedSegments
    pure (page, { blocks := blocks, checkedSegments := checkedSegments, answered := answered })

/-- What follows the loop. -/
def finish (bootstrap : ChainBootstrap) (paging : Paging) : Except JoinError ChainSnapshot := do
  Outcome.bailIf (paging.blocks.getLast?.map Block.hash ≠ some bootstrap.tipHash)
    (.failed "join peer changed tips while serving block pages")
  pure {
    genesisAllocations := bootstrap.genesisAllocations
    vdfRounds := bootstrap.vdfRounds
    launchProfile := bootstrap.launchProfile
    blocks := paging.blocks }

/-- The result of the loop if it takes at most a number of rounds. -/
def run (bootstrap : ChainBootstrap) (answers : Answers) :
    ℕ → Paging → Option (Except JoinError ChainSnapshot)
  | rounds, paging =>
    if bootstrap.height ≤ paging.lastHeight then some (paging.finish bootstrap)
    else match rounds with
      | 0 => none
      | rounds + 1 =>
        match paging.round bootstrap answers with
        | .error error => some (.error error)
        | .ok (_, paging) => run bootstrap answers rounds paging

end Paging

end Iuna
