import Iuna.App.Node

/-!
# Validation of a page of blocks

`fetch.rs` and the `Blocks` case of `process.rs`: a page is validated on a clone of the ledger,
outside of the lock of the node, by extending the tip or by replaying a fork, and the result is
imported if the tip of the node has not moved in the meantime.
-/

namespace Iuna

namespace Ledger

variable [Crypto]

/-- `choose_fork_with_local_blocks`. -/
def chooseForkWithLocalBlocks (ledger candidate : Ledger) (commonAncestorHeight : ℕ)
    (localForkBlocks : List Block) : ForkChoice :=
  let byHeightAndQuality :=
    if ledger.height < candidate.height then ForkChoice.switchToCandidate
    else if candidate.height < ledger.height then .keepLocal
    else match compareForkBlocks localForkBlocks (candidate.forkBlocks commonAncestorHeight) with
      | .remoteBetter => .switchToCandidate
      | .localBetter => .keepLocal
      | .equal => .keepLocal
  if candidate.height = ledger.height ∧ candidate.tip.hash = ledger.tip.hash then .keepLocal
  else if commonAncestorHeight + 1 < objectiveFinalityActivationHeight then
    if objectiveFinalityActivationHeight ≤ ledger.height
        ∨ forkRewritesFinalizedHistory ledger.height commonAncestorHeight then
      .keepLocal
    else byHeightAndQuality
  else match objectiveFinalityQuality ledger.objectiveFinalityCheckpoint
      candidate.objectiveFinalityCheckpoint with
    | .remoteBetter => .switchToCandidate
    | .localBetter => .keepLocal
    | .equal => byHeightAndQuality

omit [Crypto] in
/-- One persisted block of the check of `adopt_prevalidated_fork`, with the hash and the height
before it. -/
def checkContiguous (previous : Str × ℕ) (block : Block) : Result (Str × ℕ) := do
  bailIf (block.height ≠ previous.2 ∨ block.prevHash ≠ previous.1)
    "persisted local fork blocks are not contiguous from the common ancestor"
  pure (block.hash, saturatingAdd previous.2 1)

/-- `adopt_prevalidated_fork`. -/
def adoptPrevalidatedFork (ledger candidate : Ledger) (commonAncestorHash : Str)
    (localForkBlocks : List Block) : Result (Bool × Ledger) := do
  bailIf (candidate.initialVdfRounds ≠ ledger.initialVdfRounds
      ∨ candidate.launchProfile ≠ ledger.launchProfile
      ∨ candidate.genesisAllocations.toList ≠ ledger.genesisAllocations.toList
      ∨ candidate.genesisHash ≠ ledger.genesisHash)
    "candidate fork identity does not match local chain"
  let ancestor ← orError "candidate fork is missing its requested common ancestor"
    (candidate.chain.find? fun block => block.hash = commonAncestorHash)
  let _ ← localForkBlocks.foldlM checkContiguous (commonAncestorHash, ancestor.height + 1)
  bailIf (candidate.height = ledger.height
      ∧ localForkBlocks.getLast?.all fun block => block.hash ≠ ledger.tip.hash)
    "persisted local fork does not reach the equal-height local tip"
  if ledger.chooseForkWithLocalBlocks candidate ancestor.height localForkBlocks = .keepLocal then
    pure (false, ledger)
  else pure (true, ledger.replaceWithBetterChain candidate localForkBlocks)

end Ledger

/-- `PersistedForkBase`: the state of the common ancestor, rebuilt from stored blocks, so that its
pools are empty, and the stored local blocks above it. -/
structure PersistedForkBase where
  ledger : Ledger
  commonAncestorHash : Str
  localForkBlocks : List Block
  rebuilt : ledger.toPools = .empty

variable [Crypto]

/-- `verify_block_vdfs_parallel`. -/
def verifyBlockVdfs (blocks : List Block) : Result Unit :=
  bailIf (blocks.any fun block => verifyVdf block.vdfSeed block.vdfRounds block.vdfOutput = false)
    "block VDF output is invalid"

/-- The blocks of a page applied one after the other. -/
def applyPreverifiedBlocks (blocks : List Block) (nowMs : ℕ) (ledger : Ledger) : Result Ledger := do
  let (_, extended) ← Mutate.outcome
    (forM blocks fun block => Ledger.applyPreverifiedBlockAt block nowMs) ledger
  pure extended

/-- `validate_blocks_extension_with_fork_base`. -/
def validateBlocksExtension (forkBase : Option PersistedForkBase) (blocks : List Block)
    (nowMs : ℕ) (ledger : Ledger) : Result Ledger :=
  match blocks with
  | [] => pure ledger
  | first :: _ =>
    if first.prevHash = ledger.tip.hash then do
      let extended ← applyPreverifiedBlocks blocks nowMs ledger
      verifyBlockVdfs blocks
      pure extended
    else match forkBase with
      | some forkBase => do
        bailIf (forkBase.ledger.tip.hash ≠ first.prevHash
            ∨ forkBase.commonAncestorHash ≠ first.prevHash)
          "block page has no common ancestor with local chain"
        let candidate ← applyPreverifiedBlocks blocks nowMs forkBase.ledger
        verifyBlockVdfs blocks
        let (_, adopted) ← ledger.adoptPrevalidatedFork candidate forkBase.commonAncestorHash
          forkBase.localForkBlocks
        pure adopted
      | none => do
        let ancestor ← orError "block page has no common ancestor with local chain"
          (ledger.chain.findIdx? fun block => block.hash = first.prevHash)
        let snapshot := ledger.snapshot
        let (_, extended) ← ledger.extendFromSnapshotWithVdfPolicy
          { snapshot with blocks := snapshot.blocks.take (ancestor + 1) ++ blocks } false nowMs
        verifyBlockVdfs blocks
        pure extended

namespace Node

variable [SerdeJson]

/-- The end of the `Blocks` case of `process_envelope`: what has been validated on the clone is
imported if the tip is the one that the clone was taken at and no newer synchronization has begun
(`isCurrent`). -/
def importValidated (baseTip : Str) (isCurrent : Bool) (validated : Result Ledger) (node : Node) :
    Node :=
  match validated with
  | .error _ => node
  | .ok ledger =>
    if isCurrent ∧ node.ledger.tip.hash = baseTip then
      match node.importVerifiedLedger ledger with
      | .ok (_, imported) => imported
      | .error _ => node
    else node

end Node

end Iuna
