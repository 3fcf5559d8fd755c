import Iuna.Adapters.Fetch
import Iuna.Library.Preserve

/-!
# Processing of blocks from peers

The `Block`, `Blocks` and `ChainBootstrap` cases of `process_envelope`: each looks at the node under
its lock, validates outside of it, and comes back under the lock to apply or import what it has
validated, guarded by the tip it started from.  Any number of messages is processed at a time, so
the state has the messages in flight beside the node, and one step advances one of them.
-/

namespace Iuna

variable [Crypto] [SerdeJson]

/-- `load_bounded_ledger_at_block` on the header of the store and its blocks up to the target: they
are applied one by one, and only a bounded window of them stays resident. -/
def loadBoundedLedger (header : ChainSnapshot) (genesisBlock : Block) (stored : List Block)
    (revalidationFromHeight : Option ℕ) (residentBlocks : ℕ) : Result Ledger := do
  let start ← Ledger.fromSnapshotWithVdfPolicy { header with blocks := [genesisBlock] } false u64Max
  let (_, ledger) ← Mutate.outcome (forM stored fun block => do
    Ledger.applyBlockWithVdfPolicy block (revalidationFromHeight.any fun height =>
      height ≤ block.height) u64Max
    modify fun ledger => ledger.retainRecentChainBlocks residentBlocks) start
  pure ledger

/-- `validate_chain_bootstrap` after the checks of the network genesis: the ledger of the genesis
block. -/
def validateChainBootstrap (genesisAllocations : BTreeMap Str Amount) (vdfRounds : ℕ)
    (launchProfile : LaunchProfile) (genesisBlock : Block) (nowMs : ℕ) : Result Ledger :=
  Ledger.fromSnapshotWithVdfPolicy
    { genesisAllocations := genesisAllocations
      vdfRounds := vdfRounds
      launchProfile := launchProfile
      blocks := [genesisBlock] } true nowMs

namespace Node

/-- The end of the `Block` case: a verified block is applied if the tip is the one that it was
prechecked at and no newer synchronization has begun (`isCurrent`). -/
def applyVerified (block : Block) (baseTip : Str) (isCurrent : Bool) (nowMs : ℕ) (node : Node) :
    Node :=
  if isCurrent ∧ node.ledger.tip.hash = baseTip then
    Mutate.after (receiveBlock block false nowMs) node
  else node

/-- `complete_prepared_block_at` on the finished block: it is applied to a copy of the ledger. -/
def completePreparedBlock (block : Block) (nowMs : ℕ) (node : Node) : Node :=
  match Ledger.applyPreverifiedBlockAt block nowMs node.ledger with
  | .ok _ ledger => ({ node with ledger := ledger }.pruneBurnBundles).enqueueGossip (.block block)
  | .error _ _ => node

end Node

/-- A message in flight, with the tip of the node at its base. -/
inductive Task
  | prechecked (block : Block) (baseTip : Str)
  | verified (block : Block) (baseTip : Str)
  | cloned (clone : Ledger) (blocks : List Block) (baseTip : Str)
  | bootstrap (genesisAllocations : BTreeMap Str Amount) (vdfRounds : ℕ)
      (launchProfile : LaunchProfile) (genesisBlock : Block) (baseTip : Str)
  | validated (ledger : Ledger) (baseTip : Str)

/-- The node, the messages in flight, the blocks that were ever persisted and the blocks that were
prepared and computed locally. -/
structure GossipNetwork where
  node : Node
  tasks : List Task
  persisted : List Block
  produced : List Block

/-- The base of a fork is loaded from blocks that were persisted. -/
def PersistedForkBase.LoadedFrom (persisted : List Block) (known : PersistedForkBase) : Prop :=
  ∃ header genesisBlock stored revalidationFromHeight residentBlocks,
    (∀ block ∈ stored, block ∈ persisted) ∧ loadBoundedLedger header genesisBlock stored
      revalidationFromHeight residentBlocks = .ok known.ledger

/-- What happens in one step. -/
inductive ProcessEvent
  | blockPrechecked (block : Block)
  | blockVerified (block : Block)
  | blockApplied (block : Block)
  | pageCloned (blocks : List Block)
  | pageValidated (blocks : List Block)
  | bootstrapReceived
  | bootstrapValidated
  | ledgerImported
  | taskDropped
  | blockFinalized (block : Block)
  | chainPersisted
  | historyPruned (recentLimit : ℕ)
  | poolsChanged

/-- One step.  The message that advances is any one of those in flight. -/
inductive ProcessStep : GossipNetwork → ProcessEvent → GossipNetwork → Prop
  | blockPrechecked {network : GossipNetwork} {block : Block} {nowMs : ℕ}
      (needsVdf : network.node.ledger.precheckBlockWithoutVdfAt block nowMs = .ok true) :
      ProcessStep network (.blockPrechecked block) { network with
        tasks := .prechecked block network.node.ledger.tip.hash :: network.tasks }
  | blockVerified {network : GossipNetwork} {before rest : List Task} {block : Block}
      {baseTip : Str} (tasks : network.tasks = before ++ .prechecked block baseTip :: rest)
      (verified : verifyVdf block.vdfSeed block.vdfRounds block.vdfOutput = true) :
      ProcessStep network (.blockVerified block) { network with
        tasks := before ++ .verified block baseTip :: rest }
  | blockApplied {network : GossipNetwork} {before rest : List Task} {block : Block}
      {baseTip : Str} (tasks : network.tasks = before ++ .verified block baseTip :: rest)
      (isCurrent : Bool) (nowMs : ℕ) :
      ProcessStep network (.blockApplied block) { network with
        node := network.node.applyVerified block baseTip isCurrent nowMs
        tasks := before ++ rest }
  | pageCloned {network : GossipNetwork} (blocks : List Block) :
      ProcessStep network (.pageCloned blocks) { network with
        tasks := .cloned network.node.ledger blocks network.node.ledger.tip.hash
          :: network.tasks }
  | pageValidated {network : GossipNetwork} {before rest : List Task} {clone ledger : Ledger}
      {blocks : List Block} {baseTip : Str} {forkBase : Option PersistedForkBase} {nowMs : ℕ}
      (tasks : network.tasks = before ++ .cloned clone blocks baseTip :: rest)
      (base : ∀ known, forkBase = some known → known.LoadedFrom network.persisted)
      (validated : validateBlocksExtension forkBase blocks nowMs clone = .ok ledger) :
      ProcessStep network (.pageValidated blocks) { network with
        tasks := before ++ .validated ledger baseTip :: rest }
  | bootstrapReceived {network : GossipNetwork} (genesisAllocations : BTreeMap Str Amount)
      (vdfRounds : ℕ) (launchProfile : LaunchProfile) (genesisBlock : Block) :
      ProcessStep network .bootstrapReceived { network with
        tasks := .bootstrap genesisAllocations vdfRounds launchProfile genesisBlock
          network.node.ledger.tip.hash :: network.tasks }
  | bootstrapValidated {network : GossipNetwork} {before rest : List Task}
      {genesisAllocations : BTreeMap Str Amount} {vdfRounds : ℕ} {launchProfile : LaunchProfile}
      {genesisBlock : Block} {baseTip : Str} {ledger : Ledger} {nowMs : ℕ}
      (tasks : network.tasks = before ++ .bootstrap genesisAllocations vdfRounds launchProfile
        genesisBlock baseTip :: rest)
      (validated : validateChainBootstrap genesisAllocations vdfRounds launchProfile genesisBlock
        nowMs = .ok ledger) :
      ProcessStep network .bootstrapValidated { network with
        tasks := before ++ .validated ledger baseTip :: rest }
  | ledgerImported {network : GossipNetwork} {before rest : List Task} {ledger : Ledger}
      {baseTip : Str} (tasks : network.tasks = before ++ .validated ledger baseTip :: rest)
      (isCurrent : Bool) :
      ProcessStep network .ledgerImported { network with
        node := network.node.importValidated baseTip isCurrent (.ok ledger)
        tasks := before ++ rest }
  | taskDropped {network : GossipNetwork} {before rest : List Task} {task : Task}
      (tasks : network.tasks = before ++ task :: rest) :
      ProcessStep network .taskDropped { network with tasks := before ++ rest }
  | blockFinalized {network : GossipNetwork} (block : Block) (nowMs : ℕ) :
      ProcessStep network (.blockFinalized block) { network with
        node := network.node.completePreparedBlock block nowMs
        produced := block :: network.produced }
  | chainPersisted {network : GossipNetwork} :
      ProcessStep network .chainPersisted { network with
        persisted := network.persisted ++ network.node.ledger.chain.tail }
  | historyPruned {network : GossipNetwork} (recentLimit : ℕ) :
      ProcessStep network (.historyPruned recentLimit) { network with
        node := { network.node with
          ledger := network.node.ledger.retainRecentChainBlocks recentLimit } }
  | poolsChanged {network : GossipNetwork} {node : Node} {pools : Pools}
      (ledger : node.ledger = network.node.ledger.withPools pools) :
      ProcessStep network .poolsChanged { network with node := node }

end Iuna
