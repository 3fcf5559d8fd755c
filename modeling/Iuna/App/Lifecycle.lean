import Iuna.App.Node

/-!
# What resets a node

The parts of `node_lifecycle.rs` and `receive.rs` that empty the outbox: handing the queued gossip
over to the network, and the return to a setup placeholder.
-/

namespace Iuna

namespace Node

variable [Crypto]

omit [Crypto] in
/-- `drain_outbox`: the queued envelopes, and the node that is left. -/
def drainOutbox (node : Node) : List GossipEnvelope × Node :=
  (node.outbox.entries.map Prod.fst, { node with outbox := { entries := [], bytes := 0 } })

/-- `reset_chain_to_setup_placeholder`. -/
def resetChainToSetupPlaceholder (node : Node) : Result Node := do
  let ledger ← Ledger.newWithGenesisTransactions ∅ [] 1 node.ledger.launchProfile
  pure { node with
    ledger := ledger
    burnBundles := ∅
    equivocatedBurnBundleSlots := ∅
    outbox := { node.outbox with entries := [] } }

end Node

end Iuna
