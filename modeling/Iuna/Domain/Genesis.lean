import Iuna.Domain.LedgerOps

/-!
# The genesis block

The genesis block is determined by the allocations and the burns of a launch.  This module is
`genesis.rs`: the block itself, the unspent outputs after it, and the checks that a snapshot's
first block has to pass.
-/

namespace Iuna

/-- `BLOCK_REWARD`. -/
def genesisBlockReward : Amount := microIuna

/-- `genesis_allocation_outpoint`. -/
def genesisAllocationOutpoint [Crypto] (address : Str) : OutPoint :=
  { txid := hexHash (colons [str "iuna-genesis-allocation", address]), index := 0 }

/-- `genesis_miner`: the first burner with an allocation, else the first allocation, else a
placeholder. -/
def genesisMiner (genesisAllocations : BTreeMap Str Amount) (transactions : List Transaction) :
    Str :=
  let burners := transactions.filterMap fun transaction =>
    match transaction with
    | .burn inputs _ _ _ _ _ => inputs.head?.map TxInput.owner
    | _ => none
  match burners.find? fun owner => owner ∈ genesisAllocations with
  | some owner => owner
  | none => (genesisAllocations.keys.head?).getD (str "genesis")

/-- `genesis_reward`. -/
def genesisReward (genesisAllocations : BTreeMap Str Amount) (transactions : List Transaction) :
    Amount :=
  if genesisAllocations.isEmpty ∨ transactions = [] then 0 else genesisBlockReward

/-- The `Debug` text of the allocations.  Their keys are validated hexadecimal addresses, in which
nothing is escaped. -/
def debugAllocations (genesisAllocations : BTreeMap Str Amount) : Str :=
  let entries := genesisAllocations.toList.map fun entry =>
    '"' :: entry.1 ++ str "\": " ++ decimal entry.2
  '\x7b' :: List.intercalate (str ", ") entries ++ ['\x7d']

variable [Crypto]

/-- The fields of the genesis block before it is hashed. -/
def unhashedGenesisBlock (genesisAllocations : BTreeMap Str Amount)
    (transactions : List Transaction) : Block where
  height := 0
  prevHash := repeatChar '0' 64
  timestampMs := 0
  miner := genesisMiner genesisAllocations transactions
  rewardAddress := none
  rewardAddressSignature := none
  finalizerMode := .ticket
  finalizerRank := 0
  reward := genesisReward genesisAllocations transactions
  vdfRounds := 0
  vdfOutput := hexHash (colons [str "iuna-genesis-vdf", debugAllocations genesisAllocations,
    joinWith '|' (transactions.map Transaction.canonical)])
  leaderProof := none
  burnBundleSection := .default
  transactions := transactions
  transactionsV2 := []
  hash := []

/-- `build_genesis_block`. -/
def buildGenesisBlock (genesisAllocations : BTreeMap Str Amount)
    (transactions : List Transaction) : Block :=
  let genesis := unhashedGenesisBlock genesisAllocations transactions
  { genesis with hash := genesis.computeHash }

/-- The outputs that the allocations stand for. -/
def genesisAllocationOutputs (genesisAllocations : BTreeMap Str Amount) :
    List (OutPoint × TxOutput) :=
  (genesisAllocations.toList.filter fun entry => 0 < entry.2).map fun entry =>
    (genesisAllocationOutpoint entry.1, { address := entry.1, amount := entry.2 })

/-- `genesis_allocation_utxos`. -/
def genesisAllocationUtxos (genesisAllocations : BTreeMap Str Amount) : Utxos :=
  insertOutputs ∅ (genesisAllocationOutputs genesisAllocations)

/-- One transaction of `utxos_after_genesis`. -/
def applyGenesisTransaction (transaction : Transaction) : Mutate Error Utxos Unit := do
  match transaction with
  | .burn _ _ _ _ _ _ => do
    validateGenesisBurnTransaction transaction
    applyTransaction transaction .legacy
  | _ => liftM (bail "genesis only supports burn transactions" : Result Unit)

/-- `utxos_after_genesis`. -/
def utxosAfterGenesis (genesisAllocations : BTreeMap Str Amount) (genesis : Block) :
    Result Utxos := do
  let (_, utxos) ← Mutate.outcome (forM genesis.transactions applyGenesisTransaction)
    (genesisAllocationUtxos genesisAllocations)
  creditRewardOutputs utxos genesis []

/-- `validate_genesis_block`. -/
def validateGenesisBlock (block : Block) : Result Unit := do
  bailIf (block.height ≠ 0) "genesis block height must be 0"
  bailIf (block.prevHash ≠ repeatChar '0' 64) "genesis block prev_hash must be all zeroes"
  bailIf (block.timestampMs ≠ 0) "genesis block timestamp must be 0"
  bailIf (block.miner = str "genesis" ∧ block.reward ≠ 0)
    "genesis placeholder miner must not receive a reward"
  bailIf (block.miner ≠ str "genesis" ∧ block.reward ≠ 0 ∧ block.reward ≠ genesisBlockReward)
    "genesis block reward is invalid"
  bailIf (block.vdfRounds ≠ 0) "genesis block VDF rounds must be 0"
  bailIf block.leaderProof.isSome "genesis block must not carry a leader proof"
  bailIf (block.burnBundleSection.isEmpty = false)
    "genesis block must not carry burn bundle attestations"
  bailIf (block.computeHash ≠ block.hash) "genesis block hash is invalid"

end Iuna
