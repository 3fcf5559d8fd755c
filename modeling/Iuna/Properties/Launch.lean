import Iuna.Properties.Reachable

/-!
# Launched networks

A finalizer that nobody waits for builds a recovery block on its ledger (`recoveryBlock`);
`acceptEach` lets a ledger accept the blocks that a list of finalizers build, each on the ledger
that the one before has left.  What it returns is a run (`run_of_acceptEach`), so that a property
of runs can be tried on a network that is launched and evaluated.

The last part is such a network: one owner with an allocation, and a cryptography that is
computable, in which a signature depends on the key and the whole message.
-/

namespace Outcome

variable {ε α : Type}

/-- The value of a computation that succeeds. -/
def value (x : Except ε α) (succeeds : x.isOk = true) : α :=
  match x, succeeds with
  | .ok a, _ => a

lemma eq_ok_value (x : Except ε α) (succeeds : x.isOk = true) : x = .ok (value x succeeds) := by
  cases x with
  | error e => cases succeeds
  | ok a => rfl

lemma isOk_of_any {x : Except ε α} {p : α → Bool} (holds : x.toOption.any p = true) :
    x.isOk = true := by
  cases x with
  | error e => cases holds
  | ok a => rfl

lemma value_of_any {x : Except ε α} {p : α → Bool} (holds : x.toOption.any p = true)
    (succeeds : x.isOk = true) : p (value x succeeds) = true := by
  cases x with
  | error e => cases succeeds
  | ok a => exact holds

end Outcome

lemma Mutate.outcome_isOk {ε σ α : Type} {x : Mutate ε σ α} {s : σ} :
    (outcome x s).isOk = true ↔ ∃ a s', x s = .ok a s' := by
  unfold outcome
  cases h : x s with
  | ok a s' => simp [Except.isOk, Except.toBool]
  | error e s' => simp [Except.isOk, Except.toBool]

namespace Iuna

namespace Ledger

open Runs

variable [Crypto]

/-! ## Blocks on a ledger -/

/-- A block that a finalizer builds on a ledger without a ticket, as soon as it may. -/
def recoveryBlock (ledger : Ledger) (miner : Str) (transactions : List Transaction)
    (reward : Amount) : Block :=
  let block : Block :=
    { height := ledger.tip.height + 1
      prevHash := ledger.tip.hash
      timestampMs := ledger.tip.timestampMs + recoveryBlockDelayMs
      miner := miner
      rewardAddress := none
      rewardAddressSignature := none
      finalizerMode := .recovery
      finalizerRank := 0
      reward := reward
      vdfRounds := ledger.vdfRounds
      vdfOutput := vdfSolutionPlaceholder
      leaderProof := none
      burnBundleSection := .default
      transactions := transactions
      transactionsV2 := []
      hash := [] }
  { block with hash := block.computeHash }

omit [Crypto] in
lemma acceptedBlocks_map_accepted (blocks : List Block) :
    acceptedBlocks (blocks.map .accepted) = blocks := by
  induction blocks with
  | nil => rfl
  | cons block blocks ih =>
    rw [List.map_cons, acceptedBlocks, List.filterMap_cons]
    exact congrArg (List.cons block) ih

/-- Accept the blocks that are built one on the other, and return them with the last ledger. -/
def acceptEach : List (Ledger → Block) → Ledger → Result (List Block × Ledger)
  | [], ledger => pure ([], ledger)
  | build :: builds, ledger => do
    let block := build ledger
    let (_, next) ← Mutate.outcome (applyBlockAt block block.timestampMs) ledger
    bailIf (next.tip.height = ledger.tip.height) "block is known"
    let (blocks, last) ← acceptEach builds next
    pure (block :: blocks, last)

/-- A block whose application moves the tip is new. -/
lemma step_of_applyBlockAt {ledger next : Ledger} {block : Block} {nowMs : ℕ}
    (applied : applyBlockAt block nowMs ledger = .ok () next)
    (moved : next.tip.height ≠ ledger.tip.height) : Step ledger (.accepted block) next := by
  refine .accepted ?_ applied
  simp only [applyBlockAt, applyBlockWithVdfPolicy, Mutate.bind_eq_ok, Mutate.get_eq_ok,
    Mutate.liftM_eq_lift, Mutate.lift_eq_ok] at applied
  obtain ⟨_, _, ⟨rfl, rfl⟩, isNew, _, ⟨hprecheck, rfl⟩, applied⟩ := applied
  cases isNew with
  | true => exact hprecheck
  | false =>
    simp only [Bool.false_eq_true, if_false, Mutate.pure_eq_ok] at applied
    exact absurd (by rw [applied.2]) moved

/-- Blocks that are accepted one after the other are a run. -/
theorem run_of_acceptEach {builds : List (Ledger → Block)} {ledger last : Ledger}
    {blocks : List Block} (h : acceptEach builds ledger = .ok (blocks, last)) :
    Run Step ledger (blocks.map .accepted) last := by
  induction builds generalizing ledger blocks with
  | nil =>
    simp only [acceptEach, Outcome.pure_eq_ok, Prod.mk.injEq] at h
    obtain ⟨rfl, rfl⟩ := h
    exact .nil _
  | cons build builds ih =>
    simp only [acceptEach, Outcome.bind_eq_ok, Outcome.bailIf_eq_ok, Outcome.pure_eq_ok,
      Prod.mk.injEq] at h
    obtain ⟨⟨_, next⟩, happlied, _, hmoved, ⟨rest, last⟩, hrest, rfl, rfl⟩ := h
    exact .cons (step_of_applyBlockAt (Mutate.outcome_eq_ok.mp happlied) hmoved) (ih hrest)

lemma run_of_isOk {builds : List (Ledger → Block)} {ledger : Ledger}
    (isOk : (acceptEach builds ledger).isOk = true) :
    Run Step ledger ((Outcome.value _ isOk).1.map .accepted) (Outcome.value _ isOk).2 :=
  run_of_acceptEach (Outcome.eq_ok_value _ isOk)

/-- One block that is accepted. -/
lemma step_of_acceptEach {build : Ledger → Block} {ledger : Ledger} {result : List Block × Ledger}
    (h : acceptEach [build] ledger = .ok result) :
    Step ledger (.accepted (build ledger)) result.2 := by
  obtain ⟨blocks, last⟩ := result
  have hrun := run_of_acceptEach h
  simp only [acceptEach, Outcome.bind_eq_ok, Outcome.bailIf_eq_ok, Outcome.pure_eq_ok,
    Prod.mk.injEq] at h
  obtain ⟨_, -, _, -, _, ⟨rfl, -⟩, rfl, -⟩ := h
  obtain ⟨_, hstep, hrest⟩ := run_cons_iff.mp hrun
  exact run_nil_iff.mp hrest ▸ hstep

end Ledger

/-! ## A toy network -/

namespace Toy

/-- A checksum of some bytes, written with a given width. -/
def digest (width : ℕ) (bytes : Bytes) : FixedBytes width :=
  let sum := bytes.foldl (fun sum byte => (sum * 257 + byte.toNat + 1) % (2 ^ 61 - 1)) 7
  ⟨Wire.bigEndian width (sum * sum), Wire.bigEndian_length _ _⟩

/-- The signature of a key on a message. -/
def sign (key : FixedBytes 32) (message : Bytes) : FixedBytes 64 :=
  digest 64 (key.val ++ message)

/-- Every key is valid, and the solution of every delay function is accepted. -/
@[reducible]
def crypto : Crypto where
  sha256 := digest 32
  ed25519KeyValid := fun _ => true
  ed25519KeyWeak := fun _ => false
  ed25519Verify := fun key message signature => signature = sign key message
  mlDsa44SignatureValid := fun _ => true
  mlDsa44Verify := fun _ _ _ => true
  wesolowskiVerify := fun _ _ _ => true

attribute [local instance] crypto

open Runs

def ownerKey : FixedBytes 32 := ⟨List.replicate 32 0xaa, rfl⟩

lemma length_zeros : (List.replicate 32 (0 : UInt8)).length = 32 := rfl

lemma length_sevens : (List.replicate 32 (7 : UInt8)).length = 32 := rfl

def owner : Str := repeatChar 'a' 64

def allocation : Amount := 1000 * microIuna

def genesisAllocations : BTreeMap Str Amount := (∅ : BTreeMap Str Amount).insert owner allocation

/-- A burn of outputs of the owner, signed over the text that counts before domains are bound. -/
def signedBurn (inputs : List OutPoint) (change : List TxOutput) (amount fee : Amount) :
    Transaction :=
  let burn (signature : Str) : Transaction :=
    .burn (inputs.map fun outpoint => ⟨outpoint, owner, signature⟩) change amount fee none signature
  burn (hexEncode (sign ownerKey (utf8 (burn []).signingPayload)).val)

/-- A transfer of outputs of the owner, signed in the same way. -/
def signedTransfer (inputs : List OutPoint) (outputs : List TxOutput) (fee : Amount) :
    Transaction :=
  let transfer (signature : Str) : Transaction :=
    .transfer (inputs.map fun outpoint => ⟨outpoint, owner, signature⟩) outputs fee signature
  transfer (hexEncode (sign ownerKey (utf8 (transfer []).signingPayload)).val)

/-- Burn part of the allocation. -/
def burnAllocation (amount fee : Amount) : Transaction :=
  signedBurn [genesisAllocationOutpoint owner] [⟨owner, allocation - amount - fee⟩] amount fee

def launch : Result Ledger := Ledger.newWithGenesisTransactions genesisAllocations [] 10 .default

set_option maxRecDepth 10000 in
lemma launch_isOk : launch.isOk = true := by decide +kernel

def genesis : Ledger := Outcome.value launch launch_isOk

lemma genesis_launched :
    Ledger.newWithGenesisTransactions genesisAllocations [] 10 .default = .ok genesis :=
  Outcome.eq_ok_value launch launch_isOk

lemma genesis_initial : Ledger.Initial genesis := .launch genesis_launched

lemma genesis_reachable : Ledger.Reachable genesis := ⟨genesis, [], genesis_initial, .nil genesis⟩

/-- A mine action on the genesis block. -/
def minedCoin (salt : ℕ) : Transaction :=
  let difficultyBits := genesis.launchProfile.mineDifficultyBits
  .mine owner genesis.genesisHash salt 0 difficultyBits none
    ((mineSignature .legacy owner genesis.genesisHash salt 0 difficultyBits).toOption.getD [])

/-- A launch without allocations. -/
def bareLaunch : Result Ledger := Ledger.newWithGenesisTransactions ∅ [] 10 .default

set_option maxRecDepth 10000 in
lemma bareLaunch_isOk : bareLaunch.isOk = true := by decide +kernel

def bareGenesis : Ledger := Outcome.value bareLaunch bareLaunch_isOk

lemma bareGenesis_initial : Ledger.Initial bareGenesis :=
  .launch (Outcome.eq_ok_value bareLaunch bareLaunch_isOk)

/-- The owner burns a coin and recovers. -/
def burnAndRecover (ledger : Ledger) : Block :=
  ledger.recoveryBlock owner [burnAllocation microIuna 1] 1

set_option maxRecDepth 10000 in
lemma accepted_isOk : (Ledger.acceptEach [burnAndRecover] genesis).isOk = true := by
  decide +kernel

def block : Block := burnAndRecover genesis

def ledger : Ledger := (Outcome.value (Ledger.acceptEach [burnAndRecover] genesis) accepted_isOk).2

lemma block_accepted : Ledger.Step genesis (.accepted block) ledger := by
  -- unfolded by hand, or the kernel evaluates the whole run to compare the two ledgers
  rw [ledger, block]
  exact Ledger.step_of_acceptEach (Outcome.eq_ok_value _ accepted_isOk)

/-- The owner burns two coins instead. -/
def burnTwoAndRecover (ledger : Ledger) : Block :=
  ledger.recoveryBlock owner [burnAllocation (2 * microIuna) 1] 1

/-- A block that competes with the first one; its hash is the larger one. -/
def rivalBlock : Block := burnTwoAndRecover genesis

set_option maxRecDepth 10000 in
lemma rivalAccepted_isOk : (Ledger.acceptEach [burnTwoAndRecover] genesis).isOk = true := by
  decide +kernel

def rival : Ledger :=
  (Outcome.value (Ledger.acceptEach [burnTwoAndRecover] genesis) rivalAccepted_isOk).2

lemma rivalBlock_accepted : Ledger.Step genesis (.accepted rivalBlock) rival := by
  rw [rival, rivalBlock]
  exact Ledger.step_of_acceptEach (Outcome.eq_ok_value _ rivalAccepted_isOk)

set_option maxRecDepth 10000 in
lemma blocks_hash_ne : genesis.genesis.hash ≠ block.hash ∧ genesis.genesis.hash ≠ rivalBlock.hash
    ∧ rivalBlock.hash ≠ block.hash := by decide +kernel

def events : List Ledger.Event := [.accepted block]

lemma events_run : Run Ledger.Step genesis events ledger :=
  .cons block_accepted (.nil _)

/-- A block with two actions on the genesis block, beside a burn. -/
def firstCoins (ledger : Ledger) : Block :=
  ledger.recoveryBlock owner [burnAllocation microIuna 1, minedCoin 0, minedCoin 1]
    (1 + 2 * mineFinalizerFee)

/-- The next block, with one more of them. -/
def nextCoin (ledger : Ledger) : Block :=
  ledger.recoveryBlock owner
    [signedBurn [⟨(burnAllocation microIuna 1).signature, 0⟩]
      [⟨owner, allocation - 2 * microIuna - 2⟩] microIuna 1, minedCoin 2] (1 + mineFinalizerFee)

def coins : Result (List Block × Ledger) := Ledger.acceptEach [firstCoins, nextCoin] genesis

set_option maxRecDepth 10000 in
lemma coins_isOk : coins.isOk = true := by decide +kernel

def coinBlocks : List Block := (Outcome.value coins coins_isOk).1

def coinLedger : Ledger := (Outcome.value coins coins_isOk).2

lemma coins_run : Run Ledger.Step genesis (coinBlocks.map .accepted) coinLedger := by
  rw [coinBlocks, coinLedger]
  exact Ledger.run_of_isOk coins_isOk

lemma coinLedger_reachable : Ledger.Reachable coinLedger := ⟨genesis, _, genesis_initial, coins_run⟩

end Toy

end Iuna
