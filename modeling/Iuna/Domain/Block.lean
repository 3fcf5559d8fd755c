import Iuna.Domain.TransactionV2

/-!
# Burn bundles and blocks

A block carries, beside its transactions, the attestations of the burn committee: the section of
signatures and the burns they attest, each with the mask of the committee slots that signed for
it.  This module is `reveal.rs` and the hashing half of `block.rs`: the canonical texts, the VDF
seed with its content commitment, and `Block.computeHash`.

The size of a burn bundle is limited by the length of its JSON text, so the lengths that the
serializer produces are computed here too.
-/

namespace Iuna

/-! ## Burn bundles -/

/-- `BurnBundle`. -/
structure BurnBundle where
  height : ℕ
  prevHash : Str
  slot : ℕ
  member : Str
  rewardAddress : Option Str
  burns : List Transaction
  burnsV2 : List Str
  signature : Str
  deriving DecidableEq

/-- `BurnBundleSignature`. -/
structure BurnBundleSignature where
  slot : ℕ
  member : Str
  rewardAddress : Option Str
  signature : Str
  deriving DecidableEq

/-- `MaskedBurn`. -/
structure MaskedBurn where
  burn : Transaction
  bundleMask : ℕ
  deriving DecidableEq

/-- `MaskedBurnV2`. -/
structure MaskedBurnV2 where
  envelope : Str
  bundleMask : ℕ
  deriving DecidableEq

/-- `BurnBundleSection`. -/
structure BurnBundleSection where
  signatures : List BurnBundleSignature
  burns : List MaskedBurn
  burnsV2 : List MaskedBurnV2
  deriving DecidableEq

/-- `BurnCommitteeMember`. -/
structure BurnCommitteeMember where
  slot : ℕ
  root : Str
  owner : Str
  weight : Amount
  deriving DecidableEq

/-- `BurnBundleSection::default`. -/
def BurnBundleSection.default : BurnBundleSection :=
  { signatures := [], burns := [], burnsV2 := [] }

/-- `burn_bundle_slot_mask`. -/
def burnBundleSlotMask (slot : ℕ) : Result ℕ := do
  bailIf (burnCommitteeSize ≤ slot ∨ 8 ≤ slot) "burn bundle slot is invalid"
  pure (1 <<< slot)

/-- `burn_committee_mask`. -/
def burnCommitteeMask : ℕ :=
  (List.range burnCommitteeSize).foldl (fun mask slot => mask ||| (1 <<< slot)) 0

/-- `BurnBundlePayload::canonical`, on the fields of the bundle. -/
def BurnBundle.canonicalPayload (bundle : BurnBundle) : Str :=
  let burns := joinWith '|' (bundle.burns.map Transaction.canonical)
  let burnsV2 := joinWith '|' bundle.burnsV2
  if burnsV2 ≠ [] then
    colons [str "iuna-burn-bundle-v3", decimal bundle.height, bundle.prevHash, decimal bundle.slot,
      bundle.member, bundle.rewardAddress.getD [], burns, burnsV2]
  else match bundle.rewardAddress with
    | some address =>
      colons [str "iuna-burn-bundle-v2", decimal bundle.height, bundle.prevHash,
        decimal bundle.slot, bundle.member, address, burns]
    | none =>
      colons [str "iuna-burn-bundle-v1", decimal bundle.height, bundle.prevHash,
        decimal bundle.slot, bundle.member, burns]

/-- `BurnBundle::canonical`. -/
def BurnBundle.canonical (bundle : BurnBundle) : Str :=
  colons [bundle.canonicalPayload, bundle.signature]

namespace BurnBundleSection

/-- `expand`: the bundle that each signature of the section stands for. -/
def expand (sect : BurnBundleSection) (height : ℕ) (prevHash : Str) : List BurnBundle :=
  sect.signatures.map fun signature =>
    let slotMask := match burnBundleSlotMask signature.slot with
      | .ok mask => mask
      | .error _ => 0
    { height := height
      prevHash := prevHash
      slot := signature.slot
      member := signature.member
      rewardAddress := signature.rewardAddress
      burns := (sect.burns.filter fun masked => masked.bundleMask &&& slotMask ≠ 0).map
        MaskedBurn.burn
      burnsV2 := (sect.burnsV2.filter fun masked => masked.bundleMask &&& slotMask ≠ 0).map
        MaskedBurnV2.envelope
      signature := signature.signature }

/-- `BurnBundleSection::canonical`. -/
def canonical (sect : BurnBundleSection) : Str :=
  let signatures := joinWith '|' (sect.signatures.map fun signature =>
    match signature.rewardAddress with
    | some address =>
      colons [decimal signature.slot, signature.member, address, signature.signature]
    | none => colons [decimal signature.slot, signature.member, signature.signature])
  let burns := joinWith '|' (sect.burns.map fun masked =>
    colons [decimal masked.bundleMask, masked.burn.canonical])
  let burnsV2 := joinWith '|' (sect.burnsV2.map fun masked =>
    colons [decimal masked.bundleMask, masked.envelope])
  if burnsV2 = [] then
    colons [str "burn-bundle-section-v1", signatures, str "burns", burns]
  else
    colons [str "burn-bundle-section-v2", signatures, str "burns", burns, str "burns-v2", burnsV2]

/-- `is_empty`. -/
def isEmpty (sect : BurnBundleSection) : Bool :=
  sect.signatures.isEmpty && sect.burns.isEmpty && sect.burnsV2.isEmpty

end BurnBundleSection

section Hashes

variable [Crypto]

/-- `default_burn_bundle_hash`. -/
def defaultBurnBundleHash (slot : ℕ) : Str :=
  hexHash (colons [str "iuna-default-burn-bundle-v1", decimal slot])

/-- `bundle_hash`. -/
def BurnBundle.bundleHash (bundle : BurnBundle) : Str := hexHash bundle.canonical

/-- `burn_bundle_hashes` of a list of bundles. -/
def burnBundleHashes (bundles : List BurnBundle) : List Str :=
  (List.range burnCommitteeSize).map fun slot =>
    match bundles.find? fun bundle => bundle.slot = slot with
    | some bundle => bundle.bundleHash
    | none => defaultBurnBundleHash slot

/-- `finalizer_attestation_hash`. -/
def finalizerAttestationHash (height : ℕ) (prevHash finalizer : Str) (burns : List MaskedBurn)
    (burnsV2 : List MaskedBurnV2) : Str :=
  let canonicalBurns := joinWith '|' (burns.map fun masked => masked.burn.canonical)
  let canonicalBurnsV2 := joinWith '|' (burnsV2.map fun masked =>
    colons [decimal masked.bundleMask, masked.envelope])
  if canonicalBurnsV2 = [] then
    hexHash (colons [str "iuna-finalizer-burn-attestation-v1", decimal height, prevHash, finalizer,
      canonicalBurns])
  else
    hexHash (colons [str "iuna-finalizer-burn-attestation-v2", decimal height, prevHash, finalizer,
      canonicalBurns, canonicalBurnsV2])

/-- `BurnBundleSection::burn_bundle_hashes`: slot zero is the attestation of the finalizer. -/
def BurnBundleSection.burnBundleHashes (sect : BurnBundleSection) (height : ℕ)
    (prevHash finalizer : Str) : List Str :=
  (Iuna.burnBundleHashes (sect.expand height prevHash)).set 0
    (finalizerAttestationHash height prevHash finalizer sect.burns sect.burnsV2)

end Hashes

/-! ## Blocks -/

/-- `FinalizerMode`. -/
inductive FinalizerMode
  | ticket
  | recovery
  deriving DecidableEq

/-- `LeaderProof`. -/
structure LeaderProof where
  ticketId : Str
  publicKey : Str
  signature : Str
  deriving DecidableEq

/-- `Block`. -/
structure Block where
  height : ℕ
  prevHash : Str
  timestampMs : ℕ
  miner : Str
  rewardAddress : Option Str
  rewardAddressSignature : Option Str
  finalizerMode : FinalizerMode
  finalizerRank : ℕ
  reward : Amount
  vdfRounds : ℕ
  vdfOutput : Str
  leaderProof : Option LeaderProof
  burnBundleSection : BurnBundleSection
  transactions : List Transaction
  transactionsV2 : List Str
  hash : Str
  deriving DecidableEq

/-- `FinalizerMode::fork_choice_rank`. -/
def FinalizerMode.forkChoiceRank : FinalizerMode → ℕ
  | ticket => 0
  | recovery => 1

variable [Crypto]

/-- `vdf_seed_for_child`. -/
def vdfSeedForChild (prevHash : Str) (height : ℕ) (bundleHashes : List Str)
    (contentCommitment : Str) : Str :=
  if height < grindingResistanceActivationHeight then
    hexHash (colons [str "iuna-vdf-child", prevHash, decimal height, joinWith '|' bundleHashes])
  else
    hexHash (colons [str "iuna-vdf-child-v2", prevHash, decimal height, contentCommitment,
      joinWith '|' bundleHashes])

/-- `recovery_vdf_seed_for_child`. -/
def recoveryVdfSeedForChild (prevHash : Str) (height timestampMs : ℕ) (bundleHashes : List Str)
    (contentCommitment : Str) : Str :=
  if height < grindingResistanceActivationHeight then
    hexHash (colons [str "iuna-recovery-vdf-child", prevHash, decimal height, decimal timestampMs,
      joinWith '|' bundleHashes])
  else
    hexHash (colons [str "iuna-recovery-vdf-child-v2", prevHash, decimal height,
      decimal timestampMs, contentCommitment, joinWith '|' bundleHashes])

/-- `vdf_content_commitment`. -/
def vdfContentCommitment (height : ℕ) (prevHash miner : Str) (rewardAddress : Option Str)
    (finalizerMode : FinalizerMode) (finalizerRank : ℕ) (reward : Amount) (vdfRounds : ℕ)
    (leaderTicketId : Option Str) (burnBundleSection : BurnBundleSection)
    (transactions : List Transaction) (transactionsV2 : List Str) : Str :=
  let mode := match finalizerMode with
    | .ticket => str "ticket"
    | .recovery => str "recovery"
  let ticketId := leaderTicketId.getD (str "none")
  let transactionHash := hexHash (colons [str "iuna-vdf-transactions-v1",
    joinWith '|' (transactions.map Transaction.canonical)])
  let burnSectionHash := hexHash (colons [str "iuna-vdf-burn-section-v1",
    burnBundleSection.canonical])
  let transactionV2Hash := hexHash (colons [str "iuna-vdf-transactions-v2",
    joinWith '|' transactionsV2])
  match rewardAddress with
  | some rewardAddress =>
    hexHash (colons [str "iuna-vdf-content-v3", decimal height, prevHash, miner, rewardAddress,
      mode, decimal finalizerRank, decimal reward, decimal vdfRounds, ticketId, transactionHash,
      transactionV2Hash, burnSectionHash])
  | none =>
    if transactionsV2 = [] then
      hexHash (colons [str "iuna-vdf-content-v1", decimal height, prevHash, miner, mode,
        decimal finalizerRank, decimal reward, decimal vdfRounds, ticketId, transactionHash,
        burnSectionHash])
    else
      hexHash (colons [str "iuna-vdf-content-v2", decimal height, prevHash, miner, mode,
        decimal finalizerRank, decimal reward, decimal vdfRounds, ticketId, transactionHash,
        transactionV2Hash, burnSectionHash])

namespace Block

/-- `burn_bundle_hashes`. -/
def burnBundleHashes (block : Block) : List Str :=
  block.burnBundleSection.burnBundleHashes block.height block.prevHash block.miner

/-- `vdf_seed`. -/
def vdfSeed (block : Block) : Str :=
  let contentCommitment := vdfContentCommitment block.height block.prevHash block.miner
    block.rewardAddress block.finalizerMode block.finalizerRank block.reward block.vdfRounds
    (block.leaderProof.map LeaderProof.ticketId) block.burnBundleSection block.transactions
    block.transactionsV2
  match block.finalizerMode with
  | .ticket =>
    vdfSeedForChild block.prevHash block.height block.burnBundleHashes contentCommitment
  | .recovery =>
    recoveryVdfSeedForChild block.prevHash block.height block.timestampMs block.burnBundleHashes
      contentCommitment

/-- `content_hash`. -/
def contentHash (block : Block) : Str :=
  let txs := joinWith '|' (block.transactions.map Transaction.canonical)
  let txsV2 := joinWith '|' block.transactionsV2
  let burnItems := colons [str "burn-section-v1", block.burnBundleSection.canonical]
  let leaderProof := match block.leaderProof with
    | some proof => colons [proof.ticketId, proof.publicKey, proof.signature]
    | none => []
  match block.rewardAddress with
  | some rewardAddress =>
    hexHash (colons [str "block-content-v6", decimal block.height, block.prevHash,
      decimal block.timestampMs, block.miner, rewardAddress,
      block.rewardAddressSignature.getD [], decimal block.finalizerRank, decimal block.reward,
      decimal block.vdfRounds, leaderProof, txs, txsV2, burnItems])
  | none =>
    if block.transactionsV2 = [] then
      hexHash (colons [str "block-content-v4", decimal block.height, block.prevHash,
        decimal block.timestampMs, block.miner, decimal block.finalizerRank, decimal block.reward,
        decimal block.vdfRounds, leaderProof, txs, burnItems])
    else
      hexHash (colons [str "block-content-v5", decimal block.height, block.prevHash,
        decimal block.timestampMs, block.miner, decimal block.finalizerRank, decimal block.reward,
        decimal block.vdfRounds, leaderProof, txs, txsV2, burnItems])

/-- `compute_hash`. -/
def computeHash (block : Block) : Str :=
  hexHash (colons [str "block", block.contentHash, block.vdfSeed, block.vdfOutput])

end Block

@[simp] lemma Block.computeHash_length (block : Block) : block.computeHash.length = 64 :=
  hexHash_length _

/-- `LeaderProof::rank`. -/
def LeaderProof.rank (proof : LeaderProof) : Str :=
  hexHash (colons [str "iuna-leader-rank", proof.ticketId, proof.signature])

omit [Crypto] in
/-- `LeaderProofPayload::canonical`, on the fields of the block and of the ticket. -/
def leaderProofPayload (height : ℕ) (prevHash : Str) (finalizerRank : ℕ) (vdfOutput ticketId : Str)
    (ticketAmount : Amount) (ticketOwner : Str) : Str :=
  if finalizerRank = 0 then
    colons [str "iuna-leader-proof", decimal height, prevHash, vdfOutput, ticketId,
      decimal ticketAmount, ticketOwner]
  else
    colons [str "iuna-leader-proof-v2", decimal height, prevHash, decimal finalizerRank, vdfOutput,
      ticketId, decimal ticketAmount, ticketOwner]

/-! ## Delay proofs -/

omit [Crypto] in
def vdfSolutionPrefix : Str := str "classgroup-wesolowski-bqfc-v1:"

omit [Crypto] in
/-- `wesolowski::SOLUTION_BYTES`: two forms of 100 bytes. -/
def vdfSolutionBytes : ℕ := 200

omit [Crypto] in
/-- `decode_vdf_solution`. -/
def decodeVdfSolution (solution : Str) : Option Bytes :=
  if vdfSolutionPrefix.isPrefixOf solution then
    match decodeHex (solution.drop vdfSolutionPrefix.length) with
    | .ok bytes => if bytes.length = vdfSolutionBytes then some bytes else none
    | .error _ => none
  else none

/-- `verify_vdf`. -/
def verifyVdf (seed : Str) (rounds : ℕ) (solution : Str) : Bool :=
  match decodeVdfSolution solution with
  | none => false
  | some solution => Crypto.wesolowskiVerify (utf8 seed) rounds solution

omit [Crypto] in
/-- `vdf_solution_placeholder`. -/
def vdfSolutionPlaceholder : Str := vdfSolutionPrefix ++ repeatChar 'f' (vdfSolutionBytes * 2)

/-! ## Lengths of JSON texts -/

section Json

omit [Crypto]

/-- The length of a character inside a JSON string. -/
def jsonCharSize (c : Char) : ℕ :=
  if c = '"' ∨ c = '\\' then 2
  else if c.toNat = 8 ∨ c.toNat = 9 ∨ c.toNat = 10 ∨ c.toNat = 12 ∨ c.toNat = 13 then 2
  else if c.toNat < 0x20 then 6
  else c.utf8Size

def jsonStringSize (s : Str) : ℕ := 2 + (s.map jsonCharSize).sum

def jsonNumberSize (n : ℕ) : ℕ := (decimal n).length

/-- The length of an array whose elements have the given lengths. -/
def jsonArraySize (elements : List ℕ) : ℕ := 2 + elements.sum + (elements.length - 1)

/-- The length of an object whose fields have the given names and lengths. -/
def jsonObjectSize (fields : List (String × ℕ)) : ℕ :=
  2 + (fields.map fun field => (str field.1).length + 3 + field.2).sum + (fields.length - 1)

def TxInput.jsonSize (input : TxInput) : ℕ :=
  jsonObjectSize [("outpoint", jsonObjectSize [("txid", jsonStringSize input.outpoint.txid),
      ("index", jsonNumberSize input.outpoint.index)]),
    ("owner", jsonStringSize input.owner), ("signature", jsonStringSize input.signature)]

def TxOutput.jsonSize (output : TxOutput) : ℕ :=
  jsonObjectSize [("address", jsonStringSize output.address),
    ("amount", jsonNumberSize output.amount)]

/-- `Transaction::serialized_size_bytes`. -/
def Transaction.jsonSize : Transaction → ℕ
  | .transfer inputs outputs fee signature =>
    jsonObjectSize [("kind", jsonStringSize (str "transfer")),
      ("inputs", jsonArraySize (inputs.map TxInput.jsonSize)),
      ("outputs", jsonArraySize (outputs.map TxOutput.jsonSize)), ("fee", jsonNumberSize fee),
      ("signature", jsonStringSize signature)]
  | .burn inputs change amount fee anchor signature =>
    jsonObjectSize ([("kind", jsonStringSize (str "burn")),
      ("inputs", jsonArraySize (inputs.map TxInput.jsonSize)),
      ("change", jsonArraySize (change.map TxOutput.jsonSize)), ("amount", jsonNumberSize amount),
      ("fee", jsonNumberSize fee)]
      ++ (match anchor with
        | some anchor => [("anchor", jsonStringSize anchor)]
        | none => [])
      ++ [("signature", jsonStringSize signature)])
  | .mine recipient anchor salt nonce difficultyBits proofHeader signature =>
    jsonObjectSize ([("kind", jsonStringSize (str "mine")), ("recipient", jsonStringSize recipient),
      ("anchor", jsonStringSize anchor), ("salt", jsonNumberSize salt),
      ("nonce", jsonNumberSize nonce), ("difficulty_bits", jsonNumberSize difficultyBits)]
      ++ (match proofHeader with
        | some header => [("proof_header", jsonStringSize header)]
        | none => [])
      ++ [("signature", jsonStringSize signature)])

/-- `BurnBundle::serialized_size_bytes`. -/
def BurnBundle.serializedSizeBytes (bundle : BurnBundle) : ℕ :=
  jsonObjectSize ([("height", jsonNumberSize bundle.height),
    ("prevHash", jsonStringSize bundle.prevHash), ("slot", jsonNumberSize bundle.slot),
    ("member", jsonStringSize bundle.member)]
    ++ (match bundle.rewardAddress with
      | some address => [("rewardAddress", jsonStringSize address)]
      | none => [])
    ++ [("burns", jsonArraySize (bundle.burns.map Transaction.jsonSize))]
    ++ (if bundle.burnsV2 = [] then []
      else [("burnsV2", jsonArraySize (bundle.burnsV2.map jsonStringSize))])
    ++ [("signature", jsonStringSize bundle.signature)])

end Json

end Iuna
