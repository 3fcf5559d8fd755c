import Iuna.Adapters.Compact

/-!
# One spelling for every block

The reader of the compact codec takes more spellings of a block than the writer produces.  The
readers of this module accept only one of them.  Each follows the reader of the same name and adds
a check at every point where the format leaves a choice:

* an integer is not padded with empty groups and fits its 64 bits;
* a reference names the first position of its value;
* a VDF output is packed whenever it can be;
* a transfer or burn names an input, and the change of a burn takes the shortest form;
* a burn of the bundle section is referred to by its first position in the block.
-/

namespace Iuna

namespace Strict

open CompactReader (check fail u8 take fixedHex newAddress)

/-- `varint` without empty groups at the end and without bits above the sixty-fourth. -/
def varintLoop : ℕ → ℕ → ℕ → CompactReader ℕ
  | 0, _, _ => fail "compact varint is too large"
  | fuel + 1, shift, value => do
    let byte ← u8
    check (bailIf (byte = 0 ∧ shift ≠ 0) "compact varint is padded")
    check (bailIf (1 < byte ∧ shift = 63) "compact varint does not fit 64 bits")
    let value := value ||| (((byte % 128) <<< shift) % 2 ^ 64)
    if byte < 128 then pure value
    else varintLoop fuel (shift + 7) value

def varint : CompactReader ℕ := varintLoop 10 0 0

def boundedUsize (label : String) (max : ℕ) : CompactReader ℕ := do
  let len ← varint
  check (bailIf (max < len) s!"compact {label} {len} exceeds limit {max}")
  pure len

def u32 : CompactReader ℕ := do
  let value ← varint
  check (bailIf (u32Max < value) "compact integer does not fit u32")
  pure value

def string : CompactReader Str := do
  let len ← boundedUsize "string length" maxCompactByteField
  let bytes ← take len
  check (orError "compact string is not valid UTF-8" (CompactReader.fromUtf8 bytes))

def hex : CompactReader Str := do
  let len ← boundedUsize "byte field length" maxCompactByteField
  let bytes ← take len
  pure (hexEncode bytes)

/-- The value at an index that is the first to hold it. -/
def firstAt {α : Type} [BEq α] (values : List α) (index : ℕ) (error : String) : Result α := do
  let value ← orError error values[index]?
  bailIf (values.idxOf? value ≠ some index) "compact reference is not the first of its value"
  pure value

def address [Crypto] : CompactReader Str := do
  let tag ← u8
  if tag = 0 then do
    let index ← varint
    let tables ← get
    check (firstAt tables.addresses index "compact address reference is out of bounds")
  else if tag = 1 then do
    let value ← fixedHex 32
    newAddress value
  else if tag = 2 then do
    let value ← string
    let network := if (str "tiuna1").isPrefixOf value then AddressNetwork.testnet else .mainnet
    let _ ← check (withContext "compact versioned address is invalid"
      (decodeVersionedAddress value network))
    newAddress value
  else fail s!"invalid compact address tag {tag}"

def protocolIdRef : CompactReader Str := do
  let tag ← u8
  if tag = 0 then do
    let index ← varint
    let tables ← get
    check (firstAt tables.protocolIds index "compact protocol id reference is out of bounds")
  else if tag = 1 ∨ tag = 2 then do
    let value ← fixedHex (if tag = 1 then 32 else 64)
    let tables ← get
    check (bailIf (value ∈ tables.protocolIds)
      "compact protocol id is encoded twice instead of referenced")
    set (tables.registerProtocolId value)
    pure value
  else fail s!"invalid compact protocol id tag {tag}"

/-- The text form is left to what the packed forms cannot carry. -/
def compactVdfOutput : CompactReader Str := do
  let tag ← u8
  if tag = 0 then do
    let text ← string
    check (bailIf (vdfSolutionPrefix.isPrefixOf text ∨ CompactWriter.isHexText text)
      "compact VDF output is not packed")
    pure text
  else if tag = 1 then do
    let text ← hex
    check (bailIf (text = []) "compact VDF output is packed without content")
    pure text
  else if tag = 2 then do
    let text ← hex
    pure (vdfSolutionPrefix ++ text)
  else fail s!"invalid compact VDF output tag {tag}"

def vec {α : Type} (label : String) (read : CompactReader α) : CompactReader (List α) := do
  let len ← boundedUsize label maxCompactVecItems
  CompactReader.times read len

def decodeOutpoints : CompactReader (List OutPoint) :=
  vec "transaction input count" do
    let txid ← protocolIdRef
    let index ← u32
    pure { txid := txid, index := index }

/-- The inputs of a transaction that is stored with its owner. -/
def someOutpoints (outpoints : List OutPoint) : Result Unit :=
  bailIf (outpoints = []) "stored transaction has no inputs"

section Decoding

variable [Crypto]

def decodeCompactOutputs : CompactReader (List TxOutput) :=
  vec "transaction output count" do
    let address ← address
    let amount ← varint
    pure { address := address, amount := amount }

def decodeCompactTransaction : CompactReader Transaction := do
  let tag ← u8
  if tag = 0 then do
    let outpoints ← decodeOutpoints
    let owner ← address
    let outputs ← decodeCompactOutputs
    let fee ← varint
    let signature ← fixedHex 64
    check (someOutpoints outpoints)
    pure (.transfer (signedInputs outpoints owner signature) outputs fee signature)
  else if tag = 1 then do
    let mode ← u8
    check (bailIf (16 ≤ mode ∨ mode % 4 = 3) s!"invalid compact burn mode {mode}")
    let genesis := mode / 4 % 2 = 1
    let anchored := mode / 8 % 2 = 1
    let outpoints ← decodeOutpoints
    let owner ← address
    let change ←
      if mode % 4 = 0 then pure []
      else if mode % 4 = 1 then do
        let amount ← varint
        pure [{ address := owner, amount := amount }]
      else decodeCompactOutputs
    let amount ← varint
    let fee ← varint
    let anchor ←
      if anchored then do
        let anchor ← protocolIdRef
        pure (some anchor)
      else pure none
    let signature ← fixedHex (if genesis then 32 else 64)
    let inputSignature := if genesis then str "genesis" else signature
    check (do
      someOutpoints outpoints
      bailIf (changeMode change owner ≠ mode % 4) "compact burn change is not in its shortest form")
    pure (.burn (signedInputs outpoints owner inputSignature) change amount fee anchor signature)
  else if tag = 2 then do
    let recipient ← address
    let anchor ← protocolIdRef
    let salt ← varint
    let nonce ← varint
    let difficultyBits ← u32
    let proofHeader ← CompactReader.optional (fixedHex 80)
    let signature ← fixedHex 32
    pure (.mine recipient anchor salt nonce difficultyBits proofHeader signature)
  else fail s!"invalid transaction tag {tag}"

def decodeBlockTransaction : CompactReader Transaction := do
  let transaction ← decodeCompactTransaction
  modify fun tables => tables.registerProtocolId transaction.signature
  pure transaction

def decodeBundleSignature (version : ℕ) : CompactReader BurnBundleSignature := do
  let slot ← varint
  check (bailIf (255 < slot) "burn bundle slot does not fit u8")
  let member ← address
  let rewardAddress ←
    if hybridRewardCompactSnapshotVersion ≤ version then CompactReader.optional address
    else pure none
  let signature ← fixedHex 64
  pure { slot := slot, member := member, rewardAddress := rewardAddress, signature := signature }

omit [Crypto] in
def decodeMaskedBurn (transactions : List Transaction) : CompactReader MaskedBurn := do
  let index ← boundedUsize "burn bundle transaction index" (transactions.length - 1)
  let burn ← check
    (firstAt transactions index "burn bundle transaction index is out of bounds")
  check (bailIf (burn.isBurn = false)
    "burn bundle transaction index does not reference a burn")
  let bundleMask ← u8
  pure { burn := burn, bundleMask := bundleMask }

omit [Crypto] in
def decodeMaskedBurnV2 (envelopes : List Str) : CompactReader MaskedBurnV2 := do
  let index ← boundedUsize "transaction v2 burn bundle index" (envelopes.length - 1)
  let envelope ← check
    (firstAt envelopes index "transaction v2 burn bundle index is out of bounds")
  let bundleMask ← u8
  pure { envelope := envelope, bundleMask := bundleMask }

def decodeBurnBundleSection (transactions : List Transaction) (transactionsV2 : List Str)
    (version : ℕ) : CompactReader BurnBundleSection := do
  let signatures ← vec "burn bundle signature count" (decodeBundleSignature version)
  let burns ← vec "burn bundle burn count" (decodeMaskedBurn transactions)
  let burnsV2 ←
    if hybridRewardCompactSnapshotVersion ≤ version then
      vec "transaction v2 burn bundle count" (decodeMaskedBurnV2 transactionsV2)
    else pure []
  pure { signatures := signatures, burns := burns, burnsV2 := burnsV2 }

def decodeLeaderProof : CompactReader (Option LeaderProof) :=
  CompactReader.optional do
    let ticketId ← protocolIdRef
    let publicKey ← address
    let signature ← fixedHex 64
    pure { ticketId := ticketId, publicKey := publicKey, signature := signature }

def decodeBlockBody (height : ℕ) (prevHash : Str) (version : ℕ) : CompactReader Block := do
  let timestampMs ← varint
  let miner ← address
  let rewardAddress ←
    if hybridRewardCompactSnapshotVersion ≤ version then CompactReader.optional address
    else pure none
  let rewardAddressSignature ←
    if hybridRewardCompactSnapshotVersion ≤ version then CompactReader.optional (fixedHex 64)
    else pure none
  let mode ← u8
  let finalizerMode ←
    if mode = 0 then pure FinalizerMode.ticket
    else if mode = 1 then pure FinalizerMode.recovery
    else fail s!"invalid finalizer mode tag {mode}"
  let finalizerRank ← u32
  let reward ← varint
  let vdfRounds ← varint
  let vdfOutput ← compactVdfOutput
  let leaderProof ← decodeLeaderProof
  let transactions ← vec "block transaction count" decodeBlockTransaction
  let transactionsV2 ←
    if transactionV2CompactSnapshotVersion ≤ version then
      vec "block transaction v2 count" hex
    else pure []
  let burnBundleSection ← decodeBurnBundleSection transactions transactionsV2 version
  let block : Block :=
    { height := height
      prevHash := prevHash
      timestampMs := timestampMs
      miner := miner
      rewardAddress := rewardAddress
      rewardAddressSignature := rewardAddressSignature
      finalizerMode := finalizerMode
      finalizerRank := finalizerRank
      reward := reward
      vdfRounds := vdfRounds
      vdfOutput := vdfOutput
      leaderProof := leaderProof
      burnBundleSection := burnBundleSection
      transactions := transactions
      transactionsV2 := transactionsV2
      hash := [] }
  pure { block with hash := block.computeHash }

/-- The loop of `decode_compact_snapshot` and `decode_compact_segment` over the blocks. -/
def decodeSnapshotBlocks (version : ℕ) : ℕ → ℕ → Str → CompactReader (List Block)
  | 0, _, _ => pure []
  | count + 1, height, prevHash => do
    let block ← decodeBlockBody height prevHash version
    modify fun tables => tables.registerProtocolId block.hash
    let blocks ← decodeSnapshotBlocks version count (height + 1) block.hash
    pure (block :: blocks)

end Decoding

end Strict

end Iuna
