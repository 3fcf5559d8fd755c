import Iuna.Domain.Block

/-!
# The compact chain codec

`compact.rs` stores a chain as bytes and is also the ruler of the consensus size limit: the size
of a block is the length of its compact body.  Hexadecimal texts are packed into bytes; an address
or a protocol id is written once and referred to by its position in a table from then on; the
owner of the inputs, the change of a burn and the previous hash of a block are implied by what
was written before.

Both sides keep the same two tables, a list of the distinct values in the order of their first
appearance (`EncodeTables`); the source keeps the inverse map, from a value to its position, on
the encoding side and both on the decoding side.  A writer returns the bytes it appends and the
tables it leaves behind; a reader consumes bytes under the tables.
-/

namespace Iuna

open Wire (Reader ofBigEndian)

def compactSnapshotVersion : ℕ := 9

def transactionV2CompactSnapshotVersion : ℕ := 8

def hybridRewardCompactSnapshotVersion : ℕ := 9

def maxCompactVecItems : ℕ := 10000

def maxCompactByteField : ℕ := 8 * 1024 * 1024

/-- `ChainSnapshot`. -/
structure ChainSnapshot where
  genesisAllocations : BTreeMap Str Amount
  vdfRounds : ℕ
  launchProfile : LaunchProfile
  blocks : List Block

/-- `EncodeTables` and `DecodeTables`: the registered values, in the order of their indices. -/
structure EncodeTables where
  addresses : List Str
  protocolIds : List Str
  deriving DecidableEq

/-- A value registered once keeps its index. -/
def register (table : List Str) (value : Str) : List Str :=
  if value ∈ table then table else table ++ [value]

namespace EncodeTables

def empty : EncodeTables := { addresses := [], protocolIds := [] }

def registerAddress (tables : EncodeTables) (value : Str) : EncodeTables :=
  { tables with addresses := register tables.addresses value }

def registerProtocolId (tables : EncodeTables) (value : Str) : EncodeTables :=
  { tables with protocolIds := register tables.protocolIds value }

end EncodeTables

/-! ## Writing -/

/-- A writer of the compact codec: the bytes appended, and the tables afterwards. -/
abbrev CompactWriter := StateT EncodeTables Result Bytes

namespace CompactWriter

/-- `varint` of a `u64`: at most ten groups. -/
def varint (value : ℕ) : Bytes := Wire.varint 9 value

def bool (value : Bool) : Bytes := [if value then 1 else 0]

def string (value : Str) : Bytes := varint (byteLen value) ++ utf8 value

/-- `CompactWriter::hex`. -/
def hex (value : Str) : Result Bytes := do
  let bytes ← decodeHex value
  pure (varint bytes.length ++ bytes)

/-- `CompactWriter::fixed_hex::<N>`. -/
def fixedHex (n : ℕ) (value : Str) (label : String) : Result Bytes := do
  let bytes ← withContext s!"invalid {label}" (decodeHex value)
  bailIf (bytes.length ≠ n) s!"invalid {label}: expected {n} bytes, got {bytes.length}"
  pure bytes

/-- `CompactWriter::address`. -/
def address (value : Str) : CompactWriter := fun tables =>
  match tables.addresses.idxOf? value with
  | some index => pure (0 :: varint index, tables)
  | none => do
    let bytes ← match decodeHex value with
      | .ok _ => do
        let bytes ← fixedHex 32 value "address"
        pure (1 :: bytes)
      | .error _ => pure (2 :: string value)
    pure (bytes, tables.registerAddress value)

/-- `CompactWriter::protocol_id_ref`. -/
def protocolIdRef (value : Str) : CompactWriter := fun tables =>
  match tables.protocolIds.idxOf? value with
  | some index => pure (0 :: varint index, tables)
  | none => do
    let bytes ← withContext "invalid protocol id" (decodeHex value)
    bailIf (bytes.length ≠ 32 ∧ bytes.length ≠ 64)
      s!"invalid protocol id: expected 32 or 64 bytes, got {bytes.length}"
    let tag : UInt8 := if bytes.length = 32 then 1 else 2
    pure (tag :: bytes, tables.registerProtocolId value)

/-- `u8::is_ascii_hexdigit` for every byte of a nonempty text of even length. -/
def isHexText (value : Str) : Bool :=
  byteLen value % 2 = 0 ∧ value ≠ [] ∧ (utf8 value).all fun byte => Outcome.succeeds (hexValue byte)

/-- `CompactWriter::compact_vdf_output`. -/
def compactVdfOutput (value : Str) : Result Bytes :=
  if vdfSolutionPrefix.isPrefixOf value then do
    let bytes ← hex (value.drop vdfSolutionPrefix.length)
    pure (2 :: bytes)
  else if isHexText value then do
    let bytes ← hex value
    pure (1 :: bytes)
  else pure (0 :: string value)

/-- Write a list of values one after another. -/
def each {α : Type} (write : α → CompactWriter) : List α → CompactWriter
  | [] => pure []
  | value :: values => do
    let first ← write value
    let rest ← each write values
    pure (first ++ rest)

/-- An optional value behind a flag. -/
def optional {α : Type} (write : α → CompactWriter) : Option α → CompactWriter
  | none => pure (bool false)
  | some value => do
    let bytes ← write value
    pure (bool true ++ bytes)

end CompactWriter

open CompactWriter

/-- `encode_outpoints`. -/
def encodeOutpoints (inputs : List TxInput) : CompactWriter := do
  let bytes ← each (fun input : TxInput => do
    let txid ← protocolIdRef input.outpoint.txid
    pure (txid ++ varint input.outpoint.index)) inputs
  pure (varint inputs.length ++ bytes)

/-- `encode_outputs` of the compact codec. -/
def encodeCompactOutputs (outputs : List TxOutput) : CompactWriter := do
  let bytes ← each (fun output : TxOutput => do
    let owner ← address output.address
    pure (owner ++ varint output.amount)) outputs
  pure (varint outputs.length ++ bytes)

/-- `common_input_owner`. -/
def commonInputOwner (inputs : List TxInput) : Result Str := do
  let first ← orError "stored transaction has no inputs" inputs.head?
  bailIf (inputs.any fun input => input.owner ≠ first.owner)
    "stored transaction inputs have different owners"
  pure first.owner

/-- `ensure_input_signatures`. -/
def ensureInputSignatures (inputs : List TxInput) (signature : Str) : Result Unit :=
  bailIf (inputs.any fun input => input.signature ≠ signature)
    "stored transaction input signature differs from transaction signature"

/-- The change of a burn: absent, one output back to the owner, or written out. -/
def changeMode (change : List TxOutput) (owner : Str) : ℕ :=
  match change with
  | [] => 0
  | [output] => if output.address = owner then 1 else 2
  | _ => 2

/-- `encode_transaction` of the compact codec. -/
def encodeCompactTransaction : Transaction → CompactWriter
  | .transfer inputs outputs fee signature => do
    let owner ← (commonInputOwner inputs : Result Str)
    let outpoints ← encodeOutpoints inputs
    let ownerBytes ← address owner
    let outputBytes ← encodeCompactOutputs outputs
    let signatureBytes ← (fixedHex 64 signature "transfer signature" : Result Bytes)
    (ensureInputSignatures inputs signature : Result Unit)
    pure (0 :: outpoints ++ ownerBytes ++ outputBytes ++ varint fee ++ signatureBytes)
  | .burn inputs change amount fee anchor signature => do
    let owner ← (commonInputOwner inputs : Result Str)
    let genesis := inputs.all fun input => input.signature = str "genesis"
    if genesis = false then
      (ensureInputSignatures inputs signature : Result Unit)
    let mode := changeMode change owner
    let modeByte := mode + (if genesis then 4 else 0) + (if anchor.isSome then 8 else 0)
    let outpoints ← encodeOutpoints inputs
    let ownerBytes ← address owner
    let changeBytes ← match mode with
      | 0 => pure []
      | 1 => pure (varint ((change.head?.map TxOutput.amount).getD 0))
      | _ => encodeCompactOutputs change
    let anchorBytes ← match anchor with
      | some anchor => protocolIdRef anchor
      | none => pure []
    let signatureBytes ←
      if genesis then (fixedHex 32 signature "genesis burn signature" : Result Bytes)
      else (fixedHex 64 signature "burn signature" : Result Bytes)
    pure (1 :: UInt8.ofNat modeByte :: outpoints ++ ownerBytes ++ changeBytes ++ varint amount
      ++ varint fee ++ anchorBytes ++ signatureBytes)
  | .mine recipient anchor salt nonce difficultyBits proofHeader signature => do
    let recipientBytes ← address recipient
    let anchorBytes ← protocolIdRef anchor
    let headerBytes ← optional
      (fun header => (fixedHex 80 header "mine proof header" : Result Bytes)) proofHeader
    let signatureBytes ← (fixedHex 32 signature "mine signature" : Result Bytes)
    pure (2 :: recipientBytes ++ anchorBytes ++ varint salt ++ varint nonce
      ++ varint difficultyBits ++ headerBytes ++ signatureBytes)

/-- One transaction of a block body: its id is registered after it. -/
def encodeBlockTransaction (transaction : Transaction) : CompactWriter := do
  let bytes ← encodeCompactTransaction transaction
  modify fun tables => tables.registerProtocolId transaction.signature
  pure bytes

/-- One signature of `encode_burn_bundle_section`. -/
def encodeBundleSignature (version : ℕ) (signature : BurnBundleSignature) : CompactWriter := do
  let member ← address signature.member
  let rewardAddress ←
    if hybridRewardCompactSnapshotVersion ≤ version then
      optional address signature.rewardAddress
    else do
      (bailIf signature.rewardAddress.isSome
        s!"compact snapshot version {version} cannot encode a committee reward address" :
        Result Unit)
      pure []
  let signatureBytes ← (fixedHex 64 signature.signature "burn bundle signature" : Result Bytes)
  pure (varint signature.slot ++ member ++ rewardAddress ++ signatureBytes)

/-- `encode_burn_bundle_section`. -/
def encodeBurnBundleSection (block : Block) (version : ℕ) : CompactWriter := do
  let sect := block.burnBundleSection
  let signatures ← each (encodeBundleSignature version) sect.signatures
  let burns ← each (fun masked : MaskedBurn => do
    let index ← (orError "burn bundle transaction is missing from block transactions"
      (block.transactions.idxOf? masked.burn) : Result ℕ)
    pure (varint index ++ [UInt8.ofNat masked.bundleMask])) sect.burns
  let burnsV2 ←
    if hybridRewardCompactSnapshotVersion ≤ version then do
      let bytes ← each (fun masked : MaskedBurnV2 => do
        let index ← (orError "transaction v2 burn bundle envelope is missing from block"
          (block.transactionsV2.idxOf? masked.envelope) : Result ℕ)
        pure (varint index ++ [UInt8.ofNat masked.bundleMask])) sect.burnsV2
      pure (varint sect.burnsV2.length ++ bytes)
    else do
      (bailIf (sect.burnsV2 ≠ [])
        s!"compact snapshot version {version} cannot encode transaction v2 burn attestations" :
        Result Unit)
      pure []
  pure (varint sect.signatures.length ++ signatures ++ varint sect.burns.length ++ burns
    ++ burnsV2)

/-- The reward address and its signature, which only version 9 can carry. -/
def encodeRewardAddress (block : Block) (version : ℕ) : CompactWriter :=
  if hybridRewardCompactSnapshotVersion ≤ version then do
    let addressBytes ← optional address block.rewardAddress
    let signatureBytes ← optional
      (fun signature => (fixedHex 64 signature "reward address signature" : Result Bytes))
      block.rewardAddressSignature
    pure (addressBytes ++ signatureBytes)
  else do
    (bailIf (block.rewardAddress.isSome ∨ block.rewardAddressSignature.isSome)
      s!"compact snapshot version {version} cannot encode a hybrid reward address" : Result Unit)
    pure []

/-- The leader proof behind its flag. -/
def encodeLeaderProof (proof : Option LeaderProof) : CompactWriter :=
  optional (fun proof : LeaderProof => do
    let ticketId ← protocolIdRef proof.ticketId
    let publicKey ← address proof.publicKey
    let signature ← (fixedHex 64 proof.signature "leader signature" : Result Bytes)
    pure (ticketId ++ publicKey ++ signature)) proof

/-- The v2 envelopes of a block body, which versions from 8 on can carry. -/
def encodeEnvelopes (block : Block) (version : ℕ) : CompactWriter :=
  if transactionV2CompactSnapshotVersion ≤ version then do
    let bytes ← each (fun envelope => (hex envelope : Result Bytes)) block.transactionsV2
    pure (varint block.transactionsV2.length ++ bytes)
  else do
    (bailIf (block.transactionsV2 ≠ [])
      s!"compact snapshot version {version} cannot encode transaction v2 envelopes" : Result Unit)
    pure []

/-- `encode_block_body_with_size_breakdown_for_version`. -/
def encodeBlockBody (version : ℕ) (block : Block) : CompactWriter := do
  let miner ← address block.miner
  let rewardAddress ← encodeRewardAddress block version
  let vdfOutput ← (compactVdfOutput block.vdfOutput : Result Bytes)
  let leaderProof ← encodeLeaderProof block.leaderProof
  let transactions ← each encodeBlockTransaction block.transactions
  let envelopes ← encodeEnvelopes block version
  let burnBundleSection ← encodeBurnBundleSection block version
  let mode : UInt8 := match block.finalizerMode with
    | .ticket => 0
    | .recovery => 1
  pure (varint block.timestampMs ++ miner ++ rewardAddress ++ [mode] ++ varint block.finalizerRank
    ++ varint block.reward ++ varint block.vdfRounds ++ vdfOutput ++ leaderProof
    ++ varint block.transactions.length ++ transactions ++ envelopes ++ burnBundleSection)

/-! ## The ruler of the block size -/

/-- `CompactBlockContext`.  The source also records the measured size of every appended block, for
storage statistics that no consensus rule reads. -/
structure CompactBlockContext where
  tables : EncodeTables
  deriving DecidableEq

namespace CompactBlockContext

def default : CompactBlockContext := { tables := .empty }

/-- The version whose framing measures a block: blocks without hybrid fields or envelopes keep
the framing of their time. -/
def sizeVersion (block : Block) : ℕ :=
  if block.rewardAddress.isSome ∨ block.rewardAddressSignature.isSome
      ∨ block.burnBundleSection.burnsV2 ≠ []
      ∨ block.burnBundleSection.signatures.any fun signature => signature.rewardAddress.isSome then
    hybridRewardCompactSnapshotVersion
  else if block.transactionsV2 = [] then transactionV2CompactSnapshotVersion - 1
  else transactionV2CompactSnapshotVersion

/-- `block_size_bytes`. -/
def blockSizeBytes (context : CompactBlockContext) (block : Block) : Result ℕ := do
  let (bytes, _) ← encodeBlockBody (sizeVersion block) block context.tables
  pure bytes.length

/-- `append_block` (and `append_trusted_block`). -/
def appendBlock (context : CompactBlockContext) (block : Block) : Result CompactBlockContext := do
  let (_, tables) ← encodeBlockBody compactSnapshotVersion block context.tables
  pure { tables := tables.registerProtocolId block.hash }

/-- `for_chain`. -/
def forChain (genesisAllocations : BTreeMap Str Amount) (blocks : List Block) :
    Result CompactBlockContext :=
  blocks.foldlM appendBlock
    { tables := genesisAllocations.keys.foldl EncodeTables.registerAddress .empty }

end CompactBlockContext

/-! ## Snapshots -/

section Snapshot

variable [Crypto]

/-- The loop of `encode_compact_snapshot` over the blocks, with the height and the previous hash
it expects. -/
def encodeSnapshotBlocks : List Block → ℕ → Str → CompactWriter
  | [], _, _ => pure []
  | block :: blocks, height, expectedPrevHash => do
    (bailIf (block.height ≠ height)
      s!"chain snapshot block height {block.height} does not match compact position {height}" :
      Result Unit)
    (bailIf (block.prevHash ≠ expectedPrevHash)
      s!"chain snapshot block {height} has non-canonical previous hash" : Result Unit)
    (bailIf (block.hash ≠ block.computeHash)
      s!"chain snapshot block {height} has a non-canonical hash" : Result Unit)
    let body ← encodeBlockBody compactSnapshotVersion block
    modify fun tables => tables.registerProtocolId block.hash
    let rest ← encodeSnapshotBlocks blocks (height + 1) block.hash
    pure (body ++ rest)

end Snapshot

/-! ## Reading -/

/-- A reader of the compact codec: bytes are consumed under the tables. -/
abbrev CompactReader (α : Type) := StateT EncodeTables (Reader Error) α

namespace CompactReader

/-- `CompactReader::take`. -/
def take (len : ℕ) : CompactReader Bytes :=
  StateT.lift (Reader.take len (.message "unexpected end of compact chain snapshot"))

def fail {α : Type} (text : String) : CompactReader α := StateT.lift (Reader.lift (bail text))

/-- A check or conversion that reads nothing. -/
def check {α : Type} (x : Result α) : CompactReader α := StateT.lift (Reader.lift x)

def u8 : CompactReader ℕ := do
  let bytes ← take 1
  pure (ofBigEndian bytes)

def bool : CompactReader Bool := do
  let tag ← u8
  if tag = 0 then pure false
  else if tag = 1 then pure true
  else fail s!"invalid compact bool tag {tag}"

/-- The loop of `CompactReader::varint`; ten groups reach the shift of 63 bits. -/
def varintLoop : ℕ → ℕ → ℕ → CompactReader ℕ
  | 0, _, _ => fail "compact varint is too large"
  | fuel + 1, shift, value => do
    let byte ← u8
    let value := value ||| (((byte % 128) <<< shift) % 2 ^ 64)
    if byte < 128 then pure value
    else varintLoop fuel (shift + 7) value

def varint : CompactReader ℕ := varintLoop 10 0 0

def boundedUsize (label : String) (max : ℕ) : CompactReader ℕ := do
  let len ← varint
  check (bailIf (max < len) s!"compact {label} {len} exceeds limit {max}")
  pure len

def u32 : CompactReader ℕ := do
  let value ← varint
  check (bailIf (u32Max < value) "compact integer does not fit u32")
  pure value

/-- `String::from_utf8`. -/
def fromUtf8 (bytes : Bytes) : Option Str := bytes.toByteArray.utf8Decode?.map Array.toList

def string : CompactReader Str := do
  let len ← boundedUsize "string length" maxCompactByteField
  let bytes ← take len
  check (orError "compact string is not valid UTF-8" (fromUtf8 bytes))

def hex : CompactReader Str := do
  let len ← boundedUsize "byte field length" maxCompactByteField
  let bytes ← take len
  pure (hexEncode bytes)

def fixedHex (n : ℕ) : CompactReader Str := do
  let bytes ← take n
  pure (hexEncode bytes)

/-- Register a new address; it must not have been written before. -/
def newAddress (value : Str) : CompactReader Str := do
  let tables ← get
  check (bailIf (value ∈ tables.addresses)
    "compact address is encoded twice instead of referenced")
  set (tables.registerAddress value)
  pure value

/-- `CompactReader::address`. -/
def address [Crypto] : CompactReader Str := do
  let tag ← u8
  if tag = 0 then do
    let index ← varint
    let tables ← get
    check (orError "compact address reference is out of bounds" tables.addresses[index]?)
  else if tag = 1 then do
    let value ← fixedHex 32
    newAddress value
  else if tag = 2 then do
    let value ← string
    let network := if (str "tiuna1").isPrefixOf value then AddressNetwork.testnet else .mainnet
    let _ ← check (withContext "compact versioned address is invalid"
      (decodeVersionedAddress value network))
    newAddress value
  else fail s!"invalid compact address tag {tag}"

/-- `CompactReader::protocol_id_ref`. -/
def protocolIdRef : CompactReader Str := do
  let tag ← u8
  if tag = 0 then do
    let index ← varint
    let tables ← get
    check (orError "compact protocol id reference is out of bounds" tables.protocolIds[index]?)
  else if tag = 1 ∨ tag = 2 then do
    let value ← fixedHex (if tag = 1 then 32 else 64)
    let tables ← get
    check (bailIf (value ∈ tables.protocolIds)
      "compact protocol id is encoded twice instead of referenced")
    set (tables.registerProtocolId value)
    pure value
  else fail s!"invalid compact protocol id tag {tag}"

/-- `CompactReader::compact_vdf_output`. -/
def compactVdfOutput : CompactReader Str := do
  let tag ← u8
  if tag = 0 then string
  else if tag = 1 then hex
  else if tag = 2 then do
    let text ← hex
    pure (vdfSolutionPrefix ++ text)
  else fail s!"invalid compact VDF output tag {tag}"

/-- Read a list of known length. -/
def times {α : Type} (read : CompactReader α) : ℕ → CompactReader (List α)
  | 0 => pure []
  | n + 1 => do
    let value ← read
    let values ← times read n
    pure (value :: values)

/-- `decode_vec`. -/
def vec {α : Type} (label : String) (read : CompactReader α) : CompactReader (List α) := do
  let len ← boundedUsize label maxCompactVecItems
  times read len

/-- An optional value behind a flag. -/
def optional {α : Type} (read : CompactReader α) : CompactReader (Option α) := do
  let present ← bool
  if present then do
    let value ← read
    pure (some value)
  else pure none

end CompactReader

open CompactReader in
/-- `decode_outpoints`. -/
def decodeOutpoints : CompactReader (List OutPoint) :=
  CompactReader.vec "transaction input count" do
    let txid ← CompactReader.protocolIdRef
    let index ← CompactReader.u32
    pure { txid := txid, index := index }

/-- `signed_inputs`. -/
def signedInputs (outpoints : List OutPoint) (owner signature : Str) : List TxInput :=
  outpoints.map fun outpoint => { outpoint := outpoint, owner := owner, signature := signature }

section Decoding

variable [Crypto]

/-- `decode_outputs` of the compact codec. -/
def decodeCompactOutputs : CompactReader (List TxOutput) :=
  CompactReader.vec "transaction output count" do
    let address ← CompactReader.address
    let amount ← CompactReader.varint
    pure { address := address, amount := amount }

/-- `decode_transaction` of the compact codec. -/
def decodeCompactTransaction : CompactReader Transaction := do
  let tag ← CompactReader.u8
  if tag = 0 then do
    let outpoints ← decodeOutpoints
    let owner ← CompactReader.address
    let outputs ← decodeCompactOutputs
    let fee ← CompactReader.varint
    let signature ← CompactReader.fixedHex 64
    pure (.transfer (signedInputs outpoints owner signature) outputs fee signature)
  else if tag = 1 then do
    let mode ← CompactReader.u8
    CompactReader.check (bailIf (16 ≤ mode ∨ mode % 4 = 3) s!"invalid compact burn mode {mode}")
    let genesis := mode / 4 % 2 = 1
    let anchored := mode / 8 % 2 = 1
    let outpoints ← decodeOutpoints
    let owner ← CompactReader.address
    let change ←
      if mode % 4 = 0 then pure []
      else if mode % 4 = 1 then do
        let amount ← CompactReader.varint
        pure [{ address := owner, amount := amount }]
      else decodeCompactOutputs
    let amount ← CompactReader.varint
    let fee ← CompactReader.varint
    let anchor ←
      if anchored then do
        let anchor ← CompactReader.protocolIdRef
        pure (some anchor)
      else pure none
    let signature ← CompactReader.fixedHex (if genesis then 32 else 64)
    let inputSignature := if genesis then str "genesis" else signature
    pure (.burn (signedInputs outpoints owner inputSignature) change amount fee anchor signature)
  else if tag = 2 then do
    let recipient ← CompactReader.address
    let anchor ← CompactReader.protocolIdRef
    let salt ← CompactReader.varint
    let nonce ← CompactReader.varint
    let difficultyBits ← CompactReader.u32
    let proofHeader ← CompactReader.optional (CompactReader.fixedHex 80)
    let signature ← CompactReader.fixedHex 32
    pure (.mine recipient anchor salt nonce difficultyBits proofHeader signature)
  else CompactReader.fail s!"invalid transaction tag {tag}"

/-- One transaction of a block body: its id is registered after it. -/
def decodeBlockTransaction : CompactReader Transaction := do
  let transaction ← decodeCompactTransaction
  modify fun tables => tables.registerProtocolId transaction.signature
  pure transaction

/-- One signature of `decode_burn_bundle_section`. -/
def decodeBundleSignature (version : ℕ) : CompactReader BurnBundleSignature := do
  let slot ← CompactReader.varint
  CompactReader.check (bailIf (255 < slot) "burn bundle slot does not fit u8")
  let member ← CompactReader.address
  let rewardAddress ←
    if hybridRewardCompactSnapshotVersion ≤ version then
      CompactReader.optional CompactReader.address
    else pure none
  let signature ← CompactReader.fixedHex 64
  pure { slot := slot, member := member, rewardAddress := rewardAddress, signature := signature }

omit [Crypto] in
/-- One burn of `decode_burn_bundle_section`: a reference into the block. -/
def decodeMaskedBurn (transactions : List Transaction) : CompactReader MaskedBurn := do
  let index ← CompactReader.boundedUsize "burn bundle transaction index" (transactions.length - 1)
  let burn ← CompactReader.check
    (orError "burn bundle transaction index is out of bounds" transactions[index]?)
  CompactReader.check (bailIf (burn.isBurn = false)
    "burn bundle transaction index does not reference a burn")
  let bundleMask ← CompactReader.u8
  pure { burn := burn, bundleMask := bundleMask }

omit [Crypto] in
/-- One v2 burn of `decode_burn_bundle_section`. -/
def decodeMaskedBurnV2 (envelopes : List Str) : CompactReader MaskedBurnV2 := do
  let index ← CompactReader.boundedUsize "transaction v2 burn bundle index" (envelopes.length - 1)
  let envelope ← CompactReader.check
    (orError "transaction v2 burn bundle index is out of bounds" envelopes[index]?)
  let bundleMask ← CompactReader.u8
  pure { envelope := envelope, bundleMask := bundleMask }

/-- `decode_burn_bundle_section`. -/
def decodeBurnBundleSection (transactions : List Transaction) (transactionsV2 : List Str)
    (version : ℕ) : CompactReader BurnBundleSection := do
  let signatures ← CompactReader.vec "burn bundle signature count" (decodeBundleSignature version)
  let burns ← CompactReader.vec "burn bundle burn count" (decodeMaskedBurn transactions)
  let burnsV2 ←
    if hybridRewardCompactSnapshotVersion ≤ version then
      CompactReader.vec "transaction v2 burn bundle count" (decodeMaskedBurnV2 transactionsV2)
    else pure []
  pure { signatures := signatures, burns := burns, burnsV2 := burnsV2 }

/-- The leader proof behind its flag. -/
def decodeLeaderProof : CompactReader (Option LeaderProof) :=
  CompactReader.optional do
    let ticketId ← CompactReader.protocolIdRef
    let publicKey ← CompactReader.address
    let signature ← CompactReader.fixedHex 64
    pure { ticketId := ticketId, publicKey := publicKey, signature := signature }

/-- `decode_block_body_for_version`: the hash is recomputed. -/
def decodeBlockBody (height : ℕ) (prevHash : Str) (version : ℕ) : CompactReader Block := do
  let timestampMs ← CompactReader.varint
  let miner ← CompactReader.address
  let rewardAddress ←
    if hybridRewardCompactSnapshotVersion ≤ version then
      CompactReader.optional CompactReader.address
    else pure none
  let rewardAddressSignature ←
    if hybridRewardCompactSnapshotVersion ≤ version then
      CompactReader.optional (CompactReader.fixedHex 64)
    else pure none
  let mode ← CompactReader.u8
  let finalizerMode ←
    if mode = 0 then pure FinalizerMode.ticket
    else if mode = 1 then pure FinalizerMode.recovery
    else CompactReader.fail s!"invalid finalizer mode tag {mode}"
  let finalizerRank ← CompactReader.u32
  let reward ← CompactReader.varint
  let vdfRounds ← CompactReader.varint
  let vdfOutput ← CompactReader.compactVdfOutput
  let leaderProof ← decodeLeaderProof
  let transactions ← CompactReader.vec "block transaction count" decodeBlockTransaction
  let transactionsV2 ←
    if transactionV2CompactSnapshotVersion ≤ version then
      CompactReader.vec "block transaction v2 count" CompactReader.hex
    else pure []
  let burnBundleSection ← decodeBurnBundleSection transactions transactionsV2 version
  let block : Block :=
    { height := height
      prevHash := prevHash
      timestampMs := timestampMs
      miner := miner
      rewardAddress := rewardAddress
      rewardAddressSignature := rewardAddressSignature
      finalizerMode := finalizerMode
      finalizerRank := finalizerRank
      reward := reward
      vdfRounds := vdfRounds
      vdfOutput := vdfOutput
      leaderProof := leaderProof
      burnBundleSection := burnBundleSection
      transactions := transactions
      transactionsV2 := transactionsV2
      hash := [] }
  pure { block with hash := block.computeHash }

/-- The loop of `decode_compact_snapshot` over the blocks. -/
def decodeSnapshotBlocks (version : ℕ) : ℕ → ℕ → Str → CompactReader (List Block)
  | 0, _, _ => pure []
  | count + 1, height, prevHash => do
    let block ← decodeBlockBody height prevHash version
    modify fun tables => tables.registerProtocolId block.hash
    let blocks ← decodeSnapshotBlocks version count (height + 1) block.hash
    pure (block :: blocks)

end Decoding

end Iuna
