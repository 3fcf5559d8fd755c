import Iuna.Domain.TransactionV2

/-!
# The browser wallet

`crypto-wasm`, the crate that derives addresses and builds transactions v2 in a browser.  It does
not link the node: the Bech32m arithmetic, the hexadecimal decoder and the byte format of the
transactions are written a second time, and so they are here, in a namespace of their own.  The
requests are the records that the JSON text is parsed into, with the widths of their integers.
-/

namespace Iuna.BrowserWallet

def hybridPublicKeyBytes : ℕ := 1344

def hybridSignatureBytes : ℕ := 2484

def maxBlockBytes : ℕ := 1000000

/-! ## Records -/

/-- `Address`: the version is a byte of its own. -/
structure Address where
  version : UInt8
  payload : FixedBytes 32
  deriving DecidableEq

/-- `HybridAddressBranch`. -/
inductive HybridAddressBranch
  | external
  | reward
  deriving DecidableEq

/-- `HybridAddressBranch::domain_label`. -/
def HybridAddressBranch.domainLabel : HybridAddressBranch → Str
  | .external => str "external"
  | .reward => str "reward"

/-- `Outpoint`. -/
structure Outpoint where
  txid : Str
  index : UInt32
  deriving DecidableEq

/-- `HybridUtxo`, with the amount of its output. -/
structure HybridUtxo where
  addressIndex : UInt32
  addressBranch : HybridAddressBranch
  outpoint : Outpoint
  amount : UInt64
  deriving DecidableEq

/-- `LegacyUtxo`, with the amount of its output. -/
structure LegacyUtxo where
  outpoint : Outpoint
  amount : UInt64
  deriving DecidableEq

/-- `TransferRequest`. -/
structure TransferRequest where
  seed : Str
  chainId : Str
  genesisHash : Str
  recipientAddress : Str
  amount : Str
  feeRate : Str
  changeIndex : UInt32
  signingHeight : ℕ
  authorizationAggregationActivationHeight : ℕ
  utxos : List HybridUtxo

/-- `MigrationRequest`. -/
structure MigrationRequest where
  seed : Str
  chainId : Str
  genesisHash : Str
  destinationIndex : UInt32
  feeRate : Str
  signingHeight : ℕ
  authorizationAggregationActivationHeight : ℕ
  utxos : List LegacyUtxo

/-- `BuiltTransaction`. -/
structure BuiltTransaction where
  envelope : Str
  transactionId : Str
  fee : Str
  inputCount : ℕ
  deriving DecidableEq

/-! ## Text -/

/-- `u8::is_ascii_hexdigit`. -/
def isAsciiHexdigit (byte : UInt8) : Bool :=
  let code := byte.toNat
  (0x30 ≤ code ∧ code ≤ 0x39) ∨ (0x61 ≤ code ∧ code ≤ 0x66) ∨ (0x41 ≤ code ∧ code ≤ 0x46)

/-- `decode_hex`. -/
def decodeHex (value : Str) (label : String) : Result Bytes := do
  bailIf (byteLen value % 2 ≠ 0 ∨ ¬ (utf8 value).all isAsciiHexdigit) s!"{label} is not hexadecimal"
  decodeHexPairs (utf8 value)

/-- `decode_array::<N>`. -/
def decodeArray (n : ℕ) (value : Str) (label : String) : Result (FixedBytes n) := do
  let bytes ← decodeHex value label
  fixed n bytes s!"{label} must contain {n} bytes"

/-- The digits of `u64::from_str`, from the left. -/
def parseDigits : Str → ℕ → Option ℕ
  | [], value => some value
  | c :: rest, value =>
    if c.isDigit then
      let value := 10 * value + (c.toNat - 0x30)
      if value ≤ u64Max then parseDigits rest value else none
    else none

/-- `parse_u64`: `u64::from_str` allows a leading plus sign. -/
def parseU64 (value : Str) (label : String) : Result ℕ :=
  let digits := if value.head? = some '+' then value.tail else value
  orError s!"{label} is invalid" (if digits = [] then none else parseDigits digits 0)

/-- `parse_positive_u64`. -/
def parsePositiveU64 (value : Str) (label : String) : Result ℕ := do
  let value ← parseU64 value label
  bailIf (value = 0) s!"{label} must be greater than zero"
  pure value

/-! ## Addresses -/

/-- The human-readable part that `encode_address` and `decode_address` choose for a network. -/
def hrpOf (networkId : Str) : Str :=
  if str "testnet" <:+: networkId ∨ str "e2e" <:+: networkId then str "tiuna" else str "iuna"

/-- `hrp_expand`. -/
def hrpExpand (hrp : Str) : List ℕ :=
  (utf8 hrp).map (fun byte => byte.toNat >>> 5) ++ [0]
    ++ (utf8 hrp).map fun byte => byte.toNat &&& 31

/-- The generators of the checksum, paired with their bit of the top value. -/
def generators : List (ℕ × ℕ) :=
  [(0, 0x3b6a57b2), (1, 0x26508e6d), (2, 0x1ea119fa), (3, 0x3d4233dd), (4, 0x2a1462b3)]

/-- `polymod`. -/
def polymod (values : List ℕ) : ℕ :=
  values.foldl (fun checksum value =>
    let top := checksum >>> 25
    generators.foldl (fun checksum entry =>
        if (top >>> entry.1) &&& 1 = 1 then checksum ^^^ entry.2 else checksum)
      (((checksum &&& 0x1ffffff) <<< 5) ^^^ value)) 1

def bech32m : ℕ := 0x2bc830a3

def charset : Str := str "qpzry9x8gf2tvdw0s3jn54khce6mua7l"

/-- The inner loop of `convert_bits`: the groups of `target` bits that the accumulator holds, and
the number of bits left over. -/
def takeGroups (target accumulator : ℕ) : ℕ → ℕ → List ℕ × ℕ
  | 0, bits => ([], bits)
  | fuel + 1, bits =>
    if target ≤ bits then
      let (rest, left) := takeGroups target accumulator fuel (bits - target)
      (((accumulator >>> (bits - target)) &&& (2 ^ target - 1)) :: rest, left)
    else ([], bits)

/-- The outer loop of `convert_bits`, with its accumulator and number of bits. -/
def convertBitsLoop (source target : ℕ) : List ℕ → ℕ → ℕ → Result (List ℕ × ℕ × ℕ)
  | [], accumulator, bits => .ok ([], accumulator, bits)
  | value :: values, accumulator, bits => do
    bailIf (value >>> source ≠ 0) "invalid address data"
    let accumulator := ((accumulator <<< source) ||| value) &&& (2 ^ (source + target - 1) - 1)
    let (groups, left) := takeGroups target accumulator (bits + source + 1) (bits + source)
    let (rest, accumulator, bits) ← convertBitsLoop source target values accumulator left
    pure (groups ++ rest, accumulator, bits)

/-- `convert_bits`. -/
def convertBits (data : List ℕ) (source target : ℕ) (pad : Bool) : Result (List ℕ) := do
  let (result, accumulator, bits) ← convertBitsLoop source target data 0 0
  let padding := (accumulator <<< (target - bits)) &&& (2 ^ target - 1)
  if pad ∧ 0 < bits then pure (result ++ [padding])
  else if ¬ pad ∧ (source ≤ bits ∨ padding ≠ 0) then bail "invalid address padding"
  else pure result

/-- `encode_address`.  An error stands for the failed `expect` on the payload. -/
def encodeAddress (address : Address) (networkId : Str) : Result Str := do
  let hrp := hrpOf networkId
  let payload ← withContext "fixed payload converts"
    (convertBits (address.payload.val.map UInt8.toNat) 8 5 true)
  let data := address.version.toNat :: payload
  let values := hrpExpand hrp ++ data ++ [0, 0, 0, 0, 0, 0]
  let checksum := polymod values ^^^ bech32m
  let encoded := data ++ (List.range 6).map fun index => (checksum >>> (5 * (5 - index))) &&& 31
  pure (hrp ++ '1' :: encoded.map fun value => charset.getD value 'q')

/-- `decode_address`. -/
def decodeAddress (value networkId : Str) : Result Address := do
  let value := trim value
  bailIf (value = [] ∨ 90 < byteLen value ∨ ¬ value.all fun c => c.toNat < 128)
    "address length or encoding is invalid"
  bailIf (value.any Char.isLower ∧ value.any Char.isUpper)
    "address must not mix uppercase and lowercase characters"
  let expected := hrpOf networkId
  let normalized := value.map Char.toLower
  let separator ← orError "address is missing its separator" (lastIndexOf '1' normalized)
  bailIf (normalized.take separator ≠ expected) "address belongs to another network"
  let data ← (normalized.drop (separator + 1)).mapM fun c =>
    orError "address contains an invalid character" (charset.findIdx? (· = c))
  bailIf (polymod (hrpExpand expected ++ data) ≠ bech32m ∨ data.length < 7)
    "address checksum is invalid"
  match data.take (data.length - 6) with
  | [] => bail "address payload is empty"
  | version :: encoded => do
    bailIf (1 < version) "unsupported address version"
    let bytes ← convertBits encoded 5 8 false
    let payload ← fixed 32 (bytes.map UInt8.ofNat) "address payload must contain 32 bytes"
    pure { version := UInt8.ofNat version, payload := payload }

/-! ## Keys -/

/-- The signing sides of the external packages: the key of a seed and the signature of a payload. -/
class SigningKeys where
  /-- `SigningKey::from_bytes(seed).verifying_key()`. -/
  ed25519Public : FixedBytes 32 → FixedBytes 32
  /-- `SigningKey::from_bytes(seed).sign(payload)`. -/
  ed25519Sign : FixedBytes 32 → Bytes → FixedBytes 64
  /-- `MlDsaSigningKey::from_seed(seed).verifying_key()`. -/
  mlDsa44Public : FixedBytes 32 → FixedBytes 1312
  /-- `sign_deterministic` with the empty context. -/
  mlDsa44Sign : FixedBytes 32 → Bytes → Option (FixedBytes 2420)

variable [Crypto] [SigningKeys]

/-- The signatures of the signing side are the ones that the verifiers accept. -/
structure SigningKeys.Correct : Prop where
  ed25519_valid : ∀ seed, Crypto.ed25519KeyValid (SigningKeys.ed25519Public seed) = true
  ed25519_verifies : ∀ seed payload, Crypto.ed25519Verify (SigningKeys.ed25519Public seed) payload
    (SigningKeys.ed25519Sign seed payload) = true
  mlDsa44_valid : ∀ seed payload signature,
    SigningKeys.mlDsa44Sign seed payload = some signature →
      Crypto.mlDsa44SignatureValid signature = true
  mlDsa44_verifies : ∀ seed payload signature,
    SigningKeys.mlDsa44Sign seed payload = some signature →
      Crypto.mlDsa44Verify (SigningKeys.mlDsa44Public seed) payload signature = true

omit [SigningKeys] in
/-- `derive_seed`. -/
def deriveSeed (domain seed : Str) : FixedBytes 32 :=
  Crypto.sha256 (utf8 domain ++ utf8 (str ":") ++ utf8 seed)

omit [SigningKeys] in
/-- `derive_child_seed`. -/
def deriveChildSeed (parent : FixedBytes 32) (branch : HybridAddressBranch) (index : UInt32) :
    FixedBytes 32 :=
  Crypto.sha256 (utf8 (str "iuna-wallet-ml-dsa44-child-seed-v1") ++ utf8 (str ":")
    ++ utf8 branch.domainLabel ++ utf8 (str ":") ++ Wire.bigEndian 4 index.toNat ++ utf8 (str ":")
    ++ parent.val)

/-- The Ed25519 seed of a wallet. -/
def edSeed (seed : Str) : FixedBytes 32 := deriveSeed (str "iuna-wallet-seed") seed

/-- The ML-DSA seed of one address of a wallet. -/
def mlSeed (seed : Str) (branch : HybridAddressBranch) (index : UInt32) : FixedBytes 32 :=
  let parent := deriveSeed (str "iuna-wallet-ml-dsa44-seed-v1") seed
  if branch = .external ∧ index = 0 then parent else deriveChildSeed parent branch index

/-- The public key of `hybrid_key`: the two component keys, one after the other. -/
def hybridPublicKey (seed : Str) (branch : HybridAddressBranch) (index : UInt32) :
    FixedBytes (32 + 1312) :=
  ⟨(SigningKeys.ed25519Public (edSeed seed)).val
      ++ (SigningKeys.mlDsa44Public (mlSeed seed branch index)).val, by
    rw [List.length_append, (SigningKeys.ed25519Public _).property,
      (SigningKeys.mlDsa44Public _).property]⟩

/-- The address of `hybrid_key`. -/
def hybridAddress (seed : Str) (branch : HybridAddressBranch) (index : UInt32) : Address :=
  { version := 1
    payload := Crypto.sha256 (utf8 (str "IUNA-ADDRESS-V1") ++ [2] ++ Wire.bigEndian 4 32
      ++ (SigningKeys.ed25519Public (edSeed seed)).val ++ Wire.bigEndian 4 1312
      ++ (SigningKeys.mlDsa44Public (mlSeed seed branch index)).val) }

/-- `hybrid_signature`. -/
def hybridSignature (seed : Str) (mlSeed : FixedBytes 32) (payload : Bytes) :
    Result (FixedBytes (64 + 2420)) := do
  let ed := SigningKeys.ed25519Sign (edSeed seed) payload
  let ml ← orError "failed to create ML-DSA-44 signature" (SigningKeys.mlDsa44Sign mlSeed payload)
  pure ⟨ed.val ++ ml.val, by rw [List.length_append, ed.property, ml.property]⟩

/-! ## Bytes -/

/-- `push_u32`. -/
def pushU32 (value : ℕ) : Result Bytes := do
  bailIf (u32Max < value) "value exceeds the wire limit"
  pure (Wire.bigEndian 4 value)

/-- `push_bytes`. -/
def pushBytes (value : Bytes) : Result Bytes := do
  let length ← pushU32 value.length
  pure (length ++ value)

/-- `encode_prefix`. -/
def encodePrefix (chainId : Str) (genesisHash : FixedBytes 32) : Result Bytes := do
  bailIf (chainId = [] ∨ 64 < byteLen chainId ∨ ¬ chainId.all fun c => c.toNat < 128)
    "invalid transaction v2 chain ID"
  let chainId ← pushBytes (utf8 chainId)
  pure (utf8 (str "IUNA-TX-V2") ++ Wire.bigEndian 2 2 ++ chainId ++ genesisHash.val)

/-- `encode_address_bytes`. -/
def encodeAddressBytes (address : Address) : Bytes := address.version :: address.payload.val

/-- One output of `encode_outputs`. -/
def encodeOutput (output : Address × ℕ) : Result Bytes := do
  bailIf (output.2 = 0) "transaction outputs must be greater than zero"
  pure (encodeAddressBytes output.1 ++ Wire.bigEndian 8 output.2)

/-- `encode_outputs`. -/
def encodeOutputs (outputs : List (Address × ℕ)) : Result Bytes := do
  let count ← pushU32 outputs.length
  let encoded ← outputs.mapM encodeOutput
  pure (count ++ encoded.flatten)

/-- `encode_authorization`. -/
def encodeAuthorization (scheme : UInt8) (publicKey signature : Bytes) : Result Bytes := do
  let publicKey ← pushBytes publicKey
  let signature ← pushBytes signature
  pure (scheme :: publicKey ++ signature)

/-- `built_json`, before it is written as JSON. -/
def builtTransaction (envelope : Bytes) (fee inputCount : ℕ) : BuiltTransaction :=
  { envelope := hexEncode envelope
    transactionId := hexEncode (Crypto.sha256 envelope).val
    fee := decimal fee
    inputCount := inputCount }

/-! ## Transfers -/

/-- `unique_hybrid_owner_inputs`: the first coin of every derived address. -/
def uniqueHybridOwnerInputs (inputs : List HybridUtxo) : List HybridUtxo :=
  inputs.foldl (fun unique input =>
    if unique.any fun candidate => candidate.addressBranch = input.addressBranch ∧
        candidate.addressIndex = input.addressIndex
    then unique else unique ++ [input]) []

/-- `transfer_encoded_size`. -/
def transferEncodedSize (chainId : Str) (inputs outputs authorizations : ℕ) : ℕ :=
  10 + 2 + 4 + byteLen chainId + 32 + 1 + 4 + inputs * 69 + 4 + outputs * 41 + 8 + 4
    + authorizations * (1 + 4 + hybridPublicKeyBytes + 4 + hybridSignatureBytes)

/-- The order in which `build_transfer` looks at the coins: the largest first, equal amounts by
outpoint. -/
def spendsBefore (left right : HybridUtxo) : Bool :=
  (compare right.amount left.amount).then
    ((compare (utf8 left.outpoint.txid) (utf8 right.outpoint.txid)).then
      (compare left.outpoint.index right.outpoint.index)) |>.isLE

/-- The inner loop of `build_transfer`: the coins up to the first total that covers `required`. -/
def coverRequired (required : ℕ) : List HybridUtxo → ℕ → Result (List HybridUtxo × ℕ)
  | [], total => pure ([], total)
  | utxo :: rest, total => do
    let total ← orError "input total overflows" (checkedAdd total utxo.amount.toNat)
    if required ≤ total then pure ([utxo], total)
    else do
      let (selected, total) ← coverRequired required rest total
      pure (utxo :: selected, total)

/-- What `build_transfer` has read from its request before it selects coins. -/
structure TransferTerms where
  amount : ℕ
  feeRate : ℕ
  recipient : Address
  genesisHash : FixedBytes 32
  aggregateAuthorizations : Bool
  available : List HybridUtxo

/-- The outcome of one round of the fee loop: a selection with its outputs, and the fee that a
transaction of its size needs. -/
structure FeeRound where
  selected : List HybridUtxo
  total : ℕ
  outputs : List (Address × ℕ)
  requiredFee : ℕ
  requiredFee_le : requiredFee ≤ u64Max

/-- `fee_rate.checked_mul(size)`, and at least one. -/
def requiredFee (feeRate size : ℕ) : Result { fee : ℕ // fee ≤ u64Max } :=
  if h : feeRate * size ≤ u64Max then
    pure ⟨max (feeRate * size) 1, max_le h (by decide)⟩
  else bail "fee overflows"

/-- The coins whose owners sign. -/
def authorizationInputs (aggregate : Bool) (selected : List HybridUtxo) : List HybridUtxo :=
  if aggregate then uniqueHybridOwnerInputs selected else selected

/-- One round of the fee loop of `build_transfer`. -/
def feeRound (request : TransferRequest) (terms : TransferTerms) (fee : ℕ) : Result FeeRound := do
  let required ← orError "amount plus fee overflows" (checkedAdd terms.amount fee)
  let (selected, total) ← coverRequired required terms.available 0
  bailIf (total < required) "insufficient hybrid funds for the amount and network fee"
  let change := total - required
  let outputs := (terms.recipient, terms.amount) ::
    if 0 < change then [(hybridAddress request.seed .external request.changeIndex, change)] else []
  let authorizations := (authorizationInputs terms.aggregateAuthorizations selected).length
  let size := transferEncodedSize request.chainId selected.length outputs.length authorizations
  bailIf (maxBlockBytes < size)
    "transaction exceeds the block budget; send a smaller amount or consolidate first"
  let needed ← requiredFee terms.feeRate size
  pure { selected := selected, total := total, outputs := outputs, requiredFee := needed.val,
         requiredFee_le := needed.property }

/-- The coins, the outputs and the fee that a transfer is built from. -/
structure TransferPlan where
  terms : TransferTerms
  selected : List HybridUtxo
  total : ℕ
  outputs : List (Address × ℕ)
  fee : ℕ

/-- The fee loop of `build_transfer`: the fee grows until it pays for the size that it leads to. -/
def feeLoop (request : TransferRequest) (terms : TransferTerms) (fee : ℕ) :
    Result TransferPlan := do
  let round ← feeRound request terms fee
  if _paid : round.requiredFee ≤ fee then
    pure { terms := terms, selected := round.selected, total := round.total,
           outputs := round.outputs, fee := fee }
  else feeLoop request terms round.requiredFee
termination_by u64Max - fee
decreasing_by
  have := round.requiredFee_le
  omega

/-- What `build_transfer` reads from its request. -/
def readTransfer (request : TransferRequest) : Result TransferTerms := do
  let amount ← parseU64 request.amount "amount"
  let feeRate ← parsePositiveU64 request.feeRate "fee rate"
  bailIf (amount = 0) "amount must be greater than zero"
  let recipient ← decodeAddress request.recipientAddress request.chainId
  bailIf (recipient.version ≠ 1) "hybrid transfers require an address-v1 recipient"
  let genesisHash ← decodeArray 32 request.genesisHash "genesis hash"
  pure { amount := amount, feeRate := feeRate, recipient := recipient, genesisHash := genesisHash,
         aggregateAuthorizations :=
           request.authorizationAggregationActivationHeight ≤ request.signingHeight,
         available := request.utxos.mergeSort spendsBefore }

/-- The selection of `build_transfer`, with the check that follows the loop. -/
def planTransfer (request : TransferRequest) : Result TransferPlan := do
  let terms ← readTransfer request
  let plan ← feeLoop request terms 1
  bailIf (plan.total < terms.amount + plan.fee)
    "insufficient hybrid funds after fee calculation"
  pure plan

/-- The address that owns a coin. -/
def ownerOf (seed : Str) (utxo : HybridUtxo) : Address :=
  hybridAddress seed utxo.addressBranch utxo.addressIndex

/-- One input of `build_transfer`. -/
def encodeInput (seed : Str) (input : HybridUtxo) : Result Bytes := do
  let txid ← decodeArray 32 input.outpoint.txid "v2 transaction ID"
  pure (txid.val ++ Wire.bigEndian 4 input.outpoint.index.toNat
    ++ encodeAddressBytes (ownerOf seed input))

/-- One authorization of `build_transfer`. -/
def authorizeInput (seed : Str) (signing : Bytes) (input : HybridUtxo) : Result Bytes := do
  let signature ← hybridSignature seed (mlSeed seed input.addressBranch input.addressIndex) signing
  encodeAuthorization 2 (hybridPublicKey seed input.addressBranch input.addressIndex).val
    signature.val

/-- `build_transfer`. -/
def buildTransfer (request : TransferRequest) : Result BuiltTransaction := do
  let plan ← planTransfer request
  let start ← encodePrefix request.chainId plan.terms.genesisHash
  let count ← pushU32 plan.selected.length
  let inputs ← plan.selected.mapM (encodeInput request.seed)
  let outputs ← encodeOutputs plan.outputs
  let signing := start ++ [1] ++ count ++ inputs.flatten ++ outputs ++ Wire.bigEndian 8 plan.fee
  let authorizing := authorizationInputs plan.terms.aggregateAuthorizations plan.selected
  let authorizationCount ← pushU32 authorizing.length
  let authorizations ← authorizing.mapM (authorizeInput request.seed signing)
  pure (builtTransaction (signing ++ authorizationCount ++ authorizations.flatten) plan.fee
    plan.selected.length)

/-! ## Migrations -/

/-- `migration_encoded_size`. -/
def migrationEncodedSize (chainId : Str) (inputs : List LegacyUtxo) (authorizations : ℕ) : ℕ :=
  10 + 2 + 4 + byteLen chainId + 32 + 1 + 4
    + (inputs.map fun input => 1 + byteLen input.outpoint.txid / 2 + 4 + 33).sum
    + 4 + 41 + 8 + 4 + authorizations * (1 + 4 + 32 + 4 + 64)

/-- `authorization_count` of `build_migration`. -/
def MigrationRequest.authorizationCount (request : MigrationRequest) : ℕ :=
  if request.authorizationAggregationActivationHeight ≤ request.signingHeight then 1
  else request.utxos.length

/-- One input of `build_migration`. -/
def encodeLegacyInput (owner : Address) (input : LegacyUtxo) : Result Bytes := do
  let id ← decodeHex input.outpoint.txid "legacy transaction ID"
  let kind ←
    if id.length = 32 then pure (0 : UInt8)
    else if id.length = 64 then pure 1
    else bail "legacy transaction ID must contain 32 or 64 bytes"
  pure (kind :: id ++ Wire.bigEndian 4 input.outpoint.index.toNat ++ encodeAddressBytes owner)

/-- `build_migration`. -/
def buildMigration (request : MigrationRequest) : Result BuiltTransaction := do
  let feeRate ← parsePositiveU64 request.feeRate "fee rate"
  bailIf (request.utxos = []) "no legacy outputs are available for migration"
  bailIf (1000 < request.utxos.length) "a migration can contain at most 1000 inputs"
  let genesisHash ← decodeArray 32 request.genesisHash "genesis hash"
  let total ← request.utxos.foldlM (fun sum utxo =>
    orError "input total overflows" (checkedAdd sum utxo.amount.toNat)) 0
  let authorizationCount := request.authorizationCount
  let size := migrationEncodedSize request.chainId request.utxos authorizationCount
  bailIf (maxBlockBytes < size)
    "migration exceeds the block budget; migrate fewer legacy outputs at a time"
  let fee ← requiredFee feeRate size
  bailIf (total ≤ fee.val) "migration fee exceeds the available legacy balance"
  let migrated := total - fee.val
  let edPublic := SigningKeys.ed25519Public (edSeed request.seed)
  let destination := hybridAddress request.seed .external request.destinationIndex
  let start ← encodePrefix request.chainId genesisHash
  let count ← pushU32 request.utxos.length
  let inputs ← request.utxos.mapM (encodeLegacyInput { version := 0, payload := edPublic })
  let outputs ← encodeOutputs [(destination, migrated)]
  let signing := start ++ [4] ++ count ++ inputs.flatten ++ outputs ++ Wire.bigEndian 8 fee.val
  let signature := SigningKeys.ed25519Sign (edSeed request.seed) signing
  let authorizationBytes ← pushU32 authorizationCount
  let authorization ← encodeAuthorization 0 edPublic.val signature.val
  pure (builtTransaction (signing ++ authorizationBytes
    ++ (List.replicate authorizationCount authorization).flatten) fee.val request.utxos.length)

end Iuna.BrowserWallet
