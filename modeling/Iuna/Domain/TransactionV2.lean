import Iuna.Domain.Transaction

/-!
# Transactions v2

The second transaction format: binary, length-delimited, signed by aggregated authorizations
whose keys commit to the addresses they spend from.  Public keys and signatures carry the length
their scheme prescribes, and an authorization carries the agreement of the two schemes, so a
malformed one cannot be built (`ProtocolPublicKey`, `ProtocolSignature`,
`V2SpendingAuthorization`), as the private fields of the source ensure.

The codec is the source's, byte for byte: `TransactionV2.encode` writes the unsigned body after
the domain prefix and then the authorizations, `TransactionV2.decode` reads them and repeats the
shape checks.
-/

namespace Iuna

open Wire

/-! ## Signature material -/

/-- `SignatureScheme`. -/
inductive SignatureScheme
  | ed25519
  | mlDsa44
  | hybridEd25519MlDsa44
  deriving DecidableEq

namespace SignatureScheme

def wireId : SignatureScheme → UInt8
  | ed25519 => 0
  | mlDsa44 => 1
  | hybridEd25519MlDsa44 => 2

def publicKeyBytes : SignatureScheme → ℕ
  | ed25519 => 32
  | mlDsa44 => 1312
  | hybridEd25519MlDsa44 => 32 + 1312

def signatureBytes : SignatureScheme → ℕ
  | ed25519 => 64
  | mlDsa44 => 2420
  | hybridEd25519MlDsa44 => 64 + 2420

def fromWireId (id : UInt8) : Option SignatureScheme :=
  if id = 0 then some ed25519
  else if id = 1 then some mlDsa44
  else if id = 2 then some hybridEd25519MlDsa44
  else none

@[simp] lemma fromWireId_wireId (scheme : SignatureScheme) :
    fromWireId scheme.wireId = some scheme := by
  cases scheme <;> rfl

end SignatureScheme

/-- `ProtocolPublicKey`, of the length its scheme prescribes. -/
structure ProtocolPublicKey where
  scheme : SignatureScheme
  bytes : FixedBytes scheme.publicKeyBytes
  deriving DecidableEq

/-- `V2SpendingAuthorization`: a public key with a signature of the same scheme. -/
structure V2SpendingAuthorization where
  publicKey : ProtocolPublicKey
  signature : FixedBytes publicKey.scheme.signatureBytes
  deriving DecidableEq

/-! ## Transactions -/

/-- `TransactionV2Domain`: a chain id of 1 to 64 ASCII bytes and a genesis hash. -/
structure TransactionV2Domain where
  chainId : Str
  genesisHash : FixedBytes 32
  deriving DecidableEq

/-- `TransactionV2Input`. -/
structure TransactionV2Input where
  outpointTxid : FixedBytes 32
  outpointIndex : ℕ
  owner : VersionedAddress
  deriving DecidableEq

/-- `LegacyTransactionId`. -/
inductive LegacyTransactionId
  | hash (value : FixedBytes 32)
  | signature (value : FixedBytes 64)
  deriving DecidableEq

/-- `TransactionV2LegacyInput`. -/
structure TransactionV2LegacyInput where
  outpointId : LegacyTransactionId
  outpointIndex : ℕ
  owner : VersionedAddress
  deriving DecidableEq

/-- `TransactionV2Output`. -/
structure TransactionV2Output where
  address : VersionedAddress
  amount : Amount
  deriving DecidableEq

/-- `TransactionV2`. -/
inductive TransactionV2
  | migration (inputs : List TransactionV2LegacyInput) (outputs : List TransactionV2Output)
      (fee : Amount) (authorizations : List V2SpendingAuthorization)
  | transfer (inputs : List TransactionV2Input) (outputs : List TransactionV2Output)
      (fee : Amount) (authorizations : List V2SpendingAuthorization)
  | burn (inputs : List TransactionV2Input) (change : List TransactionV2Output)
      (amount fee : Amount) (anchor : Option (FixedBytes 32))
      (authorizations : List V2SpendingAuthorization)
  | mine (recipient : VersionedAddress) (anchor : FixedBytes 32) (salt nonce difficultyBits : ℕ)
      (proofHeader : Option (FixedBytes 80)) (proofHash : FixedBytes 32)
  deriving DecidableEq

def maxChainIdBytes : ℕ := 64

def maxV2Inputs : ℕ := 1000

def maxV2Outputs : ℕ := 1000

def transactionV2WireVersion : ℕ := 2

def transactionV2ActivationHeight : ℕ := 3000

def authorizationAggregationActivationHeight : ℕ := 4500

/-- `TransactionV2Domain::new`. -/
def TransactionV2Domain.new (chainId : Str) (genesisHash : FixedBytes 32) :
    Result TransactionV2Domain := do
  bailIf (chainId = [] ∨ maxChainIdBytes < byteLen chainId ∨
      ¬ chainId.all fun c => c.toNat < 128)
    "transaction v2 chain ID must contain 1..=64 ASCII bytes"
  pure { chainId := chainId, genesisHash := genesisHash }

/-- `ensure_transaction_v2_active`. -/
def ensureTransactionV2Active (height : ℕ) : Result Unit :=
  bailIf (height < transactionV2ActivationHeight)
    "transaction v2 is recognized but not consensus-active"

namespace TransactionV2

def isBurn : TransactionV2 → Bool
  | burn _ _ _ _ _ _ => true
  | _ => false

def amount : TransactionV2 → Amount
  | burn _ _ amount _ _ _ => amount
  | _ => 0

def burnAnchor : TransactionV2 → Option (FixedBytes 32)
  | burn _ _ _ _ anchor _ => anchor
  | _ => none

def fee : TransactionV2 → Amount
  | migration _ _ fee _ => fee
  | transfer _ _ fee _ => fee
  | burn _ _ _ fee _ _ => fee
  | mine _ _ _ _ _ _ _ => 0

def inputCount : TransactionV2 → ℕ
  | migration inputs _ _ _ => inputs.length
  | transfer inputs _ _ _ => inputs.length
  | burn inputs _ _ _ _ _ => inputs.length
  | mine _ _ _ _ _ _ _ => 0

def outputs : TransactionV2 → List TransactionV2Output
  | migration _ outputs _ _ => outputs
  | transfer _ outputs _ _ => outputs
  | burn _ change _ _ _ _ => change
  | mine _ _ _ _ _ _ _ => []

def authorizations : TransactionV2 → List V2SpendingAuthorization
  | migration _ _ _ authorizations => authorizations
  | transfer _ _ _ authorizations => authorizations
  | burn _ _ _ _ _ authorizations => authorizations
  | mine _ _ _ _ _ _ _ => []

/-- The owners of the inputs, one for each input. -/
def owners : TransactionV2 → List VersionedAddress
  | migration inputs _ _ _ => inputs.map TransactionV2LegacyInput.owner
  | transfer inputs _ _ _ => inputs.map TransactionV2Input.owner
  | burn inputs _ _ _ _ _ => inputs.map TransactionV2Input.owner
  | mine _ _ _ _ _ _ _ => []

/-- The loop of `input_owners`, which keeps the first occurrence of every owner. -/
def uniqueOwners (owners : List VersionedAddress) : List VersionedAddress :=
  owners.foldl (fun unique owner => if owner ∈ unique then unique else unique ++ [owner]) []

/-- `input_owners`. -/
def inputOwners (transaction : TransactionV2) : List VersionedAddress :=
  uniqueOwners transaction.owners

end TransactionV2

/-! ## Addresses of authorizations -/

section Commitments

variable [Crypto]

/-- `public_key_commitment` of a hybrid key: both components are hashed with their lengths. -/
def publicKeyCommitment (publicKey : ProtocolPublicKey) : FixedBytes 32 :=
  let lengthPrefixed (bytes : Bytes) : Bytes := bigEndian 4 bytes.length ++ bytes
  let body :=
    match publicKey.scheme with
    | .hybridEd25519MlDsa44 =>
      lengthPrefixed (publicKey.bytes.val.take 32) ++ lengthPrefixed (publicKey.bytes.val.drop 32)
    | .ed25519 | .mlDsa44 => lengthPrefixed publicKey.bytes.val
  Crypto.sha256 (utf8 (str "IUNA-ADDRESS-V1") ++ [publicKey.scheme.wireId] ++ body)

/-- `hybrid_key_commitment_address`. -/
def hybridKeyCommitmentAddress (publicKey : ProtocolPublicKey) : Result VersionedAddress := do
  bailIf (publicKey.scheme ≠ .hybridEd25519MlDsa44)
    "address v1 requires an Ed25519 + ML-DSA-44 public key"
  pure { version := .hybridKeyCommitment, payload := publicKeyCommitment publicKey }

namespace V2SpendingAuthorization

omit [Crypto] in
def scheme (authorization : V2SpendingAuthorization) : SignatureScheme :=
  authorization.publicKey.scheme

/-- `authorized_address`. -/
def authorizedAddress (authorization : V2SpendingAuthorization) : Result VersionedAddress :=
  match authorization.publicKey.scheme with
  | .ed25519 => do
    let payload ← fixed 32 authorization.publicKey.bytes.val
      "Ed25519 authorization has an invalid public key length"
    pure { version := .ed25519PublicKey, payload := payload }
  | .hybridEd25519MlDsa44 => hybridKeyCommitmentAddress authorization.publicKey
  | .mlDsa44 => bail "ML-DSA-only transaction v2 authorizations are not supported"

end V2SpendingAuthorization

namespace TransactionV2

/-- `burn_legacy_owner`: the Ed25519 half of the one hybrid identity that signs a burn. -/
def burnLegacyOwner (transaction : TransactionV2) : Result (Option Str) :=
  match transaction with
  | burn inputs _ _ _ _ authorizations => do
    let first ← orError "transaction v2 burn has no owner" inputs.head?
    let owner := first.owner
    bailIf (inputs.any fun input => input.owner ≠ owner)
      "transaction v2 burn inputs must have one owner"
    let authorization ← orError "transaction v2 burn has no authorization" authorizations.head?
    bailIf (authorization.scheme ≠ .hybridEd25519MlDsa44 ∨
        authorizations.any fun candidate =>
          candidate.publicKey.bytes.val ≠ authorization.publicKey.bytes.val)
      "transaction v2 burn must use one hybrid wallet identity"
    let committed ← hybridKeyCommitmentAddress authorization.publicKey
    bailIf (committed ≠ owner) "transaction v2 burn authorization does not match its owner"
    pure (some (hexEncode (authorization.publicKey.bytes.val.take 32)))
  | _ => pure none

/-- `hybrid_legacy_owner_bindings`. -/
def hybridLegacyOwnerBindings (transaction : TransactionV2) :
    Result (List (VersionedAddress × Str)) :=
  transaction.authorizations.foldlM (fun bindings authorization =>
    if authorization.scheme ≠ .hybridEd25519MlDsa44 then pure bindings
    else do
      let hybridOwner ← authorization.authorizedAddress
      if hybridOwner ∉ transaction.inputOwners then pure bindings
      else
        let binding := (hybridOwner, hexEncode (authorization.publicKey.bytes.val.take 32))
        pure (if binding ∈ bindings then bindings else bindings ++ [binding])) []

end TransactionV2

end Commitments

/-! ## Shape checks -/

namespace TransactionV2

/-- `validate_unsigned_shape`. -/
def validateUnsignedShape (transaction : TransactionV2) : Result Unit := do
  bailIf (maxV2Inputs < transaction.inputCount) "transaction v2 has too many inputs"
  bailIf (maxV2Outputs < transaction.outputs.length) "transaction v2 has too many outputs"
  bailIf (transaction.outputs.any fun output => output.amount = 0)
    "transaction v2 outputs must be greater than zero"
  match transaction with
  | migration inputs outputs _ _ => do
    bailIf (inputs = []) "transaction v2 migration requires at least one input"
    bailIf (outputs.length ≠ 1 ∨
        outputs.any fun output => output.address.version ≠ .hybridKeyCommitment)
      "transaction v2 migration requires exactly one address-v1 output"
    bailIf (¬ (inputs.map fun input => (input.outpointId, input.outpointIndex)).Nodup)
      "transaction v2 migration contains a duplicate input"
  | transfer inputs outputs _ _ => do
    bailIf (inputs = [] ∨ outputs = []) "transaction v2 transfer requires inputs and outputs"
    bailIf (outputs.any fun output => output.address.version ≠ .hybridKeyCommitment)
      "transaction v2 transfer outputs must use address v1"
    bailIf (¬ (inputs.map fun input => (input.outpointTxid, input.outpointIndex)).Nodup)
      "transaction v2 transfer contains a duplicate input"
  | burn inputs change amount _ _ _ => do
    bailIf (inputs = [] ∨ amount = 0) "transaction v2 burn requires inputs and a positive amount"
    bailIf (change.any fun output => output.address.version ≠ .hybridKeyCommitment)
      "transaction v2 burn change must use address v1"
    bailIf (¬ (inputs.map fun input => (input.outpointTxid, input.outpointIndex)).Nodup)
      "transaction v2 burn contains a duplicate input"
  | mine _ _ _ _ _ _ _ => pure ()

/-- `validate_shape`. -/
def validateShape (transaction : TransactionV2) : Result Unit := do
  transaction.validateUnsignedShape
  match transaction with
  | mine _ _ _ _ _ _ _ => pure ()
  | _ =>
    bailIf (transaction.authorizations.length ≠ transaction.inputCount ∧
        transaction.authorizations.length ≠ transaction.inputOwners.length)
      "transaction v2 authorization count is invalid"

variable [Crypto]

/-- The loop shared by the per-input policies: every input is owned by an address of the expected
version and paired with an authorization of the expected scheme for that address. -/
def checkPairedAuthorizations (version : AddressVersion) (scheme : SignatureScheme)
    (error : String) (pairs : List (VersionedAddress × V2SpendingAuthorization)) : Result Unit :=
  forM pairs fun pair => do
    bailIf (pair.1.version ≠ version ∨ pair.2.scheme ≠ scheme) error
    let address ← pair.2.authorizedAddress
    bailIf (pair.1 ≠ address) error

/-- `validate_legacy_authorization_commitments`: one authorization per input. -/
def validateLegacyAuthorizationCommitments (transaction : TransactionV2) : Result Unit :=
  match transaction with
  | migration inputs _ _ authorizations => do
    bailIf (authorizations.length ≠ inputs.length) <|
      "transaction v2 requires exactly one authorization per input before authorization " ++
        "aggregation activation"
    checkPairedAuthorizations .ed25519PublicKey .ed25519
      "transaction v2 migration authorization does not match its legacy owner"
      ((inputs.map TransactionV2LegacyInput.owner).zip authorizations)
  | transfer inputs _ _ authorizations | burn inputs _ _ _ _ authorizations => do
    bailIf (authorizations.length ≠ inputs.length) <|
      "transaction v2 requires exactly one authorization per input before authorization " ++
        "aggregation activation"
    checkPairedAuthorizations .hybridKeyCommitment .hybridEd25519MlDsa44
      "transaction v2 authorization does not match its hybrid owner commitment"
      ((inputs.map TransactionV2Input.owner).zip authorizations)
  | mine _ _ _ _ _ _ _ => pure ()

/-- The address version and the scheme that a kind of transaction expects, if it spends. -/
def expectedAuthorization : TransactionV2 → Option (AddressVersion × SignatureScheme)
  | migration _ _ _ _ => some (.ed25519PublicKey, .ed25519)
  | transfer _ _ _ _ => some (.hybridKeyCommitment, .hybridEd25519MlDsa44)
  | burn _ _ _ _ _ _ => some (.hybridKeyCommitment, .hybridEd25519MlDsa44)
  | mine _ _ _ _ _ _ _ => none

/-- One round of the loop over the authorizations of the aggregated policy, with the owners
authorized so far. -/
def authorizeOwner (inputOwners : List VersionedAddress) (version : AddressVersion)
    (scheme : SignatureScheme) (authorized : List VersionedAddress)
    (authorization : V2SpendingAuthorization) : Result (List VersionedAddress) := do
  let owner ← authorization.authorizedAddress
  bailIf (owner.version ≠ version ∨ authorization.scheme ≠ scheme)
    "transaction v2 authorization does not match its input owner version"
  bailIf (owner ∉ inputOwners) "transaction v2 authorization does not match any input owner"
  bailIf (owner ∈ authorized) "transaction v2 contains a duplicate authorization owner"
  pure (authorized ++ [owner])

/-- `validate_aggregated_authorization_commitments`: one authorization per distinct owner. -/
def validateAggregatedAuthorizationCommitments (transaction : TransactionV2) : Result Unit := do
  let inputOwners := transaction.inputOwners
  bailIf (transaction.authorizations.length ≠ inputOwners.length)
    "transaction v2 requires exactly one authorization per unique input owner"
  match transaction.expectedAuthorization with
  | none => pure ()
  | some (version, scheme) => do
    let _ ← transaction.authorizations.foldlM (authorizeOwner inputOwners version scheme) []
    pure ()

/-- `validate_authorization_commitments`. -/
def validateAuthorizationCommitments (transaction : TransactionV2) : Result Unit := do
  transaction.validateShape
  match transaction.validateLegacyAuthorizationCommitments with
  | .ok _ => pure ()
  | .error _ => transaction.validateAggregatedAuthorizationCommitments

/-- `validate_authorization_policy_at_height`. -/
def validateAuthorizationPolicyAtHeight (transaction : TransactionV2) (height : ℕ) :
    Result Unit := do
  transaction.validateShape
  if height < authorizationAggregationActivationHeight then
    transaction.validateLegacyAuthorizationCommitments
  else transaction.validateAggregatedAuthorizationCommitments

end TransactionV2

/-! ## Encoding -/

/-- `encode_count`. -/
def encodeCount (count : ℕ) (label : String) : Result Bytes := do
  bailIf (u32Max < count) s!"{label} exceeds u32"
  pure (bigEndian 4 count)

/-- `encode_bytes` of the v2 codec. -/
def encodeCountedBytes (value : Bytes) (label : String) : Result Bytes := do
  let count ← encodeCount value.length label
  pure (count ++ value)

/-- `encode_prefix`. -/
def encodePrefix (domain : TransactionV2Domain) : Result Bytes := do
  let chainId ← encodeCountedBytes (utf8 domain.chainId) "chain ID"
  pure (utf8 (str "IUNA-TX-V2") ++ bigEndian 2 transactionV2WireVersion ++ chainId
    ++ domain.genesisHash.val)

/-- `encode_address`. -/
def encodeAddressBytes (address : VersionedAddress) : Bytes :=
  address.version.wireId :: address.payload.val

/-- One input of `encode_inputs`. -/
def encodeInputV2 (input : TransactionV2Input) : Bytes :=
  input.outpointTxid.val ++ bigEndian 4 input.outpointIndex ++ encodeAddressBytes input.owner

/-- One input of `encode_legacy_inputs`. -/
def encodeLegacyInputV2 (input : TransactionV2LegacyInput) : Bytes :=
  (match input.outpointId with
    | .hash value => 0 :: value.val
    | .signature value => 1 :: value.val)
    ++ bigEndian 4 input.outpointIndex ++ encodeAddressBytes input.owner

/-- One output of `encode_outputs`. -/
def encodeOutputV2 (output : TransactionV2Output) : Bytes :=
  encodeAddressBytes output.address ++ bigEndian 8 output.amount

/-- A counted list of encoded elements. -/
def encodeCounted {α : Type} (encode : α → Bytes) (values : List α) (label : String) :
    Result Bytes := do
  let count ← encodeCount values.length label
  pure (count ++ values.flatMap encode)

/-- `encode_optional_array`. -/
def encodeOptionalArray {n : ℕ} : Option (FixedBytes n) → Bytes
  | some value => 1 :: value.val
  | none => [0]

/-- One authorization of `TransactionV2::encode`. -/
def encodeAuthorization (authorization : V2SpendingAuthorization) : Bytes :=
  authorization.scheme.wireId
    :: (bigEndian 4 authorization.publicKey.bytes.val.length ++ authorization.publicKey.bytes.val)
    ++ (bigEndian 4 authorization.signature.val.length ++ authorization.signature.val)

namespace TransactionV2

/-- `encode_unsigned_body`. -/
def encodeUnsignedBody : TransactionV2 → Result Bytes
  | migration inputs outputs fee _ => do
    let inputBytes ← encodeCounted encodeLegacyInputV2 inputs "legacy input count"
    let outputBytes ← encodeCounted encodeOutputV2 outputs "output count"
    pure (4 :: inputBytes ++ outputBytes ++ bigEndian 8 fee)
  | transfer inputs outputs fee _ => do
    let inputBytes ← encodeCounted encodeInputV2 inputs "input count"
    let outputBytes ← encodeCounted encodeOutputV2 outputs "output count"
    pure (1 :: inputBytes ++ outputBytes ++ bigEndian 8 fee)
  | burn inputs change amount fee anchor _ => do
    let inputBytes ← encodeCounted encodeInputV2 inputs "input count"
    let outputBytes ← encodeCounted encodeOutputV2 change "output count"
    pure (2 :: inputBytes ++ outputBytes ++ bigEndian 8 amount ++ bigEndian 8 fee
      ++ encodeOptionalArray anchor)
  | mine recipient anchor salt nonce difficultyBits proofHeader proofHash =>
    pure (3 :: encodeAddressBytes recipient ++ anchor.val ++ bigEndian 8 salt ++ bigEndian 8 nonce
      ++ bigEndian 4 difficultyBits ++ encodeOptionalArray proofHeader ++ proofHash.val)

/-- `signing_bytes`: the preimage of every authorization. -/
def signingBytes (transaction : TransactionV2) (domain : TransactionV2Domain) : Result Bytes := do
  transaction.validateUnsignedShape
  let start ← encodePrefix domain
  let body ← transaction.encodeUnsignedBody
  pure (start ++ body)

/-- `encode`. -/
def encode (transaction : TransactionV2) (domain : TransactionV2Domain) : Result Bytes := do
  transaction.validateShape
  let unsigned ← transaction.signingBytes domain
  let authorizations ← encodeCounted encodeAuthorization transaction.authorizations
    "authorization count"
  pure (unsigned ++ authorizations)

/-- `transaction_id`. -/
def transactionId [Crypto] (transaction : TransactionV2) (domain : TransactionV2Domain) :
    Result (FixedBytes 32) := do
  let bytes ← transaction.encode domain
  pure (Crypto.sha256 bytes)

end TransactionV2

/-! ## Decoding -/

/-- `Reader::take`. -/
def readTake (length : ℕ) (label : String) : Reader Error Bytes :=
  Reader.take length (.message s!"transaction v2 {label} is truncated")

/-- `Reader::array::<N>`. -/
def readArray (n : ℕ) (label : String) : Reader Error (FixedBytes n) := do
  let bytes ← readTake n label
  Reader.lift (fixed n bytes s!"{label} has an invalid fixed length")

/-- `Reader::u8`, `Reader::u16`, `Reader::u32` and `Reader::u64`, by their width in bytes. -/
def readUnsigned (width : ℕ) (label : String) : Reader Error ℕ := do
  let bytes ← readTake width label
  pure (ofBigEndian bytes)

/-- `Reader::count`. -/
def readCount (maximum : ℕ) (label : String) : Reader Error ℕ := do
  let count ← readUnsigned 4 label
  Reader.lift (bailIf (maximum < count) s!"transaction v2 {label} exceeds {maximum}")
  pure count

/-- `Reader::length_prefixed`. -/
def readLengthPrefixed (maximum : ℕ) (label : String) : Reader Error Bytes := do
  let length ← readUnsigned 4 label
  Reader.lift (bailIf (maximum < length) s!"transaction v2 {label} exceeds {maximum} bytes")
  readTake length label

/-- `Reader::finish`. -/
def readFinish : Reader Error Unit := fun bytes =>
  if bytes = [] then .ok ((), []) else bail "transaction v2 contains trailing bytes"

/-- `decode_address`. -/
def decodeAddressBytes (label : String) : Reader Error VersionedAddress := do
  let versionId ← readUnsigned 1 label
  let version ← Reader.lift (orError s!"unsupported address version {versionId}"
    (AddressVersion.fromWireId (UInt8.ofNat versionId)))
  let payload ← readArray 32 label
  pure { version := version, payload := payload }

/-- One input of `decode_inputs`. -/
def decodeInputV2 : Reader Error TransactionV2Input := do
  let outpointTxid ← readArray 32 "input transaction ID"
  let outpointIndex ← readUnsigned 4 "input output index"
  let owner ← decodeAddressBytes "input owner"
  pure { outpointTxid := outpointTxid, outpointIndex := outpointIndex, owner := owner }

/-- One input of `decode_legacy_inputs`. -/
def decodeLegacyInputV2 : Reader Error TransactionV2LegacyInput := do
  let kind ← readUnsigned 1 "legacy input ID kind"
  let outpointId ←
    if kind = 0 then do
      let value ← readArray 32 "legacy input hash"
      pure (LegacyTransactionId.hash value)
    else if kind = 1 then do
      let value ← readArray 64 "legacy input transaction signature"
      pure (LegacyTransactionId.signature value)
    else Reader.lift (bail s!"unsupported legacy input ID kind {kind}")
  let outpointIndex ← readUnsigned 4 "legacy input output index"
  let owner ← decodeAddressBytes "legacy input owner"
  pure { outpointId := outpointId, outpointIndex := outpointIndex, owner := owner }

/-- One output of `decode_outputs`. -/
def decodeOutputV2 : Reader Error TransactionV2Output := do
  let address ← decodeAddressBytes "output address"
  let amount ← readUnsigned 8 "output amount"
  pure { address := address, amount := amount }

/-- A counted list of decoded elements. -/
def decodeCounted {α : Type} (decode : Reader Error α) (maximum : ℕ) (label : String) :
    Reader Error (List α) := do
  let count ← readCount maximum label
  Reader.list decode count

/-- `decode_optional_array`. -/
def decodeOptionalArray (n : ℕ) (label : String) : Reader Error (Option (FixedBytes n)) := do
  let marker ← readUnsigned 1 label
  if marker = 0 then pure none
  else if marker = 1 then do
    let value ← readArray n label
    pure (some value)
  else Reader.lift (bail s!"{label} has invalid presence marker {marker}")

/-- `ProtocolPublicKey::new` and `V2SpendingAuthorization::new` after the length checks of the
decoder. -/
def buildAuthorization (scheme : SignatureScheme) (publicKey signature : Bytes) :
    Result V2SpendingAuthorization := do
  let publicKey ← fixed scheme.publicKeyBytes publicKey
    "authorization public key has the wrong scheme-specific length"
  let signature ← fixed scheme.signatureBytes signature
    "authorization signature has the wrong scheme-specific length"
  pure { publicKey := { scheme := scheme, bytes := publicKey }, signature := signature }

/-- One authorization of `TransactionV2::decode`. -/
def decodeAuthorization : Reader Error V2SpendingAuthorization := do
  let schemeId ← readUnsigned 1 "authorization scheme"
  let scheme ← Reader.lift (orError s!"unknown signature scheme {schemeId}"
    (SignatureScheme.fromWireId (UInt8.ofNat schemeId)))
  let publicKey ← readLengthPrefixed scheme.publicKeyBytes "authorization public key"
  Reader.lift (bailIf (publicKey.length ≠ scheme.publicKeyBytes)
    "authorization public key has the wrong scheme-specific length")
  let signature ← readLengthPrefixed scheme.signatureBytes "authorization signature"
  Reader.lift (buildAuthorization scheme publicKey signature)

namespace TransactionV2

/-- The unsigned body of `TransactionV2::decode`: a transaction that still lacks its
authorizations. -/
def decodeUnsignedBody : Reader Error TransactionV2 := do
  let kind ← readUnsigned 1 "transaction kind"
  if kind = 1 then do
    let inputs ← decodeCounted decodeInputV2 maxV2Inputs "input count"
    let outputs ← decodeCounted decodeOutputV2 maxV2Outputs "output count"
    let fee ← readUnsigned 8 "transfer fee"
    pure (transfer inputs outputs fee [])
  else if kind = 2 then do
    let inputs ← decodeCounted decodeInputV2 maxV2Inputs "input count"
    let change ← decodeCounted decodeOutputV2 maxV2Outputs "output count"
    let amount ← readUnsigned 8 "burn amount"
    let fee ← readUnsigned 8 "burn fee"
    let anchor ← decodeOptionalArray 32 "burn anchor"
    pure (burn inputs change amount fee anchor [])
  else if kind = 3 then do
    let recipient ← decodeAddressBytes "mine recipient"
    let anchor ← readArray 32 "mine anchor"
    let salt ← readUnsigned 8 "mine salt"
    let nonce ← readUnsigned 8 "mine nonce"
    let difficultyBits ← readUnsigned 4 "mine difficulty"
    let proofHeader ← decodeOptionalArray 80 "proof header"
    let proofHash ← readArray 32 "proof hash"
    pure (mine recipient anchor salt nonce difficultyBits proofHeader proofHash)
  else if kind = 4 then do
    let inputs ← decodeCounted decodeLegacyInputV2 maxV2Inputs "legacy input count"
    let outputs ← decodeCounted decodeOutputV2 maxV2Outputs "output count"
    let fee ← readUnsigned 8 "migration fee"
    pure (migration inputs outputs fee [])
  else Reader.lift (bail s!"unsupported transaction v2 kind {kind}")

/-- `UnsignedDecoded::with_authorizations`. -/
def withAuthorizations (transaction : TransactionV2)
    (authorizations : List V2SpendingAuthorization) : Result TransactionV2 :=
  match transaction with
  | migration inputs outputs fee _ => pure (migration inputs outputs fee authorizations)
  | transfer inputs outputs fee _ => pure (transfer inputs outputs fee authorizations)
  | burn inputs change amount fee anchor _ =>
    pure (burn inputs change amount fee anchor authorizations)
  | mine _ _ _ _ _ _ _ => do
    bailIf (authorizations ≠ []) "mine transaction v2 cannot contain spending authorizations"
    pure transaction

/-- The chain id of a domain prefix, read back as text: only ASCII passes the domain's own check,
so the bytes are read as ASCII. -/
def chainIdOfBytes (bytes : Bytes) : Result Str := do
  bailIf (bytes.any fun byte => 128 ≤ byte.toNat)
    "transaction v2 chain ID must contain 1..=64 ASCII bytes"
  pure (bytes.map fun byte => Char.ofNat byte.toNat)

/-- The reader of `TransactionV2::decode`, up to its final checks. -/
def readTransaction : Reader Error (TransactionV2Domain × TransactionV2) := do
  let tag ← readTake (utf8 (str "IUNA-TX-V2")).length "transaction v2 tag"
  Reader.lift (bailIf (tag ≠ utf8 (str "IUNA-TX-V2")) "transaction v2 tag is invalid")
  let version ← readUnsigned 2 "transaction version"
  Reader.lift (bailIf (version ≠ transactionV2WireVersion)
    s!"unsupported transaction version {version}")
  let chainIdBytes ← readLengthPrefixed maxChainIdBytes "chain ID"
  let chainId ← Reader.lift (chainIdOfBytes chainIdBytes)
  let genesisHash ← readArray 32 "genesis hash"
  let domain ← Reader.lift (TransactionV2Domain.new chainId genesisHash)
  let unsigned ← decodeUnsignedBody
  let authorizations ← decodeCounted decodeAuthorization maxV2Inputs "authorization count"
  readFinish
  let transaction ← Reader.lift (unsigned.withAuthorizations authorizations)
  Reader.lift transaction.validateShape
  pure (domain, transaction)

/-- `TransactionV2::decode`. -/
def decode (encoded : Bytes) : Result (TransactionV2Domain × TransactionV2) := do
  let (value, _) ← readTransaction encoded
  pure value

end TransactionV2

/-! ## Authorization checks -/

namespace TransactionV2

variable [Crypto]

/-- The check of one authorization over the signed payload. -/
def verifyAuthorization (payload : Bytes) (authorization : V2SpendingAuthorization) :
    Result Unit :=
  let publicKey := authorization.publicKey.bytes.val
  let signature := authorization.signature.val
  match authorization.publicKey.scheme with
  | .ed25519 => do
    let key ← fixed 32 publicKey "Ed25519 authorization has an invalid public key length"
    let sig ← fixed 64 signature "Ed25519 authorization has an invalid signature length"
    verifyEd25519 key payload sig "transaction v2 input"
  | .hybridEd25519MlDsa44 => do
    let ed25519Key ← fixed 32 (publicKey.take 32)
      "hybrid Ed25519 public key has an invalid length"
    let ed25519Signature ← fixed 64 (signature.take 64)
      "hybrid Ed25519 signature has an invalid length"
    verifyEd25519 ed25519Key payload ed25519Signature "transaction v2 classical component"
    let mlDsaKey ← fixed 1312 (publicKey.drop 32) "hybrid ML-DSA public key has an invalid length"
    let mlDsaSignature ← fixed 2420 (signature.drop 64)
      "hybrid ML-DSA signature has an invalid length"
    verifyMlDsa44 mlDsaKey payload mlDsaSignature "transaction v2 post-quantum component"
  | .mlDsa44 => bail "ML-DSA-only transaction v2 authorizations are not supported"

/-- `verify_authorizations`. -/
def verifyAuthorizations (transaction : TransactionV2) (domain : TransactionV2Domain) :
    Result Unit := do
  transaction.validateAuthorizationCommitments
  let payload ← transaction.signingBytes domain
  forM transaction.authorizations (verifyAuthorization payload)

end TransactionV2

end Iuna
