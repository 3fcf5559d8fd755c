import Iuna.Domain.Address
import Iuna.Library.Wire

/-!
# Legacy transactions

A legacy transaction moves the outputs it names as inputs (`Transfer`), destroys part of them
(`Burn`), or mints the mine reward against a proof of work (`Mine`).  Its id is its signature, and
its outputs are named by that id and their position.

Below the signature threshold height a transaction is signed over its canonical text; from it on
over a binary preimage that starts with the chain id and the genesis hash.  Which one applies is
the `TransactionSigningDomain`.  `Transaction.verifySignature` follows the source with all its
early exits: a mine action is accepted on its proof of work, a transaction that carries genesis
signatures is accepted as it stands, and every other one on its Ed25519 signature.
-/

namespace Iuna

/-- `OutPoint`: the name of an output, ordered by id and then by index. -/
structure OutPoint where
  txid : Str
  index : ℕ
  deriving DecidableEq

instance : Ord OutPoint where
  compare := compareLex (compareOn OutPoint.txid) (compareOn OutPoint.index)

instance : Std.TransOrd OutPoint :=
  inferInstanceAs (Std.TransCmp (compareLex (compareOn OutPoint.txid) (compareOn OutPoint.index)))

instance : Std.LawfulEqOrd OutPoint where
  eq_of_compare {a b} h := by
    have hlex : (compareOn OutPoint.txid a b).then (compareOn OutPoint.index a b) = .eq := h
    rw [Ordering.then_eq_eq] at hlex
    obtain ⟨htxid, hindex⟩ := hlex
    cases a
    cases b
    simp only [compareOn] at htxid hindex
    rw [Std.LawfulEqOrd.eq_of_compare htxid, Std.LawfulEqOrd.eq_of_compare hindex]

/-- `OutPoint::id`. -/
def OutPoint.id (outpoint : OutPoint) : Str := colons [outpoint.txid, decimal outpoint.index]

/-- `TxInput`. -/
structure TxInput where
  outpoint : OutPoint
  owner : Str
  signature : Str
  deriving DecidableEq

/-- `TxOutput`. -/
structure TxOutput where
  address : Str
  amount : Amount
  deriving DecidableEq

/-- `Transaction`. -/
inductive Transaction
  | transfer (inputs : List TxInput) (outputs : List TxOutput) (fee : Amount) (signature : Str)
  | burn (inputs : List TxInput) (change : List TxOutput) (amount fee : Amount)
      (anchor : Option Str) (signature : Str)
  | mine (recipient anchor : Str) (salt nonce difficultyBits : ℕ) (proofHeader : Option Str)
      (signature : Str)
  deriving DecidableEq

/-! ## The signing domain -/

def transactionSigningFormatVersion : ℕ := 1

/-- `TransactionSigningDomain`. -/
structure TransactionSigningDomain where
  chainId : Str
  genesisHash : Str
  chainBound : Bool
  deriving DecidableEq

namespace TransactionSigningDomain

def new (chainId genesisHash : Str) : TransactionSigningDomain :=
  { chainId := chainId, genesisHash := genesisHash, chainBound := true }

def legacy : TransactionSigningDomain :=
  { chainId := [], genesisHash := [], chainBound := false }

/-- `for_height`: transactions are bound to the chain from the activation height on. -/
def forHeight (chainId genesisHash : Str) (height : ℕ) : TransactionSigningDomain :=
  if transactionSigningV1ActivationHeight ≤ height then new chainId genesisHash else legacy

end TransactionSigningDomain

/-- `encode_len`. -/
def encodeLen (len : ℕ) (label : String) : Result Bytes := do
  bailIf (u32Max < len) s!"{label} exceeds u32 length"
  pure (Wire.bigEndian 4 len)

/-- `encode_bytes`. -/
def encodeBytes (value : Bytes) (label : String) : Result Bytes := do
  let prefixBytes ← encodeLen value.length label
  pure (prefixBytes ++ value)

/-- `TransactionSigningDomain::encode`. -/
def TransactionSigningDomain.encode (domain : TransactionSigningDomain) : Result Bytes := do
  bailIf (domain.chainBound = false) "legacy transaction signing has no binary chain domain"
  let chainId ← encodeBytes (utf8 domain.chainId) "chain ID"
  let genesisHash ← withContext "transaction signing genesis hash is invalid"
    (decodeCanonicalHexArray hashBytes domain.genesisHash)
  let genesis ← encodeBytes genesisHash.val "genesis hash"
  pure (utf8 (str "IUNA-TX") ++ Wire.bigEndian 2 transactionSigningFormatVersion ++ chainId
    ++ genesis)

/-! ## Canonical texts and signing bytes -/

/-- `canonical_inputs`. -/
def canonicalInputs (inputs : List TxInput) : Str :=
  joinWith '|' (inputs.map fun input =>
    colons [input.outpoint.txid, decimal input.outpoint.index, input.owner])

/-- `canonical_outputs`. -/
def canonicalOutputs (outputs : List TxOutput) : Str :=
  joinWith '|' (outputs.map fun output => colons [output.address, decimal output.amount])

/-- `mine_payload`. -/
def minePayload (recipient anchor : Str) (salt nonce difficultyBits : ℕ) : Str :=
  colons [str "iuna-mine", recipient, anchor, decimal salt, decimal nonce, decimal difficultyBits]

namespace Transaction

/-- `signing_payload`: the canonical text of everything but the signature. -/
def signingPayload : Transaction → Str
  | transfer inputs outputs fee _ =>
    colons [str "utxo-transfer", canonicalInputs inputs, canonicalOutputs outputs, decimal fee]
  | burn inputs change amount fee (some anchor) _ =>
    colons [str "utxo-burn-v2", canonicalInputs inputs, canonicalOutputs change, decimal amount,
      decimal fee, anchor]
  | burn inputs change amount fee none _ =>
    colons [str "utxo-burn", canonicalInputs inputs, canonicalOutputs change, decimal amount,
      decimal fee]
  | mine recipient anchor salt nonce difficultyBits _ _ =>
    minePayload recipient anchor salt nonce difficultyBits

def signature : Transaction → Str
  | transfer _ _ _ signature => signature
  | burn _ _ _ _ _ signature => signature
  | mine _ _ _ _ _ _ signature => signature

/-- `canonical`. -/
def canonical (transaction : Transaction) : Str :=
  colons [transaction.signingPayload, transaction.signature]

def inputs : Transaction → List TxInput
  | transfer inputs _ _ _ => inputs
  | burn inputs _ _ _ _ _ => inputs
  | mine _ _ _ _ _ _ _ => []

def outputs : Transaction → List TxOutput
  | transfer _ outputs _ _ => outputs
  | burn _ change _ _ _ _ => change
  | mine recipient _ _ _ _ _ _ => [{ address := recipient, amount := mineReward }]

def fee : Transaction → Amount
  | transfer _ _ fee _ => fee
  | burn _ _ _ fee _ _ => fee
  | mine _ _ _ _ _ _ _ => mineFinalizerFee

/-- The amount a transaction destroys. -/
def burned : Transaction → Amount
  | transfer _ _ _ _ => 0
  | burn _ _ amount _ _ _ => amount
  | mine _ _ _ _ _ _ _ => 0

def isBurn : Transaction → Bool
  | burn _ _ _ _ _ _ => true
  | _ => false

def isMine : Transaction → Bool
  | mine _ _ _ _ _ _ _ => true
  | _ => false

/-- `sender`. -/
def sender (transaction : Transaction) : Str :=
  match transaction with
  | mine recipient _ _ _ _ _ _ => recipient
  | _ => (transaction.inputs.head?.map TxInput.owner).getD []

def burnAnchor : Transaction → Option Str
  | burn _ _ _ _ anchor _ => anchor
  | _ => none

end Transaction

/-- `encode_inputs`. -/
def encodeInputs (inputs : List TxInput) : Result Bytes := do
  let count ← encodeLen inputs.length "input count"
  let parts ← inputs.mapM fun input => do
    let txid ← withContext "transaction input txid is invalid"
      (decodeCanonicalHex input.outpoint.txid)
    bailIf (txid.length ≠ hashBytes ∧ txid.length ≠ signatureBytes)
      "transaction input txid must be a hash or signature"
    let txidBytes ← encodeBytes txid "input txid"
    let owner ← withContext "transaction input owner is invalid"
      (decodeCanonicalHexArray publicKeyBytes input.owner)
    let ownerBytes ← encodeBytes owner.val "input owner"
    pure (txidBytes ++ Wire.bigEndian 4 input.outpoint.index ++ ownerBytes)
  pure (count ++ parts.flatten)

/-- `encode_outputs`. -/
def encodeOutputs (outputs : List TxOutput) : Result Bytes := do
  let count ← encodeLen outputs.length "output count"
  let parts ← outputs.mapM fun output => do
    let address ← withContext "transaction output address is invalid"
      (decodeCanonicalHexArray publicKeyBytes output.address)
    let addressBytes ← encodeBytes address.val "output address"
    pure (addressBytes ++ Wire.bigEndian 8 output.amount)
  pure (count ++ parts.flatten)

/-- `Transaction::signing_bytes`: the binary preimage, bound to the chain. -/
def Transaction.signingBytes (domain : TransactionSigningDomain) : Transaction → Result Bytes
  | .transfer inputs outputs fee _ => do
    let start ← domain.encode
    let inputBytes ← encodeInputs inputs
    let outputBytes ← encodeOutputs outputs
    pure (start ++ [1] ++ inputBytes ++ outputBytes ++ Wire.bigEndian 8 fee)
  | .burn inputs change amount fee anchor _ => do
    let start ← domain.encode
    let inputBytes ← encodeInputs inputs
    let outputBytes ← encodeOutputs change
    let anchorBytes ← match anchor with
      | none => pure []
      | some anchor => do
        let hash ← withContext "burn anchor is invalid" (decodeCanonicalHexArray hashBytes anchor)
        encodeBytes hash.val "burn anchor"
    pure (start ++ [if anchor.isSome then 3 else 2] ++ inputBytes ++ outputBytes
      ++ Wire.bigEndian 8 amount ++ Wire.bigEndian 8 fee ++ anchorBytes)
  | .mine _ _ _ _ _ _ _ => bail "mine transactions use proof hashes instead of signatures"

/-! ## Mining proofs -/

variable [Crypto]

/-- `mine_signing_bytes`. -/
def mineSigningBytes (domain : TransactionSigningDomain) (recipient anchor : Str)
    (salt nonce difficultyBits : ℕ) : Result Bytes := do
  let start ← domain.encode
  let recipientBytes ← match decodeCanonicalHexArray publicKeyBytes recipient with
    | .ok key => encodeBytes key.val "mine recipient"
    | .error _ => do
      let network := if (str "tiuna1").isPrefixOf recipient then AddressNetwork.testnet
        else AddressNetwork.mainnet
      let address ← withContext "mine recipient is invalid"
        (decodeVersionedAddress recipient network)
      encodeBytes (address.version.wireId :: address.payload.val) "mine recipient"
  let anchorHash ← withContext "mine anchor is invalid" (decodeCanonicalHexArray hashBytes anchor)
  let anchorBytes ← encodeBytes anchorHash.val "mine anchor"
  pure (start ++ [3] ++ recipientBytes ++ anchorBytes ++ Wire.bigEndian 8 salt
    ++ Wire.bigEndian 8 nonce ++ Wire.bigEndian 4 difficultyBits)

/-- `mine_signature`. -/
def mineSignature (domain : TransactionSigningDomain) (recipient anchor : Str)
    (salt nonce difficultyBits : ℕ) : Result Str :=
  if domain.chainBound then do
    let bytes ← mineSigningBytes domain recipient anchor salt nonce difficultyBits
    pure (hexHashBytes bytes)
  else pure (hexHash (minePayload recipient anchor salt nonce difficultyBits))

/-- `stratum_coinbase_prefix`. -/
def stratumCoinbasePrefix (domain : TransactionSigningDomain) (recipient anchor : Str)
    (salt difficultyBits : ℕ) : Result Bytes :=
  if domain.chainBound then mineSigningBytes domain recipient anchor salt 0 difficultyBits
  else pure (utf8 (colons [str "iuna-stratum-mine", recipient, anchor, decimal salt,
    decimal difficultyBits, []]))

/-- `stratum_coinbase_bytes`: the upper half of the nonce is the second extranonce. -/
def stratumCoinbaseBytes (domain : TransactionSigningDomain) (recipient anchor : Str)
    (salt nonce difficultyBits : ℕ) : Result Bytes := do
  let start ← stratumCoinbasePrefix domain recipient anchor salt difficultyBits
  pure (start ++ [0, 0, 0, 0] ++ Wire.bigEndian 4 (nonce / 2 ^ 32))

/-- `double_sha256`. -/
def doubleSha256 (bytes : Bytes) : FixedBytes 32 := Crypto.sha256 (Crypto.sha256 bytes).val

/-- `stratum_mine_header_bytes`: the lower half of the nonce closes the header. -/
def stratumMineHeaderBytesOf (domain : TransactionSigningDomain) (recipient anchor : Str)
    (salt nonce difficultyBits : ℕ) : Result Bytes := do
  let anchorBytes ← withContext "mine transaction anchor is not hex"
    (if domain.chainBound then decodeCanonicalHexArray hashBytes anchor
      else decodeHexArray hashBytes anchor)
  let coinbase ← stratumCoinbaseBytes domain recipient anchor salt nonce difficultyBits
  pure ([1, 0, 0, 0] ++ anchorBytes.val ++ (doubleSha256 coinbase).val ++ [0, 0, 0, 0]
    ++ (Wire.bigEndian 4 difficultyBits).reverse
    ++ (Wire.bigEndian 4 (nonce % 2 ^ 32)).reverse)

/-- `stratum_mine_signature`. -/
def stratumMineSignature (header : Bytes) : Str := hexEncode (doubleSha256 header).val.reverse

omit [Crypto] in
/-- `char::to_digit(16)`. -/
def hexDigit (c : Char) : Option ℕ :=
  if '0' ≤ c ∧ c ≤ '9' then some (c.toNat - '0'.toNat)
  else if 'a' ≤ c ∧ c ≤ 'f' then some (c.toNat - 'a'.toNat + 10)
  else if 'A' ≤ c ∧ c ≤ 'F' then some (c.toNat - 'A'.toNat + 10)
  else none

/-- `hash_meets_difficulty`. -/
def hashMeetsDifficulty (hash : Str) (difficultyBits : ℕ) : Bool :=
  let fullZeroNibbles := difficultyBits / 4
  let remainingBits := difficultyBits % 4
  if hash.length < fullZeroNibbles + (if 0 < remainingBits then 1 else 0) then false
  else if ¬ (hash.take fullZeroNibbles).all (· = '0') then false
  else if remainingBits = 0 then true
  else match (hash[fullZeroNibbles]?).bind hexDigit with
    | none => false
    | some value => value < 2 ^ (4 - remainingBits)

/-! ## Signature verification -/

namespace Transaction

omit [Crypto] in
/-- `inputs_are_genesis_signed`. -/
def inputsAreGenesisSigned (transaction : Transaction) : Bool :=
  transaction.inputs.all fun input => input.signature = str "genesis"

/-- `Transaction::verify_signature`, with its early exits in the order of the source. -/
def verifySignature (transaction : Transaction) (domain : TransactionSigningDomain) :
    Result Unit :=
  match transaction with
  | mine recipient anchor salt nonce difficultyBits proofHeader signature => do
    let expected ← match proofHeader with
      | some proofHeader => do
        let header ← stratumMineHeaderBytesOf domain recipient anchor salt nonce difficultyBits
        bailIf (proofHeader ≠ hexEncode header) "mine transaction proof header is invalid"
        pure (stratumMineSignature header)
      | none => mineSignature domain recipient anchor salt nonce difficultyBits
    bailIf (signature ≠ expected) "mine transaction proof hash is invalid"
    bailIf (hashMeetsDifficulty signature difficultyBits = false)
      "mine transaction proof does not meet difficulty"
  | _ =>
    if (str "iuna-genesis-burn:").isPrefixOf transaction.signature
        ∨ transaction.inputsAreGenesisSigned then
      pure ()
    else do
      bailIf (¬ transaction.inputs.all fun input => input.signature = transaction.signature)
        "transaction input signature does not match transaction signature"
      let publicKey ← withContext s!"invalid public key for {String.ofList transaction.sender}"
        (if domain.chainBound then decodeCanonicalHexArray publicKeyBytes transaction.sender
          else decodeHexArray publicKeyBytes transaction.sender)
      let signature ← withContext "invalid signature hex"
        (if domain.chainBound then decodeCanonicalHexArray signatureBytes transaction.signature
          else decodeHexArray signatureBytes transaction.signature)
      let signingBytes ←
        if domain.chainBound then transaction.signingBytes domain
        else pure (utf8 transaction.signingPayload)
      verifyEd25519 publicKey signingBytes signature "transaction"

end Transaction

end Iuna
