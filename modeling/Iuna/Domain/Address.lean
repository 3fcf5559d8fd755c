import Iuna.Domain.Protocol

/-!
# Versioned addresses and field validators

Consensus data names an owner by a text: either the hexadecimal Ed25519 key of a legacy address,
or the Bech32m text of a versioned address, whose payload for address v1 is the commitment to a
hybrid key.  This module is `address.rs` with the Bech32m arithmetic, followed by the validators
of `validation.rs`, which check that a field is hexadecimal of the right length without asking
for the lower case.
-/

namespace Iuna

/-- `AddressNetwork`. -/
inductive AddressNetwork
  | mainnet
  | testnet
  deriving DecidableEq

/-- `AddressVersion`. -/
inductive AddressVersion
  | ed25519PublicKey
  | hybridKeyCommitment
  deriving DecidableEq

/-- `VersionedAddress`. -/
structure VersionedAddress where
  version : AddressVersion
  payload : FixedBytes 32
  deriving DecidableEq

/-- `AddressVersion::wire_id`. -/
def AddressVersion.wireId : AddressVersion → UInt8
  | .ed25519PublicKey => 0
  | .hybridKeyCommitment => 1

/-- `AddressVersion::from_wire_id`. -/
def AddressVersion.fromWireId (id : UInt8) : Option AddressVersion :=
  if id = 0 then some .ed25519PublicKey
  else if id = 1 then some .hybridKeyCommitment
  else none

@[simp] lemma AddressVersion.fromWireId_wireId (version : AddressVersion) :
    AddressVersion.fromWireId version.wireId = some version := by
  cases version <;> rfl

/-- `AddressNetwork::from_profile_id`. -/
def AddressNetwork.fromProfileId (profileId : Str) : AddressNetwork :=
  if profileId = str "iuna-local-testnet-v1" ∨ profileId = str "iuna-local-e2e-5s-v1" then .testnet
  else .mainnet

/-- `AddressNetwork::hrp`. -/
def AddressNetwork.hrp : AddressNetwork → Str
  | .mainnet => str "iuna"
  | .testnet => str "tiuna"

/-- `network_label`. -/
def networkLabel : AddressNetwork → String
  | .mainnet => "mainnet"
  | .testnet => "testnet"

/-- `network_label_for_hrp`. -/
def networkLabelForHrp (hrp : Str) : String :=
  if hrp = str "iuna" then "mainnet"
  else if hrp = str "tiuna" then "testnet"
  else "an unknown network"

/-! ## Bech32m -/

def bech32mConst : ℕ := 0x2bc830a3

def bech32Charset : Str := str "qpzry9x8gf2tvdw0s3jn54khce6mua7l"

def maxBech32Length : ℕ := 90

/-- The generators of the checksum, paired with their bit of the top value. -/
def bech32Generators : List (ℕ × ℕ) :=
  [(0, 0x3b6a57b2), (1, 0x26508e6d), (2, 0x1ea119fa), (3, 0x3d4233dd), (4, 0x2a1462b3)]

/-- `polymod`. -/
def polymod (values : List ℕ) : ℕ :=
  values.foldl (fun checksum value =>
    let top := checksum >>> 25
    bech32Generators.foldl (fun checksum entry =>
        if (top >>> entry.1) &&& 1 ≠ 0 then checksum ^^^ entry.2 else checksum)
      (((checksum &&& 0x01ffffff) <<< 5) ^^^ value)) 1

/-- `hrp_expand`. -/
def hrpExpand (hrp : Str) : List ℕ :=
  (utf8 hrp).map (fun byte => byte.toNat >>> 5) ++ 0 :: (utf8 hrp).map fun byte => byte.toNat &&& 31

/-- `create_checksum`. -/
def createChecksum (hrp : Str) (data : List ℕ) : List ℕ :=
  let value := polymod (hrpExpand hrp ++ data ++ List.replicate 6 0) ^^^ bech32mConst
  (List.range 6).map fun index => (value >>> (5 * (5 - index))) &&& 31

/-- `verify_checksum`. -/
def verifyChecksum (hrp : Str) (data : List ℕ) : Bool :=
  polymod (hrpExpand hrp ++ data) = bech32mConst

/-- The inner loop of `convert_bits`: the groups of `target` bits that the accumulator already holds,
and the number of bits left over. -/
def drainBits (target accumulator : ℕ) : ℕ → ℕ → List ℕ × ℕ
  | 0, bitCount => ([], bitCount)
  | fuel + 1, bitCount =>
    if target ≤ bitCount then
      let (rest, left) := drainBits target accumulator fuel (bitCount - target)
      (((accumulator >>> (bitCount - target)) &&& (2 ^ target - 1)) :: rest, left)
    else ([], bitCount)

/-- The outer loop of `convert_bits`, with its accumulator and bit count. -/
def convertBitsLoop (source target : ℕ) : List ℕ → ℕ → ℕ → Result (List ℕ × ℕ × ℕ)
  | [], accumulator, bitCount => .ok ([], accumulator, bitCount)
  | value :: values, accumulator, bitCount => do
    bailIf (value >>> source ≠ 0) "address payload contains an out-of-range value"
    let accumulator := ((accumulator <<< source) ||| value) &&& (2 ^ (source + target - 1) - 1)
    let (converted, left) := drainBits target accumulator (bitCount + source + 1) (bitCount + source)
    let (rest, accumulator, bitCount) ← convertBitsLoop source target values accumulator left
    pure (converted ++ rest, accumulator, bitCount)

/-- `convert_bits`. -/
def convertBits (data : List ℕ) (source target : ℕ) (pad : Bool) : Result (List ℕ) := do
  let (converted, accumulator, bitCount) ← convertBitsLoop source target data 0 0
  let padding := (accumulator <<< (target - bitCount)) &&& (2 ^ target - 1)
  if pad then
    pure (if 0 < bitCount then converted ++ [padding] else converted)
  else do
    bailIf (source ≤ bitCount ∨ padding ≠ 0) "address payload has invalid padding"
    pure converted

/-- `decode_charset`. -/
def decodeCharset (c : Char) : Result ℕ :=
  orError "address contains a character outside the Bech32 alphabet"
    (bech32Charset.findIdx? (· = c))

/-- The Unicode `White_Space` characters, which `str::trim` removes. -/
def isWhiteSpace (c : Char) : Bool :=
  let code := c.toNat
  (0x9 ≤ code ∧ code ≤ 0xd) ∨ code = 0x20 ∨ code = 0x85 ∨ code = 0xa0 ∨ code = 0x1680 ∨
    (0x2000 ≤ code ∧ code ≤ 0x200a) ∨ code = 0x2028 ∨ code = 0x2029 ∨ code = 0x202f ∨
    code = 0x205f ∨ code = 0x3000

/-- `str::trim`. -/
def trim (s : Str) : Str := ((s.dropWhile isWhiteSpace).reverse.dropWhile isWhiteSpace).reverse

/-- `str::rfind` of a character. -/
def lastIndexOf (c : Char) (s : Str) : Option ℕ :=
  (s.reverse.findIdx? (· = c)).map fun index => s.length - 1 - index

variable [Crypto]

/-- `encode_versioned_address`. -/
def encodeVersionedAddress (address : VersionedAddress) (network : AddressNetwork) :
    Result Str := do
  if address.version = .ed25519PublicKey then
    validateEd25519PublicKey address.payload
  let payload ← convertBits (address.payload.val.map UInt8.toNat) 8 5 true
  let data := address.version.wireId.toNat :: payload
  let checksum := createChecksum network.hrp data
  pure (network.hrp ++ '1' :: (data ++ checksum).map fun value => bech32Charset.getD value 'q')

/-- `decode_versioned_address`. -/
def decodeVersionedAddress (address : Str) (expectedNetwork : AddressNetwork) :
    Result VersionedAddress := do
  let address := trim address
  bailIf (address = []) "address is required"
  bailIf (maxBech32Length < byteLen address ∨ ¬ address.all fun c => c.toNat < 128)
    "address is not valid Bech32m"
  bailIf (address.any Char.isLower ∧ address.any Char.isUpper)
    "Bech32m address must not mix uppercase and lowercase"
  let normalized := address.map Char.toLower
  let separator ← orError "address is missing the Bech32m separator" (lastIndexOf '1' normalized)
  bailIf (separator = 0 ∨ normalized.length < separator + 7)
    "address has an invalid Bech32m structure"
  let hrp := normalized.take separator
  let found := networkLabelForHrp hrp
  let expected := networkLabel expectedNetwork
  bailIf (hrp ≠ expectedNetwork.hrp) s!"address belongs to {found} instead of {expected}"
  let data ← (normalized.drop (separator + 1)).mapM decodeCharset
  bailIf (verifyChecksum hrp data = false) "address checksum is invalid"
  match data.take (data.length - 6) with
  | [] => bail "address payload is empty"
  | version :: encodedKey => do
    let version ← orError s!"unsupported address version {version}"
      (AddressVersion.fromWireId (UInt8.ofNat version))
    let publicKey ← convertBits encodedKey 5 8 false
    let payload ← fixed 32 (publicKey.map UInt8.ofNat)
      s!"address public key has {publicKey.length} bytes"
    if version = .ed25519PublicKey then
      validateEd25519PublicKey payload
    pure { version := version, payload := payload }

/-! ## Validators -/

/-- `validate_address`. -/
def validateAddress (address : Str) (label : String) : Result Unit := do
  let _ ← withContext s!"invalid {label} address" (decodeHexArray publicKeyBytes address)
  pure ()

/-- `validate_hash`. -/
def validateHash (hash : Str) (label : String) : Result Unit := do
  let _ ← withContext s!"invalid {label}" (decodeHexArray hashBytes hash)
  pure ()

/-- `validate_signature`. -/
def validateSignature (signature : Str) (label : String) : Result Unit := do
  let _ ← withContext s!"invalid {label}" (decodeHexArray signatureBytes signature)
  pure ()

/-- `validate_stratum_header`. -/
def validateStratumHeader (header : Str) : Result Unit := do
  let _ ← withContext "invalid mine transaction proof header"
    (decodeHexArray stratumMineHeaderBytes header)
  pure ()

/-- `validate_protocol_id`. -/
def validateProtocolId (value : Str) (label : String) : Result Unit := do
  let bytes ← withContext s!"invalid {label}" (decodeHex value)
  bailIf (bytes.length ≠ hashBytes ∧ bytes.length ≠ signatureBytes)
    s!"invalid {label}: expected 32 or 64 bytes, got {bytes.length}"

/-- `decode_canonical_hex`: here the lower case is required. -/
def decodeCanonicalHex (value : Str) : Result Bytes := do
  let bytes ← decodeHex value
  bailIf (hexEncode bytes ≠ value) "hex must use canonical lowercase encoding"
  pure bytes

/-- `decode_canonical_hex_array::<N>`. -/
def decodeCanonicalHexArray (n : ℕ) (value : Str) : Result (FixedBytes n) := do
  let bytes ← decodeCanonicalHex value
  fixed n bytes s!"expected {n} hex bytes, got {bytes.length}"

omit [Crypto] in
/-- A canonical hexadecimal text is the text of the bytes it is read as. -/
lemma decodeCanonicalHex_eq_ok {value : Str} {bytes : Bytes} :
    decodeCanonicalHex value = .ok bytes ↔ value = hexEncode bytes := by
  simp only [decodeCanonicalHex, Outcome.bind_eq_ok, Outcome.bailIf_eq_ok, not_not,
    Outcome.pure_eq_ok]
  constructor
  · rintro ⟨_, _, _, hcanonical, rfl⟩
    exact hcanonical.symm
  · rintro rfl
    exact ⟨bytes, decodeHex_hexEncode bytes, ⟨⟩, rfl, rfl⟩

omit [Crypto] in
lemma decodeCanonicalHexArray_eq_ok {n : ℕ} {value : Str} {array : FixedBytes n} :
    decodeCanonicalHexArray n value = .ok array ↔ value = hexEncode array.val := by
  simp only [decodeCanonicalHexArray, Outcome.bind_eq_ok, decodeCanonicalHex_eq_ok, fixed_eq_ok]
  constructor
  · rintro ⟨bytes, rfl, hval⟩
    rw [hval]
  · rintro rfl
    exact ⟨_, rfl, rfl⟩

omit [Crypto] in
lemma validateAddress_eq_ok {address : Str} {label : String} {u : Unit} :
    validateAddress address label = .ok u ↔ ∃ key, decodeHexArray publicKeyBytes address = .ok key := by
  simp [validateAddress]

omit [Crypto] in
lemma validateSignature_length {signature : Str} {label : String} {u : Unit}
    (h : validateSignature signature label = .ok u) : signature.length = 128 := by
  simp only [validateSignature, Outcome.bind_eq_ok, Outcome.mapErr_eq_ok] at h
  obtain ⟨_, harray, _⟩ := h
  exact decodeHexArray_length harray

/-- `compact_len`: the number of seven-bit groups of an integer.  The value has at most 128 bits,
so nineteen groups always suffice. -/
def compactLen (value : ℕ) : ℕ := go 19 value
where
  go : ℕ → ℕ → ℕ
    | 0, _ => 1
    | fuel + 1, value => if 0x80 ≤ value then go fuel (value >>> 7) + 1 else 1

end Iuna
