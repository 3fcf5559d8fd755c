import Iuna.Properties.Authorization
import Iuna.Properties.SigningBytes

/-!
# The codec of v2 transactions

Every reader of `TransactionV2::decode` accepts exactly what its writer writes (`Inverts`), so the
codec is a bijection between the transactions that keep the shape rules and the byte strings that
decode (`decode_eq_ok_iff`): a transaction comes back from its encoding, and no two byte strings
decode to the same transaction.  The signing bytes are the encoding without the authorizations;
they determine the domain and every other field (`signingBytes_inj`).
-/

namespace Iuna

open Wire

/-! ## Parts -/

section Parts

variable (label : String)

lemma readTake_eq_ok {length : ℕ} {bytes taken rest : Bytes} :
    readTake length label bytes = .ok (taken, rest) ↔
      bytes = taken ++ rest ∧ taken.length = length :=
  Reader.take_eq_ok

lemma readUnsigned_inverts (width : ℕ) :
    Inverts (readUnsigned width label) (bigEndian width) (· < 256 ^ width) := by
  intro bytes n rest
  simp only [readUnsigned, Reader.bind_eq_ok, Reader.pure_eq_ok, readTake_eq_ok]
  constructor
  · intro h
    obtain ⟨taken, middle, ⟨rfl, rfl⟩, rfl, rfl⟩ := h
    obtain ⟨hbytes, hbound⟩ := bigEndian_ofBigEndian taken
    exact ⟨by rw [hbytes], hbound⟩
  · intro h
    obtain ⟨rfl, hbound⟩ := h
    exact ⟨bigEndian width n, rest, ⟨rfl, bigEndian_length width n⟩, ofBigEndian_bigEndian hbound,
      rfl⟩

lemma readArray_inverts (n : ℕ) :
    Inverts (readArray n label) (fun array : FixedBytes n => array.val) (fun _ => True) := by
  intro bytes array rest
  simp only [readArray, Reader.bind_eq_ok, Reader.lift_eq_ok, readTake_eq_ok, fixed_eq_ok,
    and_true]
  constructor
  · intro h
    obtain ⟨taken, middle, ⟨rfl, -⟩, harray, rfl⟩ := h
    rw [harray]
  · intro h
    exact ⟨array.val, rest, ⟨h, array.property⟩, rfl, rfl⟩

lemma readCount_inverts {maximum : ℕ} (small : maximum < 256 ^ 4) :
    Inverts (readCount maximum label) (bigEndian 4) (· ≤ maximum) := by
  intro bytes n rest
  simp only [readCount, Reader.bind_eq_ok, Reader.lift_eq_ok, Reader.pure_eq_ok,
    Outcome.bailIf_eq_ok, not_lt, readUnsigned_inverts label 4 bytes]
  constructor
  · intro h
    obtain ⟨count, middle, ⟨rfl, -⟩, _, last, ⟨hcount, rfl⟩, rfl, rfl⟩ := h
    exact ⟨rfl, hcount⟩
  · intro h
    obtain ⟨rfl, hcount⟩ := h
    exact ⟨n, rest, ⟨rfl, by omega⟩, ⟨⟩, rest, ⟨hcount, rfl⟩, rfl, rfl⟩

/-- A block of bytes behind its length. -/
def counted (bytes : Bytes) : Bytes := bigEndian 4 bytes.length ++ bytes

lemma readLengthPrefixed_inverts {maximum : ℕ} (small : maximum < 256 ^ 4) :
    Inverts (readLengthPrefixed maximum label) counted (·.length ≤ maximum) := by
  intro bytes value rest
  simp only [readLengthPrefixed, Reader.bind_eq_ok, Reader.lift_eq_ok, Outcome.bailIf_eq_ok, not_lt,
    readUnsigned_inverts label 4 bytes, readTake_eq_ok]
  constructor
  · intro h
    obtain ⟨_, middle, ⟨rfl, -⟩, _, last, ⟨hlength, rfl⟩, rfl, rfl⟩ := h
    exact ⟨by rw [counted, List.append_assoc], hlength⟩
  · intro h
    obtain ⟨rfl, hlength⟩ := h
    refine ⟨value.length, value ++ rest, ⟨?_, by omega⟩, ⟨⟩, value ++ rest, ⟨hlength, rfl⟩, rfl, rfl⟩
    rw [counted, List.append_assoc]

/-- A counted list of encoded elements. -/
def countedList {α : Type} (encode : α → Bytes) (values : List α) : Bytes :=
  bigEndian 4 values.length ++ values.flatMap encode

lemma decodeCounted_inverts {α : Type} {decode : Reader Error α} {encode : α → Bytes}
    {valid : α → Prop} (inverts : Inverts decode encode valid) {maximum : ℕ}
    (small : maximum < 256 ^ 4) :
    Inverts (decodeCounted decode maximum label) (countedList encode)
      (fun values => values.length ≤ maximum ∧ ∀ value ∈ values, valid value) := by
  intro bytes values rest
  simp only [decodeCounted, Reader.bind_eq_ok, readCount_inverts label small bytes,
    inverts.list _ _ _ _]
  constructor
  · intro h
    obtain ⟨count, middle, ⟨rfl, hcount⟩, rfl, rfl, hvalid⟩ := h
    exact ⟨by rw [countedList, List.append_assoc], hcount, hvalid⟩
  · intro h
    obtain ⟨rfl, hcount, hvalid⟩ := h
    refine ⟨values.length, values.flatMap encode ++ rest, ⟨?_, hcount⟩, rfl, rfl, hvalid⟩
    rw [countedList, List.append_assoc]

/-- A byte that names an alternative comes back as the integer that was read. -/
lemma readUnsigned_byte {bytes rest : Bytes} {n : ℕ} :
    readUnsigned 1 label bytes = .ok (n, rest) ↔
      bytes = UInt8.ofNat n :: rest ∧ n < 256 := by
  rw [readUnsigned_inverts label 1 bytes]
  rfl

end Parts

/-! ## Addresses, inputs and outputs -/

lemma AddressVersion.fromWireId_eq_some {id : UInt8} {version : AddressVersion} :
    AddressVersion.fromWireId id = some version ↔ id = version.wireId := by
  constructor
  · intro h
    unfold AddressVersion.fromWireId at h
    split at h
    · rename_i hid
      cases h
      exact hid
    · split at h
      · rename_i hid
        cases h
        exact hid
      · cases h
  · intro h
    rw [h, AddressVersion.fromWireId_wireId]

lemma SignatureScheme.fromWireId_eq_some {id : UInt8} {scheme : SignatureScheme} :
    SignatureScheme.fromWireId id = some scheme ↔ id = scheme.wireId := by
  constructor
  · intro h
    unfold SignatureScheme.fromWireId at h
    by_cases hzero : id = 0
    · rw [if_pos hzero] at h
      cases h
      exact hzero
    · rw [if_neg hzero] at h
      by_cases hone : id = 1
      · rw [if_pos hone] at h
        cases h
        exact hone
      · rw [if_neg hone] at h
        by_cases htwo : id = 2
        · rw [if_pos htwo] at h
          cases h
          exact htwo
        · rw [if_neg htwo] at h
          cases h
  · intro h
    rw [h, SignatureScheme.fromWireId_wireId]

lemma decodeAddressBytes_inverts (label : String) :
    Inverts (decodeAddressBytes label) encodeAddressBytes (fun _ => True) := by
  intro bytes address rest
  simp only [decodeAddressBytes, Reader.bind_eq_ok, Reader.lift_eq_ok, Reader.pure_eq_ok,
    Outcome.ofOption_eq_ok, AddressVersion.fromWireId_eq_some, readUnsigned_byte,
    readArray_inverts label 32 _ _ _, and_true]
  constructor
  · intro h
    obtain ⟨n, middle, ⟨rfl, -⟩, version, last, ⟨hversion, rfl⟩, payload, final, rfl, rfl, rfl⟩ := h
    rw [hversion]
    rfl
  · intro h
    refine ⟨address.version.wireId.toNat, address.payload.val ++ rest, ⟨?_, ?_⟩, address.version, _,
      ⟨?_, rfl⟩, address.payload, rest, rfl, rfl, rfl⟩
    · rw [UInt8.ofNat_toNat]
      exact h
    · exact address.version.wireId.toNat_lt
    · rw [UInt8.ofNat_toNat]

lemma decodeInputV2_inverts :
    Inverts decodeInputV2 encodeInputV2 (fun input => input.outpointIndex < 256 ^ 4) := by
  intro bytes input rest
  simp only [decodeInputV2, Reader.bind_eq_ok, Reader.pure_eq_ok, readArray_inverts _ 32 _ _ _,
    readUnsigned_inverts _ 4 _ _ _, decodeAddressBytes_inverts _ _ _ _, and_true]
  constructor
  · intro h
    obtain ⟨txid, middle, rfl, index, last, ⟨rfl, hindex⟩, owner, final, rfl, rfl, rfl⟩ := h
    exact ⟨by simp only [encodeInputV2, List.append_assoc], hindex⟩
  · intro h
    obtain ⟨rfl, hindex⟩ := h
    refine ⟨input.outpointTxid, _, ?_, input.outpointIndex, _, ⟨rfl, hindex⟩, input.owner, rest, rfl,
      rfl, rfl⟩
    simp only [encodeInputV2, List.append_assoc]

lemma decodeOutputV2_inverts :
    Inverts decodeOutputV2 encodeOutputV2 (fun output => output.amount < 256 ^ 8) := by
  intro bytes output rest
  simp only [decodeOutputV2, Reader.bind_eq_ok, Reader.pure_eq_ok,
    readUnsigned_inverts _ 8 _ _ _, decodeAddressBytes_inverts _ _ _ _, and_true]
  constructor
  · intro h
    obtain ⟨address, middle, rfl, amount, last, ⟨rfl, hamount⟩, rfl, rfl⟩ := h
    exact ⟨by simp only [encodeOutputV2, List.append_assoc], hamount⟩
  · intro h
    obtain ⟨rfl, hamount⟩ := h
    refine ⟨output.address, _, ?_, output.amount, rest, ⟨rfl, hamount⟩, rfl, rfl⟩
    simp only [encodeOutputV2, List.append_assoc]

/-- The id of a legacy transaction behind its kind. -/
def encodeLegacyId : LegacyTransactionId → Bytes
  | .hash value => 0 :: value.val
  | .signature value => 1 :: value.val

/-- The id of a legacy input, as `decode_legacy_inputs` reads it. -/
def decodeLegacyId : Reader Error LegacyTransactionId := do
  let kind ← readUnsigned 1 "legacy input ID kind"
  if kind = 0 then do
    let value ← readArray 32 "legacy input hash"
    pure (.hash value)
  else if kind = 1 then do
    let value ← readArray 64 "legacy input transaction signature"
    pure (.signature value)
  else Reader.lift (bail s!"unsupported legacy input ID kind {kind}")

lemma decodeLegacyId_inverts : Inverts decodeLegacyId encodeLegacyId (fun _ => True) := by
  intro bytes id rest
  simp only [decodeLegacyId, Reader.bind_eq_ok, readUnsigned_byte, and_true]
  constructor
  · intro h
    obtain ⟨kind, middle, ⟨rfl, -⟩, h⟩ := h
    by_cases hzero : kind = 0
    · rw [if_pos hzero] at h
      simp only [Reader.bind_eq_ok, Reader.pure_eq_ok, readArray_inverts _ 32 _ _ _, and_true] at h
      obtain ⟨value, last, rfl, rfl, rfl⟩ := h
      rw [hzero]
      rfl
    · rw [if_neg hzero] at h
      by_cases hone : kind = 1
      · rw [if_pos hone] at h
        simp only [Reader.bind_eq_ok, Reader.pure_eq_ok, readArray_inverts _ 64 _ _ _, and_true]
          at h
        obtain ⟨value, last, rfl, rfl, rfl⟩ := h
        rw [hone]
        rfl
      · rw [if_neg hone] at h
        simp [bail] at h
  · intro h
    cases id with
    | hash value =>
      refine ⟨0, value.val ++ rest, ⟨h, by decide⟩, ?_⟩
      rw [if_pos rfl]
      simp only [Reader.bind_eq_ok, Reader.pure_eq_ok, readArray_inverts _ 32 _ _ _, and_true]
      exact ⟨value, rest, rfl, rfl, rfl⟩
    | signature value =>
      refine ⟨1, value.val ++ rest, ⟨h, by decide⟩, ?_⟩
      rw [if_neg (by decide), if_pos rfl]
      simp only [Reader.bind_eq_ok, Reader.pure_eq_ok, readArray_inverts _ 64 _ _ _, and_true]
      exact ⟨value, rest, rfl, rfl, rfl⟩

lemma decodeLegacyInputV2_eq :
    decodeLegacyInputV2 = (do
      let outpointId ← decodeLegacyId
      let outpointIndex ← readUnsigned 4 "legacy input output index"
      let owner ← decodeAddressBytes "legacy input owner"
      pure { outpointId := outpointId, outpointIndex := outpointIndex, owner := owner }) := by
  unfold decodeLegacyInputV2 decodeLegacyId
  rw [Reader.bind_assoc]
  congr 1
  funext kind
  by_cases hzero : kind = 0
  · rw [if_pos hzero, if_pos hzero, Reader.bind_assoc]
  · rw [if_neg hzero, if_neg hzero]
    by_cases hone : kind = 1
    · rw [if_pos hone, if_pos hone, Reader.bind_assoc]
    · rw [if_neg hone, if_neg hone]

lemma encodeLegacyInputV2_eq (input : TransactionV2LegacyInput) :
    encodeLegacyInputV2 input = encodeLegacyId input.outpointId
      ++ (bigEndian 4 input.outpointIndex ++ encodeAddressBytes input.owner) := by
  obtain ⟨id, index, owner⟩ := input
  cases id with
  | hash value => simp [encodeLegacyInputV2, encodeLegacyId]
  | signature value => simp [encodeLegacyInputV2, encodeLegacyId]

lemma decodeLegacyInputV2_inverts :
    Inverts decodeLegacyInputV2 encodeLegacyInputV2
      (fun input => input.outpointIndex < 256 ^ 4) := by
  intro bytes input rest
  simp only [decodeLegacyInputV2_eq, Reader.bind_eq_ok, Reader.pure_eq_ok,
    decodeLegacyId_inverts _ _ _, readUnsigned_inverts _ 4 _ _ _,
    decodeAddressBytes_inverts _ _ _ _, and_true]
  constructor
  · intro h
    obtain ⟨id, middle, rfl, index, last, ⟨rfl, hindex⟩, owner, final, rfl, rfl, rfl⟩ := h
    exact ⟨by simp only [encodeLegacyInputV2_eq, List.append_assoc], hindex⟩
  · intro h
    obtain ⟨rfl, hindex⟩ := h
    refine ⟨input.outpointId, _, ?_, input.outpointIndex, _, ⟨rfl, hindex⟩, input.owner, rest, rfl,
      rfl, rfl⟩
    simp only [encodeLegacyInputV2_eq, List.append_assoc]

lemma decodeOptionalArray_inverts (n : ℕ) (label : String) :
    Inverts (decodeOptionalArray n label) encodeOptionalArray (fun _ => True) := by
  intro bytes value rest
  simp only [decodeOptionalArray, Reader.bind_eq_ok, readUnsigned_byte, and_true]
  constructor
  · intro h
    obtain ⟨marker, middle, ⟨rfl, -⟩, h⟩ := h
    by_cases hzero : marker = 0
    · rw [if_pos hzero] at h
      obtain ⟨rfl, rfl⟩ := Reader.pure_eq_ok.mp h
      rw [hzero]
      rfl
    · rw [if_neg hzero] at h
      by_cases hone : marker = 1
      · rw [if_pos hone] at h
        simp only [Reader.bind_eq_ok, Reader.pure_eq_ok, readArray_inverts _ n _ _ _, and_true] at h
        obtain ⟨array, last, rfl, rfl, rfl⟩ := h
        rw [hone]
        rfl
      · rw [if_neg hone] at h
        simp [bail] at h
  · intro h
    cases value with
    | none =>
      refine ⟨0, rest, ⟨h, by decide⟩, ?_⟩
      rw [if_pos rfl]
      exact Reader.pure_eq_ok.mpr ⟨rfl, rfl⟩
    | some array =>
      refine ⟨1, array.val ++ rest, ⟨h, by decide⟩, ?_⟩
      rw [if_neg (by decide), if_pos rfl]
      simp only [Reader.bind_eq_ok, Reader.pure_eq_ok, readArray_inverts _ n _ _ _, and_true]
      exact ⟨array, rest, rfl, rfl, rfl⟩

/-! ## Authorizations -/

lemma buildAuthorization_eq_ok {scheme : SignatureScheme} {publicKey signature : Bytes}
    {authorization : V2SpendingAuthorization} :
    buildAuthorization scheme publicKey signature = .ok authorization ↔
      authorization.publicKey.scheme = scheme ∧ authorization.publicKey.bytes.val = publicKey ∧
        authorization.signature.val = signature := by
  simp only [buildAuthorization, Outcome.bind_eq_ok, Outcome.pure_eq_ok, fixed_eq_ok]
  constructor
  · intro h
    obtain ⟨key, hkey, sig, hsig, rfl⟩ := h
    exact ⟨rfl, hkey, hsig⟩
  · intro h
    obtain ⟨rfl, hkey, hsig⟩ := h
    exact ⟨authorization.publicKey.bytes, hkey, authorization.signature, hsig, rfl⟩

lemma decodeAuthorization_inverts :
    Inverts decodeAuthorization encodeAuthorization (fun _ => True) := by
  intro bytes authorization rest
  have hkeySmall (scheme : SignatureScheme) : scheme.publicKeyBytes < 256 ^ 4 := by
    cases scheme <;> decide
  have hsigSmall (scheme : SignatureScheme) : scheme.signatureBytes < 256 ^ 4 := by
    cases scheme <;> decide
  simp only [decodeAuthorization, Reader.bind_eq_ok, Reader.lift_eq_ok, readUnsigned_byte,
    Outcome.ofOption_eq_ok, Outcome.bailIf_eq_ok, SignatureScheme.fromWireId_eq_some, not_not,
    readLengthPrefixed_inverts _ (hkeySmall _) _ _ _,
    readLengthPrefixed_inverts _ (hsigSmall _) _ _ _, buildAuthorization_eq_ok, and_true]
  constructor
  · intro h
    obtain ⟨n, middle, ⟨rfl, -⟩, scheme, _, ⟨hscheme, rfl⟩, key, last, ⟨rfl, -⟩, _, _, ⟨-, rfl⟩,
      signature, final, ⟨rfl, -⟩, ⟨rfl, rfl, rfl⟩, rfl⟩ := h
    rw [hscheme]
    simp only [encodeAuthorization, V2SpendingAuthorization.scheme, counted, List.cons_append,
      List.append_assoc]
  · intro h
    obtain ⟨⟨scheme, key⟩, signature⟩ := authorization
    refine ⟨scheme.wireId.toNat, counted key.val ++ (counted signature.val ++ rest), ⟨?_, ?_⟩, scheme,
      _, ⟨?_, rfl⟩, key.val, counted signature.val ++ rest, ⟨rfl, ?_⟩, ⟨⟩, _, ⟨key.property, rfl⟩,
      signature.val, rest, ⟨rfl, ?_⟩, ⟨rfl, rfl, rfl⟩, rfl⟩
    · rw [UInt8.ofNat_toNat, h]
      simp only [encodeAuthorization, V2SpendingAuthorization.scheme, counted, List.cons_append,
        List.append_assoc]
    · exact scheme.wireId.toNat_lt
    · rw [UInt8.ofNat_toNat]
    · exact key.property.le
    · exact signature.property.le

/-! ## Unsigned bodies -/

namespace TransactionV2

/-- A transaction before it is signed. -/
def withoutAuthorizations : TransactionV2 → TransactionV2
  | migration inputs outputs fee _ => migration inputs outputs fee []
  | transfer inputs outputs fee _ => transfer inputs outputs fee []
  | burn inputs change amount fee anchor _ => burn inputs change amount fee anchor []
  | transaction => transaction

/-- The integers of a transaction are in the range of their types, `u32` and `u64`. -/
def FieldsFit : TransactionV2 → Prop
  | migration inputs outputs fee _ =>
    (∀ input ∈ inputs, input.outpointIndex < 256 ^ 4) ∧
      (∀ output ∈ outputs, output.amount < 256 ^ 8) ∧ fee < 256 ^ 8
  | transfer inputs outputs fee _ =>
    (∀ input ∈ inputs, input.outpointIndex < 256 ^ 4) ∧
      (∀ output ∈ outputs, output.amount < 256 ^ 8) ∧ fee < 256 ^ 8
  | burn inputs change amount fee _ _ =>
    (∀ input ∈ inputs, input.outpointIndex < 256 ^ 4) ∧
      (∀ output ∈ change, output.amount < 256 ^ 8) ∧ amount < 256 ^ 8 ∧ fee < 256 ^ 8
  | mine _ _ salt nonce difficultyBits _ _ =>
    salt < 256 ^ 8 ∧ nonce < 256 ^ 8 ∧ difficultyBits < 256 ^ 4

/-- The lists of a transaction are within their limits. -/
def CountsFit (transaction : TransactionV2) : Prop :=
  transaction.inputCount ≤ maxV2Inputs ∧ transaction.outputs.length ≤ maxV2Outputs

/-- The bytes of `encode_unsigned_body`. -/
def bodyBytes : TransactionV2 → Bytes
  | migration inputs outputs fee _ =>
    4 :: (countedList encodeLegacyInputV2 inputs ++ (countedList encodeOutputV2 outputs
      ++ bigEndian 8 fee))
  | transfer inputs outputs fee _ =>
    1 :: (countedList encodeInputV2 inputs ++ (countedList encodeOutputV2 outputs
      ++ bigEndian 8 fee))
  | burn inputs change amount fee anchor _ =>
    2 :: (countedList encodeInputV2 inputs ++ (countedList encodeOutputV2 change
      ++ (bigEndian 8 amount ++ (bigEndian 8 fee ++ encodeOptionalArray anchor))))
  | mine recipient anchor salt nonce difficultyBits proofHeader proofHash =>
    3 :: (encodeAddressBytes recipient ++ (anchor.val ++ (bigEndian 8 salt ++ (bigEndian 8 nonce
      ++ (bigEndian 4 difficultyBits ++ (encodeOptionalArray proofHeader ++ proofHash.val))))))

@[simp] lemma bodyBytes_withoutAuthorizations (transaction : TransactionV2) :
    transaction.withoutAuthorizations.bodyBytes = transaction.bodyBytes := by
  cases transaction <;> rfl

end TransactionV2

lemma encodeCounted_eq_ok {α : Type} {encode : α → Bytes} {values : List α} {label : String}
    {bytes : Bytes} :
    encodeCounted encode values label = .ok bytes ↔
      values.length ≤ u32Max ∧ countedList encode values = bytes := by
  simp [encodeCounted, encodeCount, countedList]

namespace TransactionV2

lemma encodeUnsignedBody_of_counts {transaction : TransactionV2}
    (counts : transaction.CountsFit) :
    transaction.encodeUnsignedBody = .ok transaction.bodyBytes := by
  obtain ⟨hinputs, houtputs⟩ := counts
  have hsmallInputs : maxV2Inputs ≤ u32Max := by decide
  have hsmallOutputs : maxV2Outputs ≤ u32Max := by decide
  cases transaction with
  | migration inputs outputs fee authorizations =>
    simp only [encodeUnsignedBody, Outcome.bind_eq_ok, Outcome.pure_eq_ok, encodeCounted_eq_ok]
    refine ⟨_, ⟨hinputs.trans hsmallInputs, rfl⟩, _, ⟨houtputs.trans hsmallOutputs, rfl⟩, ?_⟩
    simp only [bodyBytes, List.cons_append, List.append_assoc]
  | transfer inputs outputs fee authorizations =>
    simp only [encodeUnsignedBody, Outcome.bind_eq_ok, Outcome.pure_eq_ok, encodeCounted_eq_ok]
    refine ⟨_, ⟨hinputs.trans hsmallInputs, rfl⟩, _, ⟨houtputs.trans hsmallOutputs, rfl⟩, ?_⟩
    simp only [bodyBytes, List.cons_append, List.append_assoc]
  | burn inputs change amount fee anchor authorizations =>
    simp only [encodeUnsignedBody, Outcome.bind_eq_ok, Outcome.pure_eq_ok, encodeCounted_eq_ok]
    refine ⟨_, ⟨hinputs.trans hsmallInputs, rfl⟩, _, ⟨houtputs.trans hsmallOutputs, rfl⟩, ?_⟩
    simp only [bodyBytes, List.cons_append, List.append_assoc]
  | mine recipient anchor salt nonce difficultyBits proofHeader proofHash =>
    simp only [encodeUnsignedBody, Outcome.pure_eq_ok, bodyBytes, List.cons_append,
      List.append_assoc]

/-- What the decoder reads as a body: a transaction within the limits that still lacks its
authorizations. -/
structure IsBody (transaction : TransactionV2) : Prop where
  unsigned : transaction.withoutAuthorizations = transaction
  counts : transaction.CountsFit
  fields : transaction.FieldsFit

lemma decodeInputs_inverts (label : String) :
    Inverts (decodeCounted decodeInputV2 maxV2Inputs label) (countedList encodeInputV2)
      (fun inputs => inputs.length ≤ maxV2Inputs ∧
        ∀ input ∈ inputs, input.outpointIndex < 256 ^ 4) :=
  decodeCounted_inverts label decodeInputV2_inverts (by decide)

lemma decodeLegacyInputs_inverts (label : String) :
    Inverts (decodeCounted decodeLegacyInputV2 maxV2Inputs label) (countedList encodeLegacyInputV2)
      (fun inputs => inputs.length ≤ maxV2Inputs ∧
        ∀ input ∈ inputs, input.outpointIndex < 256 ^ 4) :=
  decodeCounted_inverts label decodeLegacyInputV2_inverts (by decide)

lemma decodeOutputs_inverts (label : String) :
    Inverts (decodeCounted decodeOutputV2 maxV2Outputs label) (countedList encodeOutputV2)
      (fun outputs => outputs.length ≤ maxV2Outputs ∧
        ∀ output ∈ outputs, output.amount < 256 ^ 8) :=
  decodeCounted_inverts label decodeOutputV2_inverts (by decide)

/-- A body that is read is the body that was written. -/
lemma decodeUnsignedBody_sound {bytes rest : Bytes} {transaction : TransactionV2}
    (h : decodeUnsignedBody bytes = .ok (transaction, rest)) :
    bytes = transaction.bodyBytes ++ rest ∧ transaction.IsBody := by
  simp only [decodeUnsignedBody, Reader.bind_eq_ok, readUnsigned_byte] at h
  obtain ⟨kind, middle, ⟨rfl, -⟩, h⟩ := h
  by_cases hone : kind = 1
  · rw [if_pos hone] at h
    simp only [Reader.bind_eq_ok, Reader.pure_eq_ok, readUnsigned_inverts _ 8 _ _ _,
      decodeInputs_inverts _ _ _ _, decodeOutputs_inverts _ _ _ _] at h
    obtain ⟨inputs, _, ⟨rfl, hcount, hinputs⟩, outputs, _, ⟨rfl, hcount', houtputs⟩, fee, _,
      ⟨rfl, hfee⟩, rfl, rfl⟩ := h
    rw [hone]
    exact ⟨by simp [bodyBytes], rfl, ⟨hcount, hcount'⟩, hinputs, houtputs, hfee⟩
  rw [if_neg hone] at h
  by_cases htwo : kind = 2
  · rw [if_pos htwo] at h
    simp only [Reader.bind_eq_ok, Reader.pure_eq_ok, readUnsigned_inverts _ 8 _ _ _,
      decodeInputs_inverts _ _ _ _, decodeOutputs_inverts _ _ _ _,
      decodeOptionalArray_inverts _ _ _ _ _, and_true] at h
    obtain ⟨inputs, _, ⟨rfl, hcount, hinputs⟩, change, _, ⟨rfl, hcount', hchange⟩, amount, _,
      ⟨rfl, hamount⟩, fee, _, ⟨rfl, hfee⟩, anchor, _, rfl, rfl, rfl⟩ := h
    rw [htwo]
    exact ⟨by simp [bodyBytes], rfl, ⟨hcount, hcount'⟩, hinputs, hchange, hamount, hfee⟩
  rw [if_neg htwo] at h
  by_cases hthree : kind = 3
  · rw [if_pos hthree] at h
    simp only [Reader.bind_eq_ok, Reader.pure_eq_ok, readUnsigned_inverts _ 8 _ _ _,
      readUnsigned_inverts _ 4 _ _ _, decodeAddressBytes_inverts _ _ _ _,
      readArray_inverts _ 32 _ _ _, decodeOptionalArray_inverts _ _ _ _ _, and_true] at h
    obtain ⟨recipient, _, rfl, anchor, _, rfl, salt, _, ⟨rfl, hsalt⟩, nonce, _, ⟨rfl, hnonce⟩,
      difficultyBits, _, ⟨rfl, hbits⟩, proofHeader, _, rfl, proofHash, _, rfl, rfl, rfl⟩ := h
    rw [hthree]
    exact ⟨by simp [bodyBytes], rfl, ⟨Nat.zero_le _, Nat.zero_le _⟩, hsalt, hnonce, hbits⟩
  rw [if_neg hthree] at h
  by_cases hfour : kind = 4
  · rw [if_pos hfour] at h
    simp only [Reader.bind_eq_ok, Reader.pure_eq_ok, readUnsigned_inverts _ 8 _ _ _,
      decodeLegacyInputs_inverts _ _ _ _, decodeOutputs_inverts _ _ _ _] at h
    obtain ⟨inputs, _, ⟨rfl, hcount, hinputs⟩, outputs, _, ⟨rfl, hcount', houtputs⟩, fee, _,
      ⟨rfl, hfee⟩, rfl, rfl⟩ := h
    rw [hfour]
    exact ⟨by simp [bodyBytes], rfl, ⟨hcount, hcount'⟩, hinputs, houtputs, hfee⟩
  · rw [if_neg hfour] at h
    simp [bail] at h

/-- A body that was written is read back. -/
lemma decodeUnsignedBody_complete {transaction : TransactionV2} (body : transaction.IsBody)
    (rest : Bytes) :
    decodeUnsignedBody (transaction.bodyBytes ++ rest) = .ok (transaction, rest) := by
  obtain ⟨hunsigned, ⟨hcount, hcount'⟩, hfields⟩ := body
  cases transaction with
  | transfer inputs outputs fee authorizations =>
    obtain ⟨hinputs, houtputs, hfee⟩ := hfields
    simp only [decodeUnsignedBody, bodyBytes, Reader.bind_eq_ok, readUnsigned_byte,
      List.cons_append, List.append_assoc]
    refine ⟨1, _, ⟨rfl, by decide⟩, ?_⟩
    rw [if_pos rfl]
    simp only [Reader.bind_eq_ok, Reader.pure_eq_ok, readUnsigned_inverts _ 8 _ _ _,
      decodeInputs_inverts _ _ _ _, decodeOutputs_inverts _ _ _ _]
    exact ⟨inputs, _, ⟨rfl, hcount, hinputs⟩, outputs, _, ⟨rfl, hcount', houtputs⟩, fee, rest,
      ⟨rfl, hfee⟩, hunsigned, rfl⟩
  | burn inputs change amount fee anchor authorizations =>
    obtain ⟨hinputs, hchange, hamount, hfee⟩ := hfields
    simp only [decodeUnsignedBody, bodyBytes, Reader.bind_eq_ok, readUnsigned_byte,
      List.cons_append, List.append_assoc]
    refine ⟨2, _, ⟨rfl, by decide⟩, ?_⟩
    rw [if_neg (by decide), if_pos rfl]
    simp only [Reader.bind_eq_ok, Reader.pure_eq_ok, readUnsigned_inverts _ 8 _ _ _,
      decodeInputs_inverts _ _ _ _, decodeOutputs_inverts _ _ _ _,
      decodeOptionalArray_inverts _ _ _ _ _, and_true]
    exact ⟨inputs, _, ⟨rfl, hcount, hinputs⟩, change, _, ⟨rfl, hcount', hchange⟩, amount, _,
      ⟨rfl, hamount⟩, fee, _, ⟨rfl, hfee⟩, anchor, rest, rfl, hunsigned, rfl⟩
  | mine recipient anchor salt nonce difficultyBits proofHeader proofHash =>
    obtain ⟨hsalt, hnonce, hbits⟩ := hfields
    simp only [decodeUnsignedBody, bodyBytes, Reader.bind_eq_ok, readUnsigned_byte,
      List.cons_append, List.append_assoc]
    refine ⟨3, _, ⟨rfl, by decide⟩, ?_⟩
    rw [if_neg (by decide), if_neg (by decide), if_pos rfl]
    simp only [Reader.bind_eq_ok, Reader.pure_eq_ok, readUnsigned_inverts _ 8 _ _ _,
      readUnsigned_inverts _ 4 _ _ _, decodeAddressBytes_inverts _ _ _ _,
      readArray_inverts _ 32 _ _ _, decodeOptionalArray_inverts _ _ _ _ _, and_true]
    exact ⟨recipient, _, rfl, anchor, _, rfl, salt, _, ⟨rfl, hsalt⟩, nonce, _, ⟨rfl, hnonce⟩,
      difficultyBits, _, ⟨rfl, hbits⟩, proofHeader, _, rfl, proofHash, rest, rfl, rfl, rfl⟩
  | migration inputs outputs fee authorizations =>
    obtain ⟨hinputs, houtputs, hfee⟩ := hfields
    simp only [decodeUnsignedBody, bodyBytes, Reader.bind_eq_ok, readUnsigned_byte,
      List.cons_append, List.append_assoc]
    refine ⟨4, _, ⟨rfl, by decide⟩, ?_⟩
    rw [if_neg (by decide), if_neg (by decide), if_neg (by decide), if_pos rfl]
    simp only [Reader.bind_eq_ok, Reader.pure_eq_ok, readUnsigned_inverts _ 8 _ _ _,
      decodeLegacyInputs_inverts _ _ _ _, decodeOutputs_inverts _ _ _ _]
    exact ⟨inputs, _, ⟨rfl, hcount, hinputs⟩, outputs, _, ⟨rfl, hcount', houtputs⟩, fee, rest,
      ⟨rfl, hfee⟩, hunsigned, rfl⟩

lemma decodeUnsignedBody_inverts : Inverts decodeUnsignedBody bodyBytes IsBody := by
  intro bytes transaction rest
  constructor
  · exact decodeUnsignedBody_sound
  · intro h
    obtain ⟨rfl, body⟩ := h
    exact decodeUnsignedBody_complete body rest

end TransactionV2

/-! ## Domains -/

/-- A domain that `TransactionV2Domain::new` accepts. -/
def TransactionV2Domain.Valid (domain : TransactionV2Domain) : Prop :=
  TransactionV2Domain.new domain.chainId domain.genesisHash = .ok domain

lemma TransactionV2Domain.new_eq_ok {chainId : Str} {genesisHash : FixedBytes 32}
    {domain : TransactionV2Domain} :
    TransactionV2Domain.new chainId genesisHash = .ok domain ↔
      chainId = domain.chainId ∧ genesisHash = domain.genesisHash ∧ domain.Valid := by
  unfold Valid
  constructor
  · intro h
    have hsame := h
    simp only [new, Outcome.bind_eq_ok, Outcome.pure_eq_ok] at hsame
    obtain ⟨_, -, rfl⟩ := hsame
    exact ⟨rfl, rfl, h⟩
  · intro h
    obtain ⟨rfl, rfl, hvalid⟩ := h
    exact hvalid

lemma TransactionV2Domain.valid_iff {domain : TransactionV2Domain} :
    domain.Valid ↔ domain.chainId ≠ [] ∧ byteLen domain.chainId ≤ maxChainIdBytes ∧
      ∀ c ∈ domain.chainId, c.toNat < 128 := by
  simp [Valid, new]

/-- An ASCII character is one byte. -/
lemma utf8EncodeChar_ascii {c : Char} (ascii : c.toNat < 128) :
    String.utf8EncodeChar c = [UInt8.ofNat c.toNat] := by
  unfold String.utf8EncodeChar
  have hsmall : c.val.toNat ≤ 0x7f := by
    have : c.val.toNat = c.toNat := rfl
    omega
  simp only [hsmall, if_true]
  rfl

lemma utf8_ascii {s : Str} (ascii : ∀ c ∈ s, c.toNat < 128) :
    utf8 s = s.map fun c => UInt8.ofNat c.toNat := by
  induction s with
  | nil => rfl
  | cons c s ih =>
    rw [utf8_cons, List.map_cons, utf8EncodeChar_ascii (ascii c List.mem_cons_self),
      ih fun c hc => ascii c (List.mem_cons_of_mem _ hc)]
    rfl

lemma Char.toNat_ofNat_ascii {n : ℕ} (ascii : n < 128) : (Char.ofNat n).toNat = n := by
  have hvalid : n.isValidChar := .inl (by omega)
  simp [Char.ofNat, hvalid, Char.toNat, Char.ofNatAux]

namespace TransactionV2

/-- The chain id of a prefix is the text whose bytes were written, if that text is ASCII. -/
lemma chainIdOfBytes_eq_ok {bytes : Bytes} {chainId : Str} :
    chainIdOfBytes bytes = .ok chainId ↔
      bytes = utf8 chainId ∧ ∀ c ∈ chainId, c.toNat < 128 := by
  simp only [chainIdOfBytes, Outcome.bind_eq_ok, Outcome.bailIf_eq_ok, Outcome.pure_eq_ok,
    List.any_eq_true, decide_eq_true_eq, not_exists, not_and, not_le]
  constructor
  · intro h
    obtain ⟨_, hsmall, rfl⟩ := h
    have hascii : ∀ c ∈ bytes.map fun byte => Char.ofNat byte.toNat, c.toNat < 128 := by
      intro c hc
      obtain ⟨byte, hbyte, rfl⟩ := List.mem_map.mp hc
      rw [Char.toNat_ofNat_ascii (hsmall byte hbyte)]
      exact hsmall byte hbyte
    refine ⟨?_, hascii⟩
    rw [utf8_ascii hascii, List.map_map]
    conv_lhs => rw [← List.map_id bytes]
    apply List.map_congr_left
    intro byte hbyte
    simp only [id_eq, Function.comp_apply]
    rw [Char.toNat_ofNat_ascii (hsmall byte hbyte), UInt8.ofNat_toNat]
  · intro h
    obtain ⟨rfl, hascii⟩ := h
    have hbyte : ∀ c ∈ chainId, (UInt8.ofNat c.toNat).toNat = c.toNat := by
      intro c hc
      have hsmall := hascii c hc
      rw [UInt8.toNat_ofNat']
      omega
    rw [utf8_ascii hascii]
    refine ⟨⟨⟩, ?_, ?_⟩
    · intro byte hmem
      obtain ⟨c, hc, rfl⟩ := List.mem_map.mp hmem
      rw [hbyte c hc]
      exact hascii c hc
    · rw [List.map_map]
      conv_rhs => rw [← List.map_id chainId]
      apply List.map_congr_left
      intro c hc
      simp only [id_eq, Function.comp_apply]
      rw [hbyte c hc, Char.ofNat_toNat]

end TransactionV2

/-- The bytes of `encode_prefix`. -/
def prefixBytes (domain : TransactionV2Domain) : Bytes :=
  utf8 (str "IUNA-TX-V2") ++ (bigEndian 2 transactionV2WireVersion
    ++ (counted (utf8 domain.chainId) ++ domain.genesisHash.val))

lemma encodePrefix_of_valid {domain : TransactionV2Domain} (valid : domain.Valid) :
    encodePrefix domain = .ok (prefixBytes domain) := by
  have hlength : (utf8 domain.chainId).length ≤ u32Max :=
    (TransactionV2Domain.valid_iff.mp valid).2.1.trans (by decide)
  simp only [encodePrefix, encodeCountedBytes, encodeCount, Outcome.bind_eq_ok,
    Outcome.bailIf_eq_ok, Outcome.pure_eq_ok]
  refine ⟨_, ⟨_, ⟨⟨⟩, by omega, rfl⟩, rfl⟩, ?_⟩
  simp only [prefixBytes, counted, List.append_assoc]

/-! ## Shapes -/

namespace TransactionV2

lemma uniqueOwners_length_le (owners : List VersionedAddress) :
    (uniqueOwners owners).length ≤ owners.length := by
  obtain ⟨hdistinct, hmem⟩ := uniqueOwners_spec owners
  exact (hdistinct.subperm fun owner howner => (hmem owner).mp howner).length_le

lemma length_owners (transaction : TransactionV2) :
    transaction.owners.length = transaction.inputCount := by
  cases transaction <;> simp [owners, inputCount]

/-- The shape rules bound every list of a transaction. -/
lemma validateShape_counts {transaction : TransactionV2}
    (shape : transaction.validateShape = .ok ⟨⟩) :
    transaction.CountsFit ∧ transaction.authorizations.length ≤ maxV2Inputs := by
  unfold validateShape at shape
  obtain ⟨_, hunsigned, hauthorizations⟩ := Outcome.bind_eq_ok.mp shape
  unfold validateUnsignedShape at hunsigned
  obtain ⟨_, hinputs, hunsigned⟩ := Outcome.bind_eq_ok.mp hunsigned
  obtain ⟨_, houtputs, -⟩ := Outcome.bind_eq_ok.mp hunsigned
  have hinputCount := not_lt.mp (Outcome.bailIf_eq_ok.mp hinputs)
  have houtputCount := not_lt.mp (Outcome.bailIf_eq_ok.mp houtputs)
  refine ⟨⟨hinputCount, houtputCount⟩, ?_⟩
  have howners := (uniqueOwners_length_le transaction.owners).trans transaction.length_owners.le
  have hcount (h : (bailIf (transaction.authorizations.length ≠ transaction.inputCount ∧
      transaction.authorizations.length ≠ transaction.inputOwners.length)
      "transaction v2 authorization count is invalid" : Result Unit) = .ok ⟨⟩) :
      transaction.authorizations.length ≤ maxV2Inputs := by
    have hsame := Outcome.bailIf_eq_ok.mp h
    unfold inputOwners at hsame
    omega
  cases transaction with
  | mine => exact Nat.zero_le _
  | migration => exact hcount hauthorizations
  | transfer => exact hcount hauthorizations
  | burn => exact hcount hauthorizations

lemma validateUnsignedShape_of_shape {transaction : TransactionV2}
    (shape : transaction.validateShape = .ok ⟨⟩) :
    transaction.validateUnsignedShape = .ok ⟨⟩ := by
  unfold validateShape at shape
  obtain ⟨_, hunsigned, -⟩ := Outcome.bind_eq_ok.mp shape
  exact hunsigned

lemma validateUnsignedShape_counts {transaction : TransactionV2}
    (shape : transaction.validateUnsignedShape = .ok ⟨⟩) : transaction.CountsFit := by
  unfold validateUnsignedShape at shape
  obtain ⟨_, hinputs, shape⟩ := Outcome.bind_eq_ok.mp shape
  obtain ⟨_, houtputs, -⟩ := Outcome.bind_eq_ok.mp shape
  exact ⟨not_lt.mp (Outcome.bailIf_eq_ok.mp hinputs), not_lt.mp (Outcome.bailIf_eq_ok.mp houtputs)⟩

/-- The signing bytes are a prefix and a body. -/
lemma signingBytes_eq_ok {transaction : TransactionV2} {domain : TransactionV2Domain}
    {bytes : Bytes} (valid : domain.Valid) :
    transaction.signingBytes domain = .ok bytes ↔
      transaction.validateUnsignedShape = .ok ⟨⟩ ∧
        prefixBytes domain ++ transaction.bodyBytes = bytes := by
  simp only [signingBytes, Outcome.bind_eq_ok, Outcome.pure_eq_ok]
  constructor
  · intro h
    obtain ⟨_, hshape, start, hstart, body, hbody, rfl⟩ := h
    rw [encodePrefix_of_valid valid] at hstart
    rw [encodeUnsignedBody_of_counts (validateUnsignedShape_counts hshape)] at hbody
    cases hstart
    cases hbody
    exact ⟨hshape, rfl⟩
  · intro h
    obtain ⟨hshape, rfl⟩ := h
    exact ⟨⟨⟩, hshape, _, encodePrefix_of_valid valid, _,
      encodeUnsignedBody_of_counts (validateUnsignedShape_counts hshape), rfl⟩

/-- The encoding is the signing bytes with the authorizations after them. -/
lemma encode_eq_ok {transaction : TransactionV2} {domain : TransactionV2Domain} {bytes : Bytes}
    (valid : domain.Valid) :
    transaction.encode domain = .ok bytes ↔ transaction.validateShape = .ok ⟨⟩ ∧
      prefixBytes domain ++ (transaction.bodyBytes
        ++ countedList encodeAuthorization transaction.authorizations) = bytes := by
  simp only [encode, Outcome.bind_eq_ok, Outcome.pure_eq_ok, signingBytes_eq_ok valid,
    encodeCounted_eq_ok]
  constructor
  · intro h
    obtain ⟨_, hshape, _, ⟨-, rfl⟩, _, ⟨-, rfl⟩, rfl⟩ := h
    exact ⟨hshape, by rw [List.append_assoc]⟩
  · intro h
    obtain ⟨hshape, rfl⟩ := h
    have hlimit : maxV2Inputs ≤ u32Max := by decide
    refine ⟨⟨⟩, hshape, _, ⟨validateUnsignedShape_of_shape hshape, rfl⟩, _,
      ⟨(validateShape_counts hshape).2.trans hlimit, rfl⟩, ?_⟩
    rw [List.append_assoc]

/-! ## Decoding -/

lemma withAuthorizations_eq_ok {unsigned transaction : TransactionV2}
    {authorizations : List V2SpendingAuthorization}
    (plain : unsigned.withoutAuthorizations = unsigned) :
    unsigned.withAuthorizations authorizations = .ok transaction ↔
      unsigned = transaction.withoutAuthorizations ∧
        authorizations = transaction.authorizations := by
  cases unsigned with
  | mine recipient anchor salt nonce difficultyBits proofHeader proofHash =>
    simp only [withAuthorizations, Outcome.bind_eq_ok, Outcome.bailIf_eq_ok, Outcome.pure_eq_ok,
      not_not]
    constructor
    · intro h
      obtain ⟨_, hnone, rfl⟩ := h
      exact ⟨rfl, hnone⟩
    · intro h
      obtain ⟨hsame, hauthorizations⟩ := h
      cases transaction with
      | mine =>
        exact ⟨⟨⟩, hauthorizations, hsame⟩
      | migration => cases hsame
      | transfer => cases hsame
      | burn => cases hsame
  | migration inputs outputs fee none =>
    cases transaction <;> cases plain <;>
      simp [withAuthorizations, withoutAuthorizations, TransactionV2.authorizations, and_assoc]
  | transfer inputs outputs fee none =>
    cases transaction <;> cases plain <;>
      simp [withAuthorizations, withoutAuthorizations, TransactionV2.authorizations, and_assoc]
  | burn inputs change amount fee anchor none =>
    cases transaction <;> cases plain <;>
      simp [withAuthorizations, withoutAuthorizations, TransactionV2.authorizations, and_assoc]

lemma fieldsFit_withoutAuthorizations {transaction : TransactionV2} :
    transaction.withoutAuthorizations.FieldsFit ↔ transaction.FieldsFit := by
  cases transaction <;> rfl

lemma countsFit_withoutAuthorizations {transaction : TransactionV2} :
    transaction.withoutAuthorizations.CountsFit ↔ transaction.CountsFit := by
  cases transaction <;> rfl

lemma isBody_withoutAuthorizations {transaction : TransactionV2} (counts : transaction.CountsFit)
    (fields : transaction.FieldsFit) : transaction.withoutAuthorizations.IsBody where
  unsigned := by cases transaction <;> rfl
  counts := countsFit_withoutAuthorizations.mpr counts
  fields := fieldsFit_withoutAuthorizations.mpr fields

lemma readFinish_eq_ok {bytes rest : Bytes} {u : Unit} :
    readFinish bytes = .ok (u, rest) ↔ bytes = [] ∧ rest = [] := by
  unfold readFinish
  split
  · simp_all [eq_comm]
  · simp_all [bail]

lemma decodeAuthorizations_inverts (label : String) :
    Inverts (decodeCounted decodeAuthorization maxV2Inputs label) (countedList encodeAuthorization)
      (fun authorizations => authorizations.length ≤ maxV2Inputs ∧
        ∀ authorization ∈ authorizations, True) :=
  decodeCounted_inverts label decodeAuthorization_inverts (by decide)

/-- A byte string decodes to a transaction exactly when it is the encoding of it. -/
lemma decode_eq_ok_iff {bytes : Bytes} {domain : TransactionV2Domain}
    {transaction : TransactionV2} :
    decode bytes = .ok (domain, transaction) ↔
      domain.Valid ∧ transaction.FieldsFit ∧ transaction.encode domain = .ok bytes := by
  have hchainSmall : maxChainIdBytes < 256 ^ 4 := by decide
  simp only [decode, readTransaction, Outcome.bind_eq_ok, Outcome.pure_eq_ok, Prod.exists,
    Reader.bind_eq_ok, Reader.lift_eq_ok, Reader.pure_eq_ok, readTake_eq_ok,
    Outcome.bailIf_eq_ok, not_not, readUnsigned_inverts _ 2 _ _ _,
    readLengthPrefixed_inverts _ hchainSmall _ _ _, chainIdOfBytes_eq_ok,
    readArray_inverts _ 32 _ _ _, TransactionV2Domain.new_eq_ok,
    decodeUnsignedBody_inverts _ _ _, decodeAuthorizations_inverts _ _ _ _, readFinish_eq_ok]
  constructor
  · intro h
    obtain ⟨_, _, _, ⟨_, _, ⟨rfl, -⟩, _, _, ⟨rfl, rfl⟩, _, _, ⟨rfl, -⟩, _, _, ⟨rfl, rfl⟩, _, _,
      ⟨rfl, -⟩, chainId, _, ⟨⟨rfl, -⟩, rfl⟩, genesisHash, _, ⟨rfl, -⟩, _, _,
      ⟨⟨rfl, rfl, hvalid⟩, rfl⟩, unsigned, _, ⟨rfl, hbody⟩, authorizations, _, ⟨rfl, -, -⟩, _, _,
      ⟨rfl, rfl⟩, _, _, ⟨hwith, rfl⟩, _, _, ⟨hshape, -⟩, hpair, -⟩, hresult⟩ := h
    obtain ⟨rfl, rfl⟩ := Prod.mk.inj (hpair.trans hresult)
    obtain ⟨rfl, rfl⟩ := (withAuthorizations_eq_ok hbody.unsigned).mp hwith
    refine ⟨hvalid, fieldsFit_withoutAuthorizations.mp hbody.fields,
      (encode_eq_ok hvalid).mpr ⟨hshape, ?_⟩⟩
    simp only [prefixBytes, bodyBytes_withoutAuthorizations, List.append_assoc, List.append_nil]
  · intro h
    obtain ⟨hvalid, hfields, hencode⟩ := h
    obtain ⟨hshape, rfl⟩ := (encode_eq_ok hvalid).mp hencode
    obtain ⟨hcounts, hauthorizations⟩ := validateShape_counts hshape
    obtain ⟨-, hlength, hascii⟩ := TransactionV2Domain.valid_iff.mp hvalid
    have hbody := isBody_withoutAuthorizations hcounts hfields
    have hwith := (withAuthorizations_eq_ok hbody.unsigned).mpr
      ⟨rfl, (rfl : transaction.authorizations = _)⟩
    refine ⟨domain, transaction, [], ⟨_, _, ⟨?_, rfl⟩, ⟨⟩, _, ⟨rfl, rfl⟩, transactionV2WireVersion,
      _, ⟨rfl, by decide⟩, ⟨⟩, _, ⟨rfl, rfl⟩, utf8 domain.chainId, _, ⟨rfl, hlength⟩,
      domain.chainId, _, ⟨⟨rfl, hascii⟩, rfl⟩, domain.genesisHash, _, ⟨rfl, trivial⟩, domain, _,
      ⟨⟨rfl, rfl, hvalid⟩, rfl⟩, transaction.withoutAuthorizations, _, ⟨rfl, hbody⟩,
      transaction.authorizations, [], ⟨rfl, hauthorizations, fun _ _ => trivial⟩, ⟨⟩, [], ⟨rfl, rfl⟩,
      transaction, [], ⟨hwith, rfl⟩, ⟨⟩, [], ⟨hshape, rfl⟩, rfl, rfl⟩, rfl⟩
    simp only [prefixBytes, bodyBytes_withoutAuthorizations, List.append_assoc, List.append_nil]

/-- Prefixes come apart from what follows them. -/
lemma prefixBytes_append_inj {domain domain' : TransactionV2Domain} {t t' : Bytes}
    (valid : domain.Valid) (valid' : domain'.Valid)
    (h : prefixBytes domain ++ t = prefixBytes domain' ++ t') : domain = domain' ∧ t = t' := by
  obtain ⟨-, hlength, -⟩ := TransactionV2Domain.valid_iff.mp valid
  obtain ⟨-, hlength', -⟩ := TransactionV2Domain.valid_iff.mp valid'
  unfold byteLen maxChainIdBytes at hlength hlength'
  simp only [prefixBytes, counted, List.append_assoc] at h
  have h := List.append_cancel_left (List.append_cancel_left h)
  rw [← List.append_assoc, ← List.append_assoc (bigEndian 4 _)] at h
  obtain ⟨hchain, h⟩ := counted_append_inj (by omega) (by omega) h
  have hwidth := domain.genesisHash.property.trans domain'.genesisHash.property.symm
  obtain ⟨hgenesis, hrest⟩ := append_inj_of_length hwidth h
  obtain ⟨chainId, genesisHash⟩ := domain
  obtain ⟨chainId', genesisHash'⟩ := domain'
  dsimp only at hchain hgenesis
  exact ⟨by rw [utf8_injective hchain, Subtype.ext hgenesis], hrest⟩

/-- The signing bytes determine the domain and everything but the authorizations. -/
lemma signingBytes_inj {domain domain' : TransactionV2Domain} {transaction other : TransactionV2}
    {bytes : Bytes} (valid : domain.Valid) (valid' : domain'.Valid) (fits : transaction.FieldsFit)
    (fits' : other.FieldsFit) (h : transaction.signingBytes domain = .ok bytes)
    (h' : other.signingBytes domain' = .ok bytes) :
    domain = domain' ∧ transaction.withoutAuthorizations = other.withoutAuthorizations := by
  obtain ⟨hshape, rfl⟩ := (signingBytes_eq_ok valid).mp h
  obtain ⟨hshape', heq⟩ := (signingBytes_eq_ok valid').mp h'
  obtain ⟨hdomain, heq⟩ := prefixBytes_append_inj valid' valid heq
  have hbody := isBody_withoutAuthorizations (validateUnsignedShape_counts hshape) fits
  have hbody' := isBody_withoutAuthorizations (validateUnsignedShape_counts hshape') fits'
  rw [← bodyBytes_withoutAuthorizations other,
    ← bodyBytes_withoutAuthorizations transaction] at heq
  obtain ⟨hsame, -⟩ := decodeUnsignedBody_inverts.append_inj hbody' hbody
    (congrArg (· ++ ([] : Bytes)) heq)
  exact ⟨hdomain.symm, hsame.symm⟩

/-- The codec gives back what was encoded, accepts nothing but encodings, and signs everything but
the authorizations. -/
theorem codec_bijective :
    (∀ (domain : TransactionV2Domain) (transaction : TransactionV2), domain.Valid →
        transaction.FieldsFit → transaction.validateShape = .ok ⟨⟩ →
        ∃ bytes, transaction.encode domain = .ok bytes ∧
          decode bytes = .ok (domain, transaction)) ∧
      (∀ (bytes : Bytes) (domain : TransactionV2Domain) (transaction : TransactionV2),
        decode bytes = .ok (domain, transaction) → transaction.encode domain = .ok bytes) ∧
      ∀ (domain domain' : TransactionV2Domain) (transaction other : TransactionV2) (bytes : Bytes),
        domain.Valid → domain'.Valid → transaction.FieldsFit → other.FieldsFit →
        transaction.signingBytes domain = .ok bytes → other.signingBytes domain' = .ok bytes →
        domain = domain' ∧ transaction.withoutAuthorizations = other.withoutAuthorizations := by
  refine ⟨?_, ?_, ?_⟩
  · intro domain transaction valid fits shape
    have hencode := (encode_eq_ok valid).mpr ⟨shape, rfl⟩
    exact ⟨_, hencode, decode_eq_ok_iff.mpr ⟨valid, fits, hencode⟩⟩
  · intro bytes domain transaction h
    exact (decode_eq_ok_iff.mp h).2.2
  · intro domain domain' transaction other bytes valid valid' fits fits' h h'
    exact signingBytes_inj valid valid' fits fits' h h'

end TransactionV2

end Iuna

namespace Iuna.Toy

open TransactionV2

def v2Domain : TransactionV2Domain :=
  { chainId := str "iuna", genesisHash := ⟨List.replicate 32 0, length_zeros⟩ }

def v2Owner : VersionedAddress :=
  { version := .hybridKeyCommitment, payload := ⟨List.replicate 32 0, length_zeros⟩ }

/-- A transfer of one unit to its own owner, signed with a constant signature. -/
def v2Transfer (byte : UInt8) : TransactionV2 :=
  .transfer [{ outpointTxid := ⟨List.replicate 32 0, length_zeros⟩, outpointIndex := 0, owner := v2Owner }]
    [{ address := v2Owner, amount := 1 }] 0
    [{ publicKey := { scheme := .ed25519, bytes := ⟨List.replicate 32 0, length_zeros⟩ },
       signature := ⟨List.replicate 64 byte, rfl⟩ }]

lemma v2Domain_valid : v2Domain.Valid := by
  have hascii : v2Domain.chainId.all (fun c => c.toNat < 128) = true := by decide
  refine TransactionV2Domain.valid_iff.mpr ⟨by decide, by decide, fun c hc => ?_⟩
  exact of_decide_eq_true (List.all_eq_true.mp hascii c hc)

lemma v2Transfer_fits (byte : UInt8) : (v2Transfer byte).FieldsFit := by
  simp [v2Transfer, FieldsFit]

lemma v2Transfer_shape (byte : UInt8) : (v2Transfer byte).validateShape = .ok ⟨⟩ := by
  simp [v2Transfer, validateShape, validateUnsignedShape, inputCount, outputs, v2Owner,
    TransactionV2.authorizations, maxV2Inputs, maxV2Outputs]

lemma v2Transfer_signingBytes (byte : UInt8) :
    (v2Transfer byte).signingBytes v2Domain
      = .ok (prefixBytes v2Domain ++ (v2Transfer 0).bodyBytes) :=
  (signingBytes_eq_ok v2Domain_valid).mpr
    ⟨validateUnsignedShape_of_shape (v2Transfer_shape byte), rfl⟩

/-- A transfer is read back, and its signing bytes leave the authorizations out. -/
theorem codec_bijective_transfer :
    (∃ bytes, (v2Transfer 0).encode v2Domain = .ok bytes ∧
        decode bytes = .ok (v2Domain, v2Transfer 0) ∧
        (v2Transfer 0).encode v2Domain = .ok bytes) ∧
      (v2Transfer 0).withoutAuthorizations = (v2Transfer 1).withoutAuthorizations := by
  obtain ⟨hround, hcanonical, hsigned⟩ := codec_bijective
  obtain ⟨bytes, hencode, hdecode⟩ :=
    hround v2Domain (v2Transfer 0) v2Domain_valid (v2Transfer_fits 0) (v2Transfer_shape 0)
  refine ⟨⟨bytes, hencode, hdecode, hcanonical _ _ _ hdecode⟩, ?_⟩
  exact (hsigned v2Domain v2Domain _ _ _ v2Domain_valid v2Domain_valid (v2Transfer_fits 0)
    (v2Transfer_fits 1) (v2Transfer_signingBytes 0) (v2Transfer_signingBytes 1)).2

end Iuna.Toy
