import Iuna.Properties.SignedTransactions
import Iuna.Properties.WalletAddresses

/-!
# The byte format of the browser wallet

The wallet writes prefixes, outputs and authorizations as the node does (`encodePrefix_eq_ok`,
`encodeOutputs_eq_ok`, `encodeAuthorization_eq`), derives the addresses that the node computes from
the keys (`hybridKeyCommitmentAddress_eq`), and signs so that the node's checks go through
(`verifyAuthorization_hybrid`).  What it has written is then accepted exactly when the unsigned
shape and the signers are right (`WrittenTransaction.accepted`, `WrittenTransaction.of_accepted`).
-/

namespace Iuna.BrowserWallet

open Wire TransactionV2

/-! ## Bytes -/

lemma pushU32_eq_ok {value : ℕ} {bytes : Bytes} :
    pushU32 value = .ok bytes ↔ value ≤ u32Max ∧ bigEndian 4 value = bytes := by
  simp [pushU32]

lemma pushBytes_eq_ok {value bytes : Bytes} :
    pushBytes value = .ok bytes ↔ value.length ≤ u32Max ∧ counted value = bytes := by
  simp [pushBytes, pushU32_eq_ok, counted]

/-- The wallet writes the prefix of a domain that the node accepts, and of no other. -/
lemma encodePrefix_eq_ok {chainId : Str} {genesisHash : FixedBytes 32} {bytes : Bytes} :
    encodePrefix chainId genesisHash = .ok bytes ↔
      TransactionV2Domain.Valid { chainId := chainId, genesisHash := genesisHash } ∧
        prefixBytes { chainId := chainId, genesisHash := genesisHash } = bytes := by
  rw [TransactionV2Domain.valid_iff]
  simp only [encodePrefix, Outcome.bind_eq_ok, Outcome.bailIf_eq_ok, pushBytes_eq_ok,
    Outcome.pure_eq_ok, not_or, not_not, not_lt, List.all_eq_true, decide_eq_true_eq]
  constructor
  · rintro ⟨_, ⟨hnonempty, hlength, hascii⟩, _, ⟨-, rfl⟩, rfl⟩
    refine ⟨⟨hnonempty, hlength, hascii⟩, ?_⟩
    simp only [prefixBytes, transactionV2WireVersion, List.append_assoc]
  · rintro ⟨⟨hnonempty, hlength, hascii⟩, rfl⟩
    have hsmall : maxChainIdBytes ≤ u32Max := by decide
    refine ⟨⟨⟩, ⟨hnonempty, hlength, hascii⟩, _, ⟨hlength.trans hsmall, rfl⟩, ?_⟩
    simp only [prefixBytes, transactionV2WireVersion, List.append_assoc]

/-- An output of the node as the wallet holds it. -/
def walletOutput (output : TransactionV2Output) : Address × ℕ :=
  (walletAddress output.address, output.amount)

lemma encodeOutput_eq_ok {output : TransactionV2Output} {bytes : Bytes} :
    encodeOutput (walletOutput output) = .ok bytes ↔
      output.amount ≠ 0 ∧ encodeOutputV2 output = bytes := by
  unfold encodeOutput
  rw [Outcome.bind_eq_ok]
  constructor
  · rintro ⟨u, hpositive, h⟩
    exact ⟨Outcome.bailIf_eq_ok.mp hpositive, Outcome.pure_eq_ok.mp h⟩
  · rintro ⟨hpositive, rfl⟩
    exact ⟨⟨⟩, Outcome.bailIf_eq_ok.mpr hpositive, rfl⟩

lemma encodeOutputs_eq_ok {outputs : List TransactionV2Output} {bytes : Bytes} :
    encodeOutputs (outputs.map walletOutput) = .ok bytes ↔
      outputs.length ≤ u32Max ∧ (∀ output ∈ outputs, output.amount ≠ 0) ∧
        countedList encodeOutputV2 outputs = bytes := by
  have hmapM (encoded : List Bytes) : (outputs.map walletOutput).mapM encodeOutput = .ok encoded ↔
      (∀ output ∈ outputs, output.amount ≠ 0) ∧ outputs.map encodeOutputV2 = encoded := by
    rw [Outcome.mapM_eq_ok, List.forall₂_map_left_iff]
    simp only [encodeOutput_eq_ok]
    induction outputs generalizing encoded with
    | nil => simp [eq_comm]
    | cons output outputs ih =>
      cases encoded with
      | nil => simp
      | cons head encoded =>
        rw [List.forall₂_cons, ih]
        simp only [List.forall_mem_cons, List.map_cons, List.cons.injEq]
        tauto
  simp only [encodeOutputs, Outcome.bind_eq_ok, pushU32_eq_ok, List.length_map, hmapM,
    Outcome.pure_eq_ok, countedList, List.flatMap_def]
  constructor
  · rintro ⟨_, ⟨hlength, rfl⟩, _, ⟨hpositive, rfl⟩, rfl⟩
    exact ⟨hlength, hpositive, rfl⟩
  · rintro ⟨hlength, hpositive, rfl⟩
    exact ⟨_, ⟨hlength, rfl⟩, _, ⟨hpositive, rfl⟩, rfl⟩

/-- An authorization is written as the node writes it. -/
lemma encodeAuthorization_eq (authorization : V2SpendingAuthorization) :
    encodeAuthorization authorization.scheme.wireId authorization.publicKey.bytes.val
      authorization.signature.val = .ok (Iuna.encodeAuthorization authorization) := by
  have hkey : authorization.publicKey.bytes.val.length ≤ u32Max := by
    rw [authorization.publicKey.bytes.property]
    cases authorization.publicKey.scheme <;> decide
  have hsignature : authorization.signature.val.length ≤ u32Max := by
    rw [authorization.signature.property]
    cases authorization.publicKey.scheme <;> decide
  simp only [encodeAuthorization, Outcome.bind_eq_ok, pushBytes_eq_ok, Outcome.pure_eq_ok]
  exact ⟨_, ⟨hkey, rfl⟩, _, ⟨hsignature, rfl⟩, rfl⟩

lemma isAsciiHexdigit_of_hexValue {byte : UInt8} {n : ℕ} (h : hexValue byte = .ok n) :
    isAsciiHexdigit byte = true := by
  unfold hexValue at h
  simp only [isAsciiHexdigit, decide_eq_true_eq]
  by_contra hnot
  obtain ⟨hdigit, hother⟩ := not_or.mp hnot
  obtain ⟨hlower, hupper⟩ := not_or.mp hother
  simp only [if_neg hdigit, if_neg hlower, if_neg hupper, bail_eq_ok] at h

lemma all_hexdigits : ∀ {input bytes : Bytes}, input.length % 2 = 0 →
    decodeHexPairs input = .ok bytes → ∀ byte ∈ input, isAsciiHexdigit byte = true
  | [], _, _, _ => by simp
  | [_], _, heven, _ => by simp at heven
  | high :: low :: rest, bytes, heven, h => by
    simp only [decodeHexPairs, Outcome.bind_eq_ok] at h
    obtain ⟨n, hn, m, hm, tail, htail, -⟩ := h
    have hrest : rest.length % 2 = 0 := by
      simp only [List.length_cons] at heven
      omega
    intro byte hbyte
    rcases List.mem_cons.mp hbyte with rfl | hbyte
    · exact isAsciiHexdigit_of_hexValue hn
    · rcases List.mem_cons.mp hbyte with rfl | hbyte
      · exact isAsciiHexdigit_of_hexValue hm
      · exact all_hexdigits hrest htail byte hbyte

/-- The two hexadecimal readers accept the same texts. -/
lemma decodeHex_eq_ok {value : Str} {label : String} {bytes : Bytes} :
    decodeHex value label = .ok bytes ↔ Iuna.decodeHex value = .ok bytes := by
  simp only [decodeHex, Iuna.decodeHex, Outcome.bind_eq_ok, Outcome.bailIf_eq_ok, not_or, not_not,
    List.all_eq_true]
  constructor
  · rintro ⟨u, ⟨heven, -⟩, hpairs⟩
    exact ⟨u, heven, hpairs⟩
  · rintro ⟨u, heven, hpairs⟩
    exact ⟨u, ⟨heven, all_hexdigits heven hpairs⟩, hpairs⟩

lemma decodeArray_eq_ok {n : ℕ} {value : Str} {label : String} {array : FixedBytes n} :
    decodeArray n value label = .ok array ↔ decodeHexArray n value = .ok array := by
  simp only [decodeArray, decodeHexArray, Outcome.bind_eq_ok, decodeHex_eq_ok, fixed_eq_ok]

/-- What a traversal writes is what the node writes for the values that are read back. -/
lemma exists_written {α β : Type} {R : α → β → Prop} {write : α → Result Bytes} {encode : β → Bytes}
    (written : ∀ {a bytes}, write a = .ok bytes → ∃ b, R a b ∧ encode b = bytes) {as : List α}
    {encoded : List Bytes} (h : as.mapM write = .ok encoded) :
    ∃ bs, List.Forall₂ R as bs ∧ bs.flatMap encode = encoded.flatten := by
  have hpairs := Outcome.mapM_eq_ok.mp h
  clear h
  induction hpairs with
  | nil => exact ⟨[], .nil, rfl⟩
  | cons hhead _ ih =>
    obtain ⟨b, hb, rfl⟩ := written hhead
    obtain ⟨bs, hbs, hflat⟩ := ih
    exact ⟨b :: bs, .cons hb hbs, by rw [List.flatMap_cons, hflat, List.flatten_cons]⟩

/-! ## Lengths -/

lemma flatMap_length {α : Type} {encode : α → Bytes} {width : ℕ}
    (h : ∀ a, (encode a).length = width) (values : List α) :
    (values.flatMap encode).length = values.length * width := by
  induction values with
  | nil => simp
  | cons a values ih =>
    rw [List.flatMap_cons, List.length_append, ih, h, List.length_cons]
    ring

lemma encodeInputV2_length (input : TransactionV2Input) : (encodeInputV2 input).length = 69 := by
  simp [encodeInputV2, Iuna.encodeAddressBytes, input.outpointTxid.property,
    input.owner.payload.property]

lemma encodeOutputV2_length (output : TransactionV2Output) :
    (encodeOutputV2 output).length = 41 := by
  simp [encodeOutputV2, Iuna.encodeAddressBytes, output.address.payload.property]

lemma encodeAuthorization_length (authorization : V2SpendingAuthorization) :
    (Iuna.encodeAuthorization authorization).length
      = 1 + 4 + authorization.scheme.publicKeyBytes + 4 + authorization.scheme.signatureBytes := by
  simp only [Iuna.encodeAuthorization, V2SpendingAuthorization.scheme, List.length_append,
    List.length_cons, bigEndian_length, authorization.publicKey.bytes.property,
    authorization.signature.property]
  omega

lemma authorizations_length {scheme : SignatureScheme}
    {authorizations : List V2SpendingAuthorization}
    (schemes : ∀ authorization ∈ authorizations, authorization.scheme = scheme) :
    (authorizations.flatMap Iuna.encodeAuthorization).length
      = authorizations.length * (1 + 4 + scheme.publicKeyBytes + 4 + scheme.signatureBytes) := by
  induction authorizations with
  | nil => simp
  | cons authorization authorizations ih =>
    rw [List.flatMap_cons, List.length_append, encodeAuthorization_length,
      schemes authorization List.mem_cons_self,
      ih fun a ha => schemes a (List.mem_cons_of_mem _ ha), List.length_cons]
    ring

lemma prefixBytes_length (domain : TransactionV2Domain) :
    (prefixBytes domain).length = 10 + 2 + 4 + byteLen domain.chainId + 32 := by
  have htag : (utf8 (str "IUNA-TX-V2")).length = 10 := by decide
  simp only [prefixBytes, counted, List.length_append, bigEndian_length, htag,
    domain.genesisHash.property, byteLen]
  omega

/-- The fee pays for the size. -/
lemma le_of_requiredFee {feeRate size : ℕ} {needed : { fee : ℕ // fee ≤ u64Max }}
    (h : requiredFee feeRate size = .ok needed) : feeRate * size ≤ needed.val := by
  unfold requiredFee at h
  split at h
  · rw [← Outcome.pure_eq_ok.mp h]
    exact le_max_left _ _
  · simp at h

/-! ## Keys -/

section Keys

variable [Crypto] [SigningKeys]

/-- The owner of a derived address, as the node holds it. -/
def hybridOwner (seed : Str) (branch : HybridAddressBranch) (index : UInt32) : VersionedAddress :=
  { version := .hybridKeyCommitment, payload := (hybridAddress seed branch index).payload }

/-- The key of a derived address, as the node holds it. -/
def hybridKey (seed : Str) (branch : HybridAddressBranch) (index : UInt32) : ProtocolPublicKey :=
  { scheme := .hybridEd25519MlDsa44, bytes := hybridPublicKey seed branch index }

/-- The address that the wallet derives is the node's commitment to the key. -/
lemma hybridKeyCommitmentAddress_eq (seed : Str) (branch : HybridAddressBranch) (index : UInt32) :
    hybridKeyCommitmentAddress (hybridKey seed branch index)
      = .ok (hybridOwner seed branch index) := by
  have hed := (SigningKeys.ed25519Public (edSeed seed)).property
  have hml := (SigningKeys.mlDsa44Public (mlSeed seed branch index)).property
  simp only [hybridKeyCommitmentAddress, Outcome.bind_eq_ok, Outcome.bailIf_eq_ok,
    Outcome.pure_eq_ok]
  refine ⟨⟨⟩, by simp [hybridKey], ?_⟩
  simp only [hybridOwner, hybridAddress, publicKeyCommitment, hybridKey, hybridPublicKey,
    VersionedAddress.mk.injEq, true_and]
  congr 1
  rw [List.take_left' hed, List.drop_left' hed, hed, hml]
  simp only [SignatureScheme.wireId, List.append_assoc]

/-- A signature of the wallet is one that the node accepts for the key. -/
lemma verifyAuthorization_hybrid (correct : SigningKeys.Correct) {seed : Str}
    {branch : HybridAddressBranch} {index : UInt32} {payload : Bytes}
    {signature : FixedBytes (64 + 2420)}
    (h : hybridSignature seed (mlSeed seed branch index) payload = .ok signature) :
    verifyAuthorization payload
      { publicKey := hybridKey seed branch index, signature := signature } = .ok ⟨⟩ := by
  simp only [hybridSignature, Outcome.bind_eq_ok, Outcome.ofOption_eq_ok, Outcome.pure_eq_ok] at h
  obtain ⟨ml, hml, rfl⟩ := h
  have hkey := (SigningKeys.ed25519Public (edSeed seed)).property
  have hsignature := (SigningKeys.ed25519Sign (edSeed seed) payload).property
  simp only [verifyAuthorization, hybridKey, hybridPublicKey, Outcome.bind_eq_ok,
    fixed_eq_ok]
  refine ⟨_, (List.take_left' hkey).symm, _, (List.take_left' hsignature).symm, ⟨⟩, ?_, _,
    (List.drop_left' hkey).symm, ml, (List.drop_left' hsignature).symm, ?_⟩
  · simp [verifyEd25519, correct.ed25519_valid, correct.ed25519_verifies]
  · simp [verifyMlDsa44, correct.mlDsa44_valid _ _ _ hml, correct.mlDsa44_verifies _ _ _ hml]

end Keys

/-! ## Acceptance -/

section Acceptance

variable [Crypto]

/-- The outpoint that a text and an index name. -/
def Outpoint.named (outpoint : Outpoint) : Option Bytes × ℕ :=
  ((Iuna.decodeHex outpoint.txid).toOption, outpoint.index.toNat)

/-- The node accepts the envelope of a built transaction: it decodes to a transaction of the right
shape for the requested chain, whose authorizations pass the policy of the signing height and
verify, with the reported id, fee and number of inputs and a fee that pays for its size. -/
structure Accepted (chainId genesisHash feeRate : Str) (signingHeight : ℕ)
    (built : BuiltTransaction) (bytes : Bytes) (domain : TransactionV2Domain)
    (transaction : TransactionV2) : Prop where
  envelope : Iuna.decodeHex built.envelope = .ok bytes
  decoded : TransactionV2.decode bytes = .ok (domain, transaction)
  chain : domain.chainId = chainId
  genesis : decodeHexArray 32 genesisHash = .ok domain.genesisHash
  shape : transaction.validateShape = .ok ⟨⟩
  policy : transaction.validateAuthorizationPolicyAtHeight signingHeight = .ok ⟨⟩
  signatures : transaction.verifyAuthorizations domain = .ok ⟨⟩
  id : ∃ id, transaction.transactionId domain = .ok id ∧ built.transactionId = hexEncode id.val
  fee : built.fee = decimal transaction.fee
  rate : ∃ rate, parsePositiveU64 feeRate "fee rate" = .ok rate ∧
    rate * bytes.length ≤ transaction.fee
  inputCount : built.inputCount = transaction.inputCount

/-- A transaction that the wallet has written: its integers are in range, and every authorization
is by one of the signers and verifies over the signed bytes. -/
structure WrittenTransaction (domain : TransactionV2Domain) (transaction : TransactionV2)
    (version : AddressVersion) (scheme : SignatureScheme) (signers : List VersionedAddress) :
    Prop where
  valid : domain.Valid
  spends : Spends transaction
  fits : transaction.FieldsFit
  small : transaction.inputCount < 256 ^ 4
  outputs : transaction.outputs.length ≤ maxV2Outputs
  signed : transaction.SignedBy version scheme signers
  verifies : ∀ authorization ∈ transaction.authorizations,
    verifyAuthorization (prefixBytes domain ++ transaction.bodyBytes) authorization = .ok ⟨⟩

/-- The bytes of an envelope. -/
def envelopeBytes (domain : TransactionV2Domain) (transaction : TransactionV2) : Bytes :=
  prefixBytes domain ++ (transaction.bodyBytes
    ++ countedList Iuna.encodeAuthorization transaction.authorizations)

namespace WrittenTransaction

variable {domain : TransactionV2Domain} {transaction : TransactionV2} {version : AddressVersion}
  {scheme : SignatureScheme} {signers : List VersionedAddress}

lemma authorizations_le (written : WrittenTransaction domain transaction version scheme signers) :
    transaction.authorizations.length ≤ transaction.inputCount := by
  rw [written.signed.authorizes.length_eq, ← length_owners]
  exact written.signed.sublist.length_le

/-- The shape of a written transaction asks for an unsigned shape and for a number of
authorizations. -/
lemma shape_of_fit (written : WrittenTransaction domain transaction version scheme signers)
    {height : ℕ} (shape : transaction.validateUnsignedShape = .ok ⟨⟩)
    (fit : SignersFit transaction.owners signers height) :
    transaction.validateShape = .ok ⟨⟩ := by
  have hcount := written.signed.count_of_fit fit
  rcases written.spends with ⟨inputs, outputs, fee, authorizations, rfl⟩ |
    ⟨inputs, outputs, fee, authorizations, rfl⟩
  all_goals
    refine Outcome.bind_eq_ok.mpr ⟨⟨⟩, shape, Outcome.bailIf_eq_ok.mpr ?_⟩
    rintro ⟨hinputs, howners⟩
    exact hcount.elim hinputs howners

lemma decode_iff (written : WrittenTransaction domain transaction version scheme signers)
    {domain' : TransactionV2Domain} {other : TransactionV2} :
    decode (envelopeBytes domain transaction) = .ok (domain', other) ↔
      (domain', other) = (domain, transaction) ∧ transaction.validateShape = .ok ⟨⟩ :=
  decode_written written.valid written.fits written.spends written.small written.outputs
    written.authorizations_le

/-- The node accepts what was written, if the unsigned shape and the signers are right. -/
lemma accepted (written : WrittenTransaction domain transaction version scheme signers)
    {genesisHash feeRate : Str} {height : ℕ}
    (genesis : decodeHexArray 32 genesisHash = .ok domain.genesisHash)
    (rate : ∃ rate, parsePositiveU64 feeRate "fee rate" = .ok rate ∧
      rate * (envelopeBytes domain transaction).length ≤ transaction.fee)
    (shape : transaction.validateUnsignedShape = .ok ⟨⟩)
    (fit : SignersFit transaction.owners signers height) :
    Accepted domain.chainId genesisHash feeRate height
      (builtTransaction (envelopeBytes domain transaction) transaction.fee transaction.inputCount)
      (envelopeBytes domain transaction) domain transaction := by
  have hshape := written.shape_of_fit shape fit
  have hpolicy := written.signed.policy_iff.mpr ⟨hshape, fit⟩
  have hencode : transaction.encode domain = .ok (envelopeBytes domain transaction) :=
    (encode_eq_ok written.valid).mpr ⟨hshape, rfl⟩
  have hsigning : transaction.signingBytes domain
      = .ok (prefixBytes domain ++ transaction.bodyBytes) :=
    (signingBytes_eq_ok written.valid).mpr ⟨shape, rfl⟩
  refine ⟨decodeHex_hexEncode _, written.decode_iff.mpr ⟨rfl, hshape⟩, rfl, genesis, hshape,
    hpolicy, ?_, ?_, rfl, rate, rfl⟩
  · exact Outcome.bind_eq_ok.mpr ⟨⟨⟩, commitments_of_policy hpolicy,
      Outcome.bind_eq_ok.mpr ⟨_, hsigning, Outcome.forM_eq_ok.mpr written.verifies⟩⟩
  · exact ⟨_, Outcome.bind_eq_ok.mpr ⟨_, hencode, rfl⟩, rfl⟩

/-- What the node accepts of what was written is the transaction itself, and then its unsigned shape
and its signers are right. -/
lemma of_accepted (written : WrittenTransaction domain transaction version scheme signers)
    {chainId genesisHash feeRate : Str} {height fee inputCount : ℕ} {bytes : Bytes}
    {domain' : TransactionV2Domain} {other : TransactionV2}
    (h : Accepted chainId genesisHash feeRate height
      (builtTransaction (envelopeBytes domain transaction) fee inputCount) bytes domain' other) :
    other = transaction ∧ transaction.validateUnsignedShape = .ok ⟨⟩ ∧
      SignersFit transaction.owners signers height := by
  have hbytes : envelopeBytes domain transaction = bytes :=
    Except.ok.inj ((decodeHex_hexEncode _).symm.trans h.envelope)
  obtain ⟨hsame, hshape⟩ := written.decode_iff.mp (hbytes ▸ h.decoded)
  obtain ⟨-, rfl⟩ := Prod.mk.inj hsame
  exact ⟨rfl, validateUnsignedShape_of_shape hshape, (written.signed.policy_iff.mp h.policy).2⟩

end WrittenTransaction

end Acceptance

end Iuna.BrowserWallet
