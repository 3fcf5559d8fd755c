import Iuna.Library.Delimited
import Iuna.Properties.MineProof

/-!
# Signing bytes determine what is signed

A transfer or a burn is signed over a binary preimage, and a mine action is proved over one.  All
of them start with the domain and a type byte; burns with an anchor and mine actions share the
type byte 3.  Every part of a preimage delimits itself, so the bytes determine the domain
(`encode_append_inj`) and, for one kind, the parts one after the other.  A burn with an anchor and
a mine action are told apart by their length: what stands where the burn counts its inputs is 32
or 33 in a mine action, and a burn with so many inputs is longer than any mine action.
-/

namespace Iuna

open Wire

/-! ## Texts -/

/-- The bytes of a text determine it. -/
lemma utf8_injective {s s' : Str} (h : utf8 s = utf8 s') : s = s' := by
  have hencoded : s.utf8Encode = s'.utf8Encode := by
    unfold List.utf8Encode
    exact congrArg List.toByteArray h
  have hstrings : String.ofList s = String.ofList s' := by
    unfold String.ofList
    simp only [hencoded]
  rw [← String.toList_ofList (l := s), hstrings, String.toList_ofList]

/-- Bytes behind their length come apart from what follows them. -/
lemma encodeBytes_append_inj {value value' w w' t t' : Bytes} {label label' : String}
    (hw : encodeBytes value label = .ok w) (hw' : encodeBytes value' label' = .ok w')
    (h : w ++ t = w' ++ t') : value = value' ∧ t = t' := by
  obtain ⟨hsmall, rfl⟩ := encodeBytes_eq_ok.mp hw
  obtain ⟨hsmall', rfl⟩ := encodeBytes_eq_ok.mp hw'
  have hrange : u32Max < 256 ^ 4 := by decide
  exact counted_append_inj (by omega) (by omega) h

lemma encodeLen_append_inj {length length' : ℕ} {w w' t t' : Bytes} {label label' : String}
    (hw : encodeLen length label = .ok w) (hw' : encodeLen length' label' = .ok w')
    (h : w ++ t = w' ++ t') : length = length' ∧ t = t' := by
  simp only [encodeLen, Outcome.bind_eq_ok, Outcome.bailIf_eq_ok, Outcome.pure_eq_ok, not_lt]
    at hw hw'
  obtain ⟨_, hsmall, rfl⟩ := hw
  obtain ⟨_, hsmall', rfl⟩ := hw'
  have hrange : u32Max < 256 ^ 4 := by decide
  exact bigEndian_append_inj (by omega) (by omega) h

/-! ## Domains -/

/-- A domain comes apart from what follows it. -/
lemma TransactionSigningDomain.encode_append_inj {domain domain' : TransactionSigningDomain}
    {start start' t t' : Bytes} (hstart : domain.encode = .ok start)
    (hstart' : domain'.encode = .ok start') (h : start ++ t = start' ++ t') :
    domain = domain' ∧ t = t' := by
  simp only [TransactionSigningDomain.encode, Outcome.bind_eq_ok, Outcome.bailIf_eq_ok,
    Outcome.pure_eq_ok, withContext, Outcome.mapErr_eq_ok, decodeCanonicalHexArray_eq_ok,
    Bool.not_eq_false] at hstart hstart'
  obtain ⟨_, hbound, chainId, hchainId, genesis, hgenesis, hash, hhash, rfl⟩ := hstart
  obtain ⟨_, hbound', chainId', hchainId', genesis', hgenesis', hash', hhash', rfl⟩ := hstart'
  simp only [List.append_assoc] at h
  have h := List.append_cancel_left (List.append_cancel_left h)
  obtain ⟨hchain, h⟩ := encodeBytes_append_inj hchainId hchainId' h
  obtain ⟨hgenesisSame, h⟩ := encodeBytes_append_inj hhash hhash' h
  refine ⟨?_, h⟩
  obtain ⟨id, hash, bound⟩ := domain
  obtain ⟨id', hash', bound'⟩ := domain'
  dsimp only at hbound hbound' hchain hgenesis hgenesis'
  rw [utf8_injective hchain, hgenesis, hgenesis', hgenesisSame, hbound, hbound']

/-! ## Inputs and outputs -/

/-- An input without its signature (`UnsignedTxInput`). -/
def TxInput.withoutSignature (input : TxInput) : OutPoint × Str := (input.outpoint, input.owner)

/-- One input of `encode_inputs`. -/
def encodeInput (input : TxInput) : Result Bytes := do
  let txid ← withContext "transaction input txid is invalid"
    (decodeCanonicalHex input.outpoint.txid)
  bailIf (txid.length ≠ hashBytes ∧ txid.length ≠ signatureBytes)
    "transaction input txid must be a hash or signature"
  let txidBytes ← encodeBytes txid "input txid"
  let owner ← withContext "transaction input owner is invalid"
    (decodeCanonicalHexArray publicKeyBytes input.owner)
  let ownerBytes ← encodeBytes owner.val "input owner"
  pure (txidBytes ++ Wire.bigEndian 4 input.outpoint.index ++ ownerBytes)

/-- One output of `encode_outputs`. -/
def encodeOutput (output : TxOutput) : Result Bytes := do
  let address ← withContext "transaction output address is invalid"
    (decodeCanonicalHexArray publicKeyBytes output.address)
  let addressBytes ← encodeBytes address.val "output address"
  pure (addressBytes ++ Wire.bigEndian 8 output.amount)

lemma encodeInput_eq_ok {input : TxInput} {w : Bytes} :
    encodeInput input = .ok w ↔
      ∃ (txid : Bytes) (owner : FixedBytes publicKeyBytes) (txidBytes ownerBytes : Bytes),
        input.outpoint.txid = hexEncode txid ∧ input.owner = hexEncode owner.val ∧
        (txid.length = hashBytes ∨ txid.length = signatureBytes) ∧
        encodeBytes txid "input txid" = .ok txidBytes ∧
        encodeBytes owner.val "input owner" = .ok ownerBytes ∧
        txidBytes ++ (Wire.bigEndian 4 input.outpoint.index ++ ownerBytes) = w := by
  simp only [encodeInput, Outcome.bind_eq_ok, Outcome.bailIf_eq_ok, Outcome.pure_eq_ok, withContext,
    Outcome.mapErr_eq_ok, decodeCanonicalHexArray_eq_ok, decodeCanonicalHex_eq_ok]
  constructor
  · intro h
    obtain ⟨txid, htxid, _, hlength, txidBytes, htxidBytes, owner, howner, ownerBytes, hownerBytes,
      rfl⟩ := h
    refine ⟨txid, owner, txidBytes, ownerBytes, htxid, howner, ?_, htxidBytes, hownerBytes, ?_⟩
    · omega
    · rw [List.append_assoc]
  · intro h
    obtain ⟨txid, owner, txidBytes, ownerBytes, htxid, howner, hlength, htxidBytes, hownerBytes,
      rfl⟩ := h
    refine ⟨txid, htxid, ⟨⟩, by omega, txidBytes, htxidBytes, owner, howner, ownerBytes,
      hownerBytes, ?_⟩
    rw [List.append_assoc]

lemma encodeInput_delimits :
    Delimits (fun input : TxInput => input.outpoint.index < 2 ^ 32) TxInput.withoutSignature
      encodeInput := by
  intro input input' w w' t t' hindex hindex' hw hw' h
  obtain ⟨txid, owner, txidBytes, ownerBytes, htxid, howner, -, htxidBytes, hownerBytes, rfl⟩ :=
    encodeInput_eq_ok.mp hw
  obtain ⟨txid', owner', txidBytes', ownerBytes', htxid', howner', -, htxidBytes', hownerBytes',
    rfl⟩ := encodeInput_eq_ok.mp hw'
  simp only [List.append_assoc] at h
  obtain ⟨rfl, h⟩ := encodeBytes_append_inj htxidBytes htxidBytes' h
  obtain ⟨hsame, h⟩ := bigEndian_append_inj (by omega) (by omega) h
  obtain ⟨howners, -⟩ := encodeBytes_append_inj hownerBytes hownerBytes' h
  have hkey : input.withoutSignature = input'.withoutSignature := by
    obtain ⟨⟨id, index⟩, name, signature⟩ := input
    obtain ⟨⟨id', index'⟩, name', signature'⟩ := input'
    dsimp only at htxid htxid' hsame howner howner'
    unfold TxInput.withoutSignature
    rw [htxid, htxid', hsame, howner, howner', howners]
  refine ⟨hkey, ?_⟩
  have htexts : txidBytes = txidBytes' := Except.ok.inj (htxidBytes.symm.trans htxidBytes')
  rw [howners] at hownerBytes
  have hnames : ownerBytes = ownerBytes' := Except.ok.inj (hownerBytes.symm.trans hownerBytes')
  rw [htexts, hsame, hnames]

lemma encodeOutput_delimits :
    Delimits (fun output : TxOutput => output.amount < 2 ^ 64) id encodeOutput := by
  intro output output' w w' t t' hamount hamount' hw hw' h
  simp only [encodeOutput, Outcome.bind_eq_ok, Outcome.pure_eq_ok, withContext,
    Outcome.mapErr_eq_ok, decodeCanonicalHexArray_eq_ok] at hw hw'
  obtain ⟨address, haddress, addressBytes, haddressBytes, rfl⟩ := hw
  obtain ⟨address', haddress', addressBytes', haddressBytes', rfl⟩ := hw'
  simp only [List.append_assoc] at h
  obtain ⟨hsame, h⟩ := encodeBytes_append_inj haddressBytes haddressBytes' h
  obtain ⟨hamounts, -⟩ := bigEndian_append_inj (by omega) (by omega) h
  obtain rfl : output = output' := by
    obtain ⟨name, amount⟩ := output
    obtain ⟨name', amount'⟩ := output'
    dsimp only at haddress haddress' hamounts
    rw [haddress, haddress', hsame, hamounts]
  rw [hsame] at haddressBytes
  obtain rfl : addressBytes = addressBytes' :=
    Except.ok.inj (haddressBytes.symm.trans haddressBytes')
  exact ⟨rfl, rfl⟩

lemma encodeInputs_eq_ok {inputs : List TxInput} {w : Bytes} :
    encodeInputs inputs = .ok w ↔
      ∃ count parts, encodeLen inputs.length "input count" = .ok count ∧
        inputs.mapM encodeInput = .ok parts ∧ count ++ parts.flatten = w := by
  simp only [encodeInputs, Outcome.bind_eq_ok, Outcome.pure_eq_ok, exists_and_left]
  rfl

lemma encodeOutputs_eq_ok {outputs : List TxOutput} {w : Bytes} :
    encodeOutputs outputs = .ok w ↔
      ∃ count parts, encodeLen outputs.length "output count" = .ok count ∧
        outputs.mapM encodeOutput = .ok parts ∧ count ++ parts.flatten = w := by
  simp only [encodeOutputs, Outcome.bind_eq_ok, Outcome.pure_eq_ok, exists_and_left]
  rfl

lemma encodeInputs_append_inj {inputs inputs' : List TxInput} {w w' t t' : Bytes}
    (fits : ∀ input ∈ inputs, input.outpoint.index < 2 ^ 32)
    (fits' : ∀ input ∈ inputs', input.outpoint.index < 2 ^ 32)
    (hw : encodeInputs inputs = .ok w) (hw' : encodeInputs inputs' = .ok w')
    (h : w ++ t = w' ++ t') :
    inputs.map TxInput.withoutSignature = inputs'.map TxInput.withoutSignature ∧ t = t' := by
  obtain ⟨count, parts, hcount, hparts, rfl⟩ := encodeInputs_eq_ok.mp hw
  obtain ⟨count', parts', hcount', hparts', rfl⟩ := encodeInputs_eq_ok.mp hw'
  rw [List.append_assoc, List.append_assoc] at h
  obtain ⟨hlength, h⟩ := encodeLen_append_inj hcount hcount' h
  obtain ⟨hkeys, -, hrest⟩ :=
    encodeInput_delimits.mapM hlength fits fits' hparts hparts' h
  exact ⟨hkeys, hrest⟩

lemma encodeOutputs_append_inj {outputs outputs' : List TxOutput} {w w' t t' : Bytes}
    (fits : ∀ output ∈ outputs, output.amount < 2 ^ 64)
    (fits' : ∀ output ∈ outputs', output.amount < 2 ^ 64)
    (hw : encodeOutputs outputs = .ok w) (hw' : encodeOutputs outputs' = .ok w')
    (h : w ++ t = w' ++ t') : outputs = outputs' ∧ t = t' := by
  obtain ⟨count, parts, hcount, hparts, rfl⟩ := encodeOutputs_eq_ok.mp hw
  obtain ⟨count', parts', hcount', hparts', rfl⟩ := encodeOutputs_eq_ok.mp hw'
  rw [List.append_assoc, List.append_assoc] at h
  obtain ⟨hlength, h⟩ := encodeLen_append_inj hcount hcount' h
  obtain ⟨hkeys, -, hrest⟩ :=
    encodeOutput_delimits.mapM hlength fits fits' hparts hparts' h
  rw [List.map_id, List.map_id] at hkeys
  exact ⟨hkeys, hrest⟩

/-! ## Recipients of mine actions -/

/-- What the text of a mine recipient stands for: a key, or a versioned address. -/
inductive MineRecipient
  | key (key : FixedBytes publicKeyBytes)
  | address (address : VersionedAddress)

/-- The bytes that a recipient enters the signing bytes with. -/
def MineRecipient.bytes : MineRecipient → Bytes
  | .key hash => hash.val
  | .address owner => owner.version.wireId :: owner.payload.val

/-- Keys have 32 bytes, and addresses have 33. -/
lemma MineRecipient.length_bytes (recipient : MineRecipient) :
    recipient.bytes.length = 32 ∨ recipient.bytes.length = 33 := by
  cases recipient with
  | key hash => exact .inl hash.property
  | address owner => exact .inr (by simp [bytes, owner.payload.property])

lemma MineRecipient.bytes_injective {recipient recipient' : MineRecipient}
    (h : recipient.bytes = recipient'.bytes) : recipient = recipient' := by
  have hlength := congrArg List.length h
  cases recipient with
  | key hash =>
    cases recipient' with
    | key hash' => exact congrArg MineRecipient.key (Subtype.ext h)
    | address owner' =>
      simp [bytes, hash.property, owner'.payload.property, publicKeyBytes] at hlength
  | address owner =>
    cases recipient' with
    | key hash' => simp [bytes, hash'.property, owner.payload.property, publicKeyBytes] at hlength
    | address owner' =>
      obtain ⟨hwire, hpayload⟩ := List.cons.inj h
      have hversion : owner.version = owner'.version := by
        have hread := congrArg AddressVersion.fromWireId hwire
        simpa using hread
      obtain ⟨version, payload⟩ := owner
      obtain ⟨version', payload'⟩ := owner'
      dsimp only at hversion hpayload
      rw [hversion, Subtype.ext hpayload]

variable [Crypto]

/-- The recipient that `mine_signing_bytes` decodes from a text. -/
def decodedRecipient (recipient : Str) : Result MineRecipient :=
  match decodeCanonicalHexArray publicKeyBytes recipient with
  | .ok key => pure (.key key)
  | .error _ => do
    let network := if (str "tiuna1").isPrefixOf recipient then AddressNetwork.testnet
      else AddressNetwork.mainnet
    let address ← withContext "mine recipient is invalid"
      (decodeVersionedAddress recipient network)
    pure (.address address)

/-- The signing bytes of a mine action are its fields one after the other. -/
lemma mineSigningBytes_eq_ok {domain : TransactionSigningDomain} {recipient anchor : Str}
    {salt nonce difficultyBits : ℕ} {bytes : Bytes}
    (h : mineSigningBytes domain recipient anchor salt nonce difficultyBits = .ok bytes) :
    ∃ start named recipientBytes anchorBytes, ∃ anchorHash : FixedBytes hashBytes,
      domain.encode = .ok start ∧ decodedRecipient recipient = .ok named ∧
      encodeBytes named.bytes "mine recipient" = .ok recipientBytes ∧
      anchor = hexEncode anchorHash.val ∧
      encodeBytes anchorHash.val "mine anchor" = .ok anchorBytes ∧
      bytes = start ++ ([3] ++ (recipientBytes ++ (anchorBytes ++ (Wire.bigEndian 8 salt
        ++ (Wire.bigEndian 8 nonce ++ Wire.bigEndian 4 difficultyBits))))) := by
  unfold mineSigningBytes at h
  obtain ⟨start, hstart, h⟩ := Outcome.bind_eq_ok.mp h
  dsimp only at h
  have hrest (named : MineRecipient) (hnamed : decodedRecipient recipient = .ok named)
      (hrest : (do
        let recipientBytes ← encodeBytes named.bytes "mine recipient"
        let anchorHash ← withContext "mine anchor is invalid"
          (decodeCanonicalHexArray hashBytes anchor)
        let anchorBytes ← encodeBytes anchorHash.val "mine anchor"
        pure (start ++ [3] ++ recipientBytes ++ anchorBytes ++ Wire.bigEndian 8 salt
          ++ Wire.bigEndian 8 nonce ++ Wire.bigEndian 4 difficultyBits)) = Except.ok bytes) :
      ∃ start named recipientBytes anchorBytes, ∃ anchorHash : FixedBytes hashBytes,
        domain.encode = .ok start ∧ decodedRecipient recipient = .ok named ∧
        encodeBytes named.bytes "mine recipient" = .ok recipientBytes ∧
        anchor = hexEncode anchorHash.val ∧
        encodeBytes anchorHash.val "mine anchor" = .ok anchorBytes ∧
        bytes = start ++ ([3] ++ (recipientBytes ++ (anchorBytes ++ (Wire.bigEndian 8 salt
          ++ (Wire.bigEndian 8 nonce ++ Wire.bigEndian 4 difficultyBits))))) := by
    simp only [Outcome.bind_eq_ok, Outcome.pure_eq_ok, withContext, Outcome.mapErr_eq_ok,
      decodeCanonicalHexArray_eq_ok] at hrest
    obtain ⟨recipientBytes, hrecipient, anchorHash, hanchor, anchorBytes, hanchorBytes, rfl⟩ := hrest
    exact ⟨start, named, recipientBytes, anchorBytes, anchorHash, hstart, hnamed, hrecipient,
      hanchor, hanchorBytes, by simp only [List.append_assoc]⟩
  cases hkey : decodeCanonicalHexArray publicKeyBytes recipient with
  | ok key =>
    rw [hkey] at h
    refine hrest (.key key) ?_ h
    unfold decodedRecipient
    rw [hkey]
    rfl
  | error e =>
    rw [hkey] at h
    obtain ⟨address, haddress, h⟩ := Outcome.bind_eq_ok.mp h
    refine hrest (.address address) ?_ h
    unfold decodedRecipient
    rw [hkey]
    exact Outcome.bind_eq_ok.mpr ⟨address, haddress, rfl⟩

/-! ## Kinds -/

namespace Transaction

/-- What a transaction is signed over, or proved over: its signing bytes. -/
def preimage (domain : TransactionSigningDomain) : Transaction → Result Bytes
  | mine recipient anchor salt nonce difficultyBits _ _ =>
    mineSigningBytes domain recipient anchor salt nonce difficultyBits
  | transaction => transaction.signingBytes domain

/-- A transaction without its signatures and proofs, and with the recipient of a mine action as it
is decoded. -/
inductive Unsigned
  | transfer (inputs : List (OutPoint × Str)) (outputs : List TxOutput) (fee : Amount)
  | burn (inputs : List (OutPoint × Str)) (change : List TxOutput) (amount fee : Amount)
    (anchor : Option Str)
  | mine (recipient : Option MineRecipient) (anchor : Str) (salt nonce difficultyBits : ℕ)

def unsigned : Transaction → Unsigned
  | transfer inputs outputs fee _ => .transfer (inputs.map TxInput.withoutSignature) outputs fee
  | burn inputs change amount fee anchor _ =>
    .burn (inputs.map TxInput.withoutSignature) change amount fee anchor
  | mine recipient anchor salt nonce difficultyBits _ _ =>
    .mine (decodedRecipient recipient).toOption anchor salt nonce difficultyBits

/-- The integers of a transaction are in the range of their types, `u32` and `u64`. -/
structure FieldsFit (transaction : Transaction) : Prop where
  indices : ∀ input ∈ transaction.inputs, input.outpoint.index < 2 ^ 32
  amounts : ∀ output ∈ transaction.outputs, output.amount < 2 ^ 64
  fee : transaction.fee < 2 ^ 64
  burned : transaction.burned < 2 ^ 64
  mine : transaction.MineInRange

variable {domain domain' : TransactionSigningDomain} {bytes : Bytes}

/-- The parts of the signing bytes of a transfer. -/
lemma transfer_preimage_eq_ok {inputs : List TxInput} {outputs : List TxOutput} {fee : Amount}
    {signature : Str} (h : (transfer inputs outputs fee signature).preimage domain = .ok bytes) :
    ∃ start inputBytes outputBytes, domain.encode = .ok start ∧
      encodeInputs inputs = .ok inputBytes ∧ encodeOutputs outputs = .ok outputBytes ∧
      bytes = start ++ ([1] ++ (inputBytes ++ (outputBytes ++ Wire.bigEndian 8 fee))) := by
  simp only [preimage, signingBytes, Outcome.bind_eq_ok, Outcome.pure_eq_ok] at h
  obtain ⟨start, hstart, inputBytes, hinputs, outputBytes, houtputs, rfl⟩ := h
  exact ⟨start, inputBytes, outputBytes, hstart, hinputs, houtputs,
    by simp only [List.append_assoc]⟩

/-- The bytes of a burn anchor, and the type byte that it goes with. -/
def EncodesAnchor : Option Str → UInt8 → Bytes → Prop
  | none, tag, anchorBytes => tag = 2 ∧ anchorBytes = []
  | some anchor, tag, anchorBytes => tag = 3 ∧ ∃ hash : FixedBytes hashBytes,
    anchor = hexEncode hash.val ∧ encodeBytes hash.val "burn anchor" = .ok anchorBytes

/-- The parts of the signing bytes of a burn. -/
lemma burn_preimage_eq_ok {inputs : List TxInput} {change : List TxOutput} {amount fee : Amount}
    {anchor : Option Str} {signature : Str}
    (h : (burn inputs change amount fee anchor signature).preimage domain = .ok bytes) :
    ∃ start inputBytes changeBytes tag anchorBytes, domain.encode = .ok start ∧
      encodeInputs inputs = .ok inputBytes ∧ encodeOutputs change = .ok changeBytes ∧
      EncodesAnchor anchor tag anchorBytes ∧
      bytes = start ++ ([tag] ++ (inputBytes ++ (changeBytes ++ (Wire.bigEndian 8 amount
        ++ (Wire.bigEndian 8 fee ++ anchorBytes))))) := by
  cases anchor with
  | none =>
    simp only [preimage, signingBytes, Outcome.bind_eq_ok, Outcome.pure_eq_ok] at h
    obtain ⟨start, hstart, inputBytes, hinputs, changeBytes, hchange, _, rfl, rfl⟩ := h
    refine ⟨start, inputBytes, changeBytes, 2, [], hstart, hinputs, hchange, ⟨rfl, rfl⟩, ?_⟩
    simp
  | some anchor =>
    simp only [preimage, signingBytes, Outcome.bind_eq_ok, Outcome.pure_eq_ok, withContext,
      Outcome.mapErr_eq_ok, decodeCanonicalHexArray_eq_ok] at h
    obtain ⟨start, hstart, inputBytes, hinputs, changeBytes, hchange, hash, hhash, anchorBytes,
      hbytes, rfl⟩ := h
    refine ⟨start, inputBytes, changeBytes, 3, anchorBytes, hstart, hinputs, hchange,
      ⟨rfl, hash, hhash, hbytes⟩, ?_⟩
    simp

omit [Crypto] in
lemma EncodesAnchor.inj {anchor anchor' : Option Str} {tag : UInt8} {anchorBytes : Bytes}
    (h : EncodesAnchor anchor tag anchorBytes) (h' : EncodesAnchor anchor' tag anchorBytes) :
    anchor = anchor' := by
  cases anchor with
  | none =>
    cases anchor' with
    | none => rfl
    | some anchor' => exact absurd (h.1.symm.trans h'.1) (by decide)
  | some anchor =>
    cases anchor' with
    | none => exact absurd (h.1.symm.trans h'.1) (by decide)
    | some anchor' =>
      obtain ⟨-, hash, hanchor, hbytes⟩ := h
      obtain ⟨-, hash', hanchor', hbytes'⟩ := h'
      have hsame := congrArg (· ++ ([] : Bytes)) (rfl : anchorBytes = anchorBytes)
      obtain ⟨hhash, -⟩ := encodeBytes_append_inj hbytes hbytes' hsame
      rw [hanchor, hanchor', hhash]

/-! ### One kind -/

variable {inputs inputs' : List TxInput} {outputs outputs' : List TxOutput}
  {amount amount' fee fee' : Amount} {anchor anchor' : Option Str} {signature signature' : Str}

lemma transfer_preimage_inj (fits : (transfer inputs outputs fee signature).FieldsFit)
    (fits' : (transfer inputs' outputs' fee' signature').FieldsFit)
    (h : (transfer inputs outputs fee signature).preimage domain = .ok bytes)
    (h' : (transfer inputs' outputs' fee' signature').preimage domain' = .ok bytes) :
    domain = domain' ∧ (transfer inputs outputs fee signature).unsigned
      = (transfer inputs' outputs' fee' signature').unsigned := by
  obtain ⟨start, inputBytes, outputBytes, hstart, hinputs, houtputs, rfl⟩ :=
    transfer_preimage_eq_ok h
  obtain ⟨start', inputBytes', outputBytes', hstart', hinputs', houtputs', heq⟩ :=
    transfer_preimage_eq_ok h'
  obtain ⟨hdomain, heq⟩ := TransactionSigningDomain.encode_append_inj hstart hstart' heq
  have heq := List.append_cancel_left heq
  obtain ⟨hkeys, heq⟩ := encodeInputs_append_inj fits.indices fits'.indices hinputs hinputs' heq
  obtain ⟨houtputSame, heq⟩ :=
    encodeOutputs_append_inj fits.amounts fits'.amounts houtputs houtputs' heq
  have hfee := (bigEndian_inj fits.fee fits'.fee).mp heq
  refine ⟨hdomain, ?_⟩
  dsimp only [Transaction.inputs, Transaction.outputs, Transaction.fee] at hkeys houtputSame hfee
  rw [unsigned, unsigned, hkeys, houtputSame, hfee]

lemma burn_preimage_inj (fits : (burn inputs outputs amount fee anchor signature).FieldsFit)
    (fits' : (burn inputs' outputs' amount' fee' anchor' signature').FieldsFit)
    (h : (burn inputs outputs amount fee anchor signature).preimage domain = .ok bytes)
    (h' : (burn inputs' outputs' amount' fee' anchor' signature').preimage domain' = .ok bytes) :
    domain = domain' ∧ (burn inputs outputs amount fee anchor signature).unsigned
      = (burn inputs' outputs' amount' fee' anchor' signature').unsigned := by
  obtain ⟨start, inputBytes, outputBytes, tag, anchorBytes, hstart, hinputs, houtputs, hanchor,
    rfl⟩ := burn_preimage_eq_ok h
  obtain ⟨start', inputBytes', outputBytes', tag', anchorBytes', hstart', hinputs', houtputs',
    hanchor', heq⟩ := burn_preimage_eq_ok h'
  obtain ⟨hdomain, heq⟩ := TransactionSigningDomain.encode_append_inj hstart hstart' heq
  obtain ⟨rfl, hbody⟩ := List.cons.inj heq
  obtain ⟨hkeys, heq⟩ := encodeInputs_append_inj fits.indices fits'.indices hinputs hinputs' hbody
  obtain ⟨houtputSame, heq⟩ :=
    encodeOutputs_append_inj fits.amounts fits'.amounts houtputs houtputs' heq
  obtain ⟨hamount, heq⟩ : amount = amount' ∧ _ :=
    bigEndian_append_inj fits.burned fits'.burned heq
  obtain ⟨hfee, rfl⟩ : fee = fee' ∧ _ := bigEndian_append_inj fits.fee fits'.fee heq
  refine ⟨hdomain, ?_⟩
  dsimp only [Transaction.inputs, Transaction.outputs] at hkeys houtputSame
  rw [unsigned, unsigned, hkeys, houtputSame, hamount, hfee, hanchor.inj hanchor']

section Mine

variable {recipient recipient' mineAnchor mineAnchor' : Str} {salt salt' nonce nonce' : ℕ}
  {difficultyBits difficultyBits' : ℕ} {proofHeader proofHeader' : Option Str}

lemma mine_preimage_inj
    (fits : (mine recipient mineAnchor salt nonce difficultyBits proofHeader signature).FieldsFit)
    (fits' : (mine recipient' mineAnchor' salt' nonce' difficultyBits' proofHeader'
      signature').FieldsFit)
    (h : (mine recipient mineAnchor salt nonce difficultyBits proofHeader signature).preimage
      domain = .ok bytes)
    (h' : (mine recipient' mineAnchor' salt' nonce' difficultyBits' proofHeader'
      signature').preimage domain' = .ok bytes) :
    domain = domain' ∧
      (mine recipient mineAnchor salt nonce difficultyBits proofHeader signature).unsigned
        = (mine recipient' mineAnchor' salt' nonce' difficultyBits' proofHeader'
          signature').unsigned := by
  obtain ⟨start, named, recipientBytes, anchorBytes, anchorHash, hstart, hnamed, hrecipient,
    hanchor, hanchorBytes, rfl⟩ := mineSigningBytes_eq_ok h
  obtain ⟨start', named', recipientBytes', anchorBytes', anchorHash', hstart', hnamed',
    hrecipient', hanchor', hanchorBytes', heq⟩ := mineSigningBytes_eq_ok h'
  obtain ⟨hsalt, hnonce, hbits⟩ := fits.mine
  obtain ⟨hsalt', hnonce', hbits'⟩ := fits'.mine
  obtain ⟨hdomain, heq⟩ := TransactionSigningDomain.encode_append_inj hstart hstart' heq
  have heq := List.append_cancel_left heq
  obtain ⟨hrecipientBytes, heq⟩ := encodeBytes_append_inj hrecipient hrecipient' heq
  obtain ⟨hanchorHash, heq⟩ := encodeBytes_append_inj hanchorBytes hanchorBytes' heq
  obtain ⟨hsaltSame, heq⟩ := bigEndian_append_inj hsalt hsalt' heq
  obtain ⟨hnonceSame, heq⟩ := bigEndian_append_inj hnonce hnonce' heq
  have hbitsSame := (bigEndian_inj hbits hbits').mp heq
  refine ⟨hdomain, ?_⟩
  rw [unsigned, unsigned, hnamed, hnamed', MineRecipient.bytes_injective hrecipientBytes, hanchor,
    hanchor', hanchorHash, hsaltSame, hnonceSame, hbitsSame]

/-! ### Two kinds -/

omit [Crypto] in
/-- An encoded input has at least 76 bytes. -/
lemma length_encodeInput {input : TxInput} {w : Bytes} (h : encodeInput input = .ok w) :
    76 ≤ w.length := by
  obtain ⟨txid, owner, txidBytes, ownerBytes, -, -, hlength, htxid, howner, rfl⟩ :=
    encodeInput_eq_ok.mp h
  obtain ⟨-, rfl⟩ := encodeBytes_eq_ok.mp htxid
  obtain ⟨-, rfl⟩ := encodeBytes_eq_ok.mp howner
  simp only [List.length_append, Wire.bigEndian_length, owner.property, publicKeyBytes]
  unfold hashBytes signatureBytes at hlength
  omega

omit [Crypto] in
lemma length_encodeInput_parts {parts : List Bytes} (h : inputs.mapM encodeInput = .ok parts) :
    inputs.length * 76 ≤ parts.flatten.length := by
  have hpairs := Outcome.mapM_eq_ok.mp h
  clear h
  induction hpairs with
  | nil => simp
  | cons hhead _ ih =>
    have hpart := length_encodeInput hhead
    simp only [List.length_cons, List.flatten_cons, List.length_append]
    omega

omit [Crypto] in
lemma EncodesAnchor.tag_ne {tag : UInt8} {anchorBytes : Bytes}
    (h : EncodesAnchor anchor tag anchorBytes) : tag ≠ 1 := by
  cases anchor with
  | none => rw [h.1]; decide
  | some anchor => rw [h.1]; decide

lemma transfer_preimage_ne_burn
    (h : (transfer inputs outputs fee signature).preimage domain = .ok bytes)
    (h' : (burn inputs' outputs' amount' fee' anchor' signature').preimage domain' = .ok bytes) :
    False := by
  obtain ⟨start, inputBytes, outputBytes, hstart, -, -, rfl⟩ := transfer_preimage_eq_ok h
  obtain ⟨start', inputBytes', outputBytes', tag, anchorBytes, hstart', -, -, hanchor, heq⟩ :=
    burn_preimage_eq_ok h'
  obtain ⟨-, heq⟩ := TransactionSigningDomain.encode_append_inj hstart hstart' heq
  exact hanchor.tag_ne (List.cons.inj heq).1.symm

lemma transfer_preimage_ne_mine
    (h : (transfer inputs outputs fee signature).preimage domain = .ok bytes)
    (h' : (mine recipient mineAnchor salt nonce difficultyBits proofHeader signature').preimage
      domain' = .ok bytes) : False := by
  obtain ⟨start, inputBytes, outputBytes, hstart, -, -, rfl⟩ := transfer_preimage_eq_ok h
  obtain ⟨start', _, _, _, _, hstart', -, -, -, -, heq⟩ := mineSigningBytes_eq_ok h'
  obtain ⟨-, heq⟩ := TransactionSigningDomain.encode_append_inj hstart hstart' heq
  exact absurd (List.cons.inj heq).1 (by decide)

/-- The signing bytes of a burn are never those of a mine action: where the burn counts its inputs
the mine action has the length of its recipient, and so many inputs make a longer text. -/
lemma burn_preimage_ne_mine
    (h : (burn inputs outputs amount fee anchor signature).preimage domain = .ok bytes)
    (h' : (mine recipient mineAnchor salt nonce difficultyBits proofHeader signature').preimage
      domain' = .ok bytes) : False := by
  obtain ⟨start, inputBytes, outputBytes, tag, anchorBytes, hstart, hinputs, -, -, rfl⟩ :=
    burn_preimage_eq_ok h
  obtain ⟨start', named, recipientBytes, mineAnchorBytes, mineAnchorHash, hstart', -, hrecipient,
    -, hmineAnchor, heq⟩ := mineSigningBytes_eq_ok h'
  obtain ⟨-, heq⟩ := TransactionSigningDomain.encode_append_inj hstart hstart' heq
  obtain ⟨-, heq⟩ := List.cons.inj heq
  obtain ⟨count, parts, hcount, hparts, rfl⟩ := encodeInputs_eq_ok.mp hinputs
  obtain ⟨-, rfl⟩ := encodeBytes_eq_ok.mp hrecipient
  obtain ⟨-, rfl⟩ := encodeBytes_eq_ok.mp hmineAnchor
  have hsize := named.length_bytes
  have hlong := length_encodeInput_parts hparts
  have hcountBytes : encodeLen named.bytes.length "mine recipient"
      = .ok (Wire.bigEndian 4 named.bytes.length) := by
    simp only [encodeLen, Outcome.bind_eq_ok, Outcome.bailIf_eq_ok, Outcome.pure_eq_ok]
    refine ⟨⟨⟩, ?_, trivial⟩
    unfold u32Max
    omega
  simp only [List.append_assoc] at heq
  obtain ⟨hlength, heq⟩ := encodeLen_append_inj hcount hcountBytes heq
  have hlengths := congrArg List.length heq
  simp only [List.length_append, Wire.bigEndian_length, mineAnchorHash.property, hashBytes]
    at hlengths
  omega

end Mine

/-- Signing bytes determine the domain and the transaction up to its signatures and proofs,
whatever the kinds of the two transactions are. -/
theorem preimage_injective {transaction other : Transaction}
    (fits : transaction.FieldsFit) (fits' : other.FieldsFit)
    (h : transaction.preimage domain = .ok bytes) (h' : other.preimage domain' = .ok bytes) :
    domain = domain' ∧ transaction.unsigned = other.unsigned := by
  cases transaction with
  | transfer inputs outputs fee signature =>
    cases other with
    | transfer => exact transfer_preimage_inj fits fits' h h'
    | burn => exact (transfer_preimage_ne_burn h h').elim
    | mine => exact (transfer_preimage_ne_mine h h').elim
  | burn inputs change amount fee anchor signature =>
    cases other with
    | transfer => exact (transfer_preimage_ne_burn h' h).elim
    | burn => exact burn_preimage_inj fits fits' h h'
    | mine => exact (burn_preimage_ne_mine h h').elim
  | mine recipient anchor salt nonce difficultyBits proofHeader signature =>
    cases other with
    | transfer => exact (transfer_preimage_ne_mine h' h).elim
    | burn => exact (burn_preimage_ne_mine h' h).elim
    | mine => exact mine_preimage_inj fits fits' h h'

end Transaction

end Iuna

namespace Iuna.Toy

open Transaction

/-- A transfer of one unit to its own owner. -/
def ownTransfer (signature : Str) : Transaction :=
  .transfer [{ outpoint := { txid := repeatChar '0' 64, index := 0 }, owner := owner,
               signature := signature }]
    [{ address := owner, amount := 1 }] 0 signature

def ownTransferBytes : Bytes := (((ownTransfer []).signingBytes chainDomain).toOption).getD []

lemma ownTransfer_fits (signature : Str) : (ownTransfer signature).FieldsFit where
  indices := by simp [ownTransfer, Transaction.inputs]
  amounts := by simp [ownTransfer, Transaction.outputs]
  fee := by simp [ownTransfer, Transaction.fee]
  burned := by simp [ownTransfer, Transaction.burned]
  mine := trivial

set_option maxRecDepth 10000 in
lemma ownTransfer_preimage :
    @preimage crypto chainDomain (ownTransfer []) = .ok ownTransferBytes
      ∧ @preimage crypto chainDomain (ownTransfer (str "other")) = .ok ownTransferBytes := by
  decide +kernel

/-- Two transfers that differ in their signature only have one preimage. -/
theorem preimage_injective_transfer :
    chainDomain = chainDomain
      ∧ @unsigned crypto (ownTransfer []) = @unsigned crypto (ownTransfer (str "other")) :=
  @preimage_injective crypto _ _ _ _ _ (ownTransfer_fits []) (ownTransfer_fits (str "other"))
    ownTransfer_preimage.1 ownTransfer_preimage.2

end Iuna.Toy
