import Iuna.Properties.WalletEncoding

/-!
# Migrations of the browser wallet

`build_migration` spends every legacy coin of its request with one signature, written once or once
for each coin.  What it returns is the encoding of a migration (`buildMigration_written`), and the
node accepts it exactly when no outpoint is listed twice and the signing height asks for as many
authorizations as were written (`migrationAgrees_iff`).
-/

namespace Iuna.BrowserWallet

open Wire TransactionV2

variable [Crypto] [SigningKeys]

/-- The bytes of the id of a legacy input. -/
def legacyIdBytes : LegacyTransactionId → Bytes
  | .hash value => value.val
  | .signature value => value.val

omit [Crypto] [SigningKeys] in
lemma legacyIdBytes_injective : Function.Injective legacyIdBytes := by
  intro a b h
  have hlength := congrArg List.length h
  cases a with
  | hash value =>
    cases b with
    | hash value' => exact congrArg _ (Subtype.ext h)
    | signature value' => simp [legacyIdBytes, value.property, value'.property] at hlength
  | signature value =>
    cases b with
    | hash value' => simp [legacyIdBytes, value.property, value'.property] at hlength
    | signature value' => exact congrArg _ (Subtype.ext h)

/-- The owner of the legacy coins of a wallet. -/
def legacyOwner (seed : Str) : VersionedAddress :=
  { version := .ed25519PublicKey, payload := SigningKeys.ed25519Public (edSeed seed) }

/-- An input spends a legacy coin: it names its outpoint and the owner of the wallet. -/
structure SpendsLegacy (seed : Str) (utxo : LegacyUtxo) (input : TransactionV2LegacyInput) :
    Prop where
  id : Iuna.decodeHex utxo.outpoint.txid = .ok (legacyIdBytes input.outpointId)
  index : utxo.outpoint.index.toNat = input.outpointIndex
  owner : legacyOwner seed = input.owner

/-- The migration that was built is one that the node accepts: it spends every coin of the request,
pays the destination, and conserves the amounts. -/
def MigrationAgrees (request : MigrationRequest) (built : BuiltTransaction) : Prop :=
  ∃ bytes domain inputs amount fee authorizations,
    Accepted request.chainId request.genesisHash request.feeRate request.signingHeight built bytes
      domain (.migration inputs [{
        address := hybridOwner request.seed .external request.destinationIndex,
        amount := amount }] fee authorizations) ∧
    List.Forall₂ (SpendsLegacy request.seed) request.utxos inputs ∧
    (request.utxos.map fun utxo => utxo.amount.toNat).sum = amount + fee

/-- The request is within the rules of the node: no outpoint twice, and the signing height is on the
same side of the activation of aggregation for both, unless one coin is migrated alone. -/
structure MigrationFits (request : MigrationRequest) : Prop where
  distinct : (request.utxos.map fun utxo => utxo.outpoint.named).Nodup
  signers : (request.authorizationAggregationActivationHeight ≤ request.signingHeight ↔
      Iuna.authorizationAggregationActivationHeight ≤ request.signingHeight) ∨
    request.utxos.length = 1

lemma encodeLegacyInput_eq_ok {seed : Str} {utxo : LegacyUtxo} {bytes : Bytes}
    (h : encodeLegacyInput
      { version := 0, payload := SigningKeys.ed25519Public (edSeed seed) } utxo = .ok bytes) :
    ∃ input, SpendsLegacy seed utxo input ∧ encodeLegacyInputV2 input = bytes := by
  obtain ⟨id, hid, h⟩ := Outcome.bind_eq_ok.mp h
  rw [decodeHex_eq_ok] at hid
  by_cases hhash : id.length = 32
  · simp only [if_pos hhash, Outcome.bind_eq_ok, Outcome.pure_eq_ok] at h
    obtain ⟨_, rfl, rfl⟩ := h
    exact ⟨{ outpointId := .hash ⟨id, hhash⟩, outpointIndex := utxo.outpoint.index.toNat,
             owner := legacyOwner seed }, ⟨hid, rfl, rfl⟩, rfl⟩
  · by_cases hsignature : id.length = 64
    · simp only [if_neg hhash, if_pos hsignature, Outcome.bind_eq_ok, Outcome.pure_eq_ok] at h
      obtain ⟨_, rfl, rfl⟩ := h
      exact ⟨{ outpointId := .signature ⟨id, hsignature⟩,
               outpointIndex := utxo.outpoint.index.toNat, owner := legacyOwner seed },
        ⟨hid, rfl, rfl⟩, rfl⟩
    · simp [if_neg hhash, if_neg hsignature] at h

lemma nodup_of_spendsLegacy {seed : Str} {utxos : List LegacyUtxo}
    {inputs : List TransactionV2LegacyInput}
    (h : List.Forall₂ (SpendsLegacy seed) utxos inputs) :
    (inputs.map fun input => (input.outpointId, input.outpointIndex)).Nodup ↔
      (utxos.map fun utxo => utxo.outpoint.named).Nodup := by
  have hnamed : utxos.map (fun utxo => utxo.outpoint.named)
      = (inputs.map fun input => (input.outpointId, input.outpointIndex)).map
        fun outpoint => (some (legacyIdBytes outpoint.1), outpoint.2) := by
    induction h with
    | nil => rfl
    | cons hhead _ ih =>
      rw [List.map_cons, List.map_cons, List.map_cons, ih, Outpoint.named, hhead.id, hhead.index]
      rfl
  rw [hnamed]
  refine (List.nodup_map_iff fun a b h => ?_).symm
  obtain ⟨hid, hindex⟩ := Prod.mk.inj h
  exact Prod.ext (legacyIdBytes_injective (Option.some.inj hid)) hindex

/-- The one authorization that a migration repeats. -/
def legacyAuthorization (seed : Str) (payload : Bytes) : V2SpendingAuthorization :=
  { publicKey := { scheme := .ed25519, bytes := SigningKeys.ed25519Public (edSeed seed) }
    signature := SigningKeys.ed25519Sign (edSeed seed) payload }

/-- The transaction that a migration is written as. -/
structure MigrationWritten (request : MigrationRequest) (built : BuiltTransaction) (feeRate : ℕ)
    (domain : TransactionV2Domain) (inputs : List TransactionV2LegacyInput) (amount fee : ℕ)
    (authorizations : List V2SpendingAuthorization) : Prop where
  rate : parsePositiveU64 request.feeRate "fee rate" = .ok feeRate
  paid : feeRate * migrationEncodedSize request.chainId request.utxos request.authorizationCount
    ≤ fee
  nonempty : request.utxos ≠ []
  count : request.utxos.length ≤ maxV2Inputs
  valid : domain.Valid
  chain : domain.chainId = request.chainId
  genesis : decodeHexArray 32 request.genesisHash = .ok domain.genesisHash
  spends : List.Forall₂ (SpendsLegacy request.seed) request.utxos inputs
  amount_pos : amount ≠ 0
  balanced : (request.utxos.map fun utxo => utxo.amount.toNat).sum = amount + fee
  small : amount + fee ≤ u64Max
  authorizations_eq : authorizations = List.replicate request.authorizationCount
    (legacyAuthorization request.seed (prefixBytes domain ++ (TransactionV2.migration inputs
      [{ address := hybridOwner request.seed .external request.destinationIndex,
         amount := amount }] fee []).bodyBytes))
  built_eq : built = builtTransaction (envelopeBytes domain (.migration inputs
    [{ address := hybridOwner request.seed .external request.destinationIndex,
       amount := amount }] fee authorizations)) fee request.utxos.length

/-- What `build_migration` returns is the encoding of a migration of the requested coins. -/
lemma buildMigration_written {request : MigrationRequest} {built : BuiltTransaction}
    (h : buildMigration request = .ok built) :
    ∃ feeRate domain inputs amount fee authorizations,
      MigrationWritten request built feeRate domain inputs amount fee authorizations := by
  simp only [buildMigration, Outcome.bind_eq_ok, Outcome.bailIf_eq_ok, Outcome.pure_eq_ok,
    encodePrefix_eq_ok, decodeArray_eq_ok, pushU32_eq_ok, foldlM_checkedAdd_eq_ok, not_lt, not_le,
    Nat.zero_add] at h
  obtain ⟨feeRate, hrate, _, hnonempty, _, hcount, genesisHash, hgenesis, total, ⟨hsum, hle⟩, _, -,
    fee, hfee, _, hmore, _, ⟨hvalid, rfl⟩, _, ⟨-, rfl⟩, inputBytes, hinputs, outputBytes, houtputs,
    _, ⟨-, rfl⟩, authorization, hauthorization, rfl⟩ := h
  have hle := hle.resolve_left hnonempty
  obtain ⟨-, hpositive, rfl⟩ := (@encodeOutputs_eq_ok
    [{ address := hybridOwner request.seed .external request.destinationIndex,
       amount := total - fee.val }] outputBytes).mp houtputs
  obtain ⟨inputs, hspends, hinputs⟩ := exists_written encodeLegacyInput_eq_ok hinputs
  have hsigning (authorizations : List V2SpendingAuthorization) :
      prefixBytes { chainId := request.chainId, genesisHash := genesisHash } ++ [4]
          ++ bigEndian 4 request.utxos.length ++ inputBytes.flatten
          ++ countedList encodeOutputV2
            [{ address := hybridOwner request.seed .external request.destinationIndex,
               amount := total - fee.val }] ++ bigEndian 8 fee.val
        = prefixBytes { chainId := request.chainId, genesisHash := genesisHash }
          ++ (TransactionV2.migration inputs
            [{ address := hybridOwner request.seed .external request.destinationIndex,
               amount := total - fee.val }] fee.val authorizations).bodyBytes := by
    rw [hspends.length_eq, ← hinputs]
    simp only [bodyBytes, countedList, List.append_assoc, List.cons_append, List.nil_append]
  rw [hsigning []] at hauthorization ⊢
  have hencoded := encodeAuthorization_eq (legacyAuthorization request.seed
    (prefixBytes { chainId := request.chainId, genesisHash := genesisHash }
      ++ (TransactionV2.migration inputs
        [{ address := hybridOwner request.seed .external request.destinationIndex,
           amount := total - fee.val }] fee.val []).bodyBytes))
  obtain rfl := Except.ok.inj (hencoded.symm.trans hauthorization)
  refine ⟨feeRate, _, inputs, total - fee.val, fee.val, _, hrate, le_of_requiredFee hfee, hnonempty,
    hcount, hvalid, rfl, hgenesis, hspends, by omega, by omega, by omega, rfl, ?_⟩
  simp only [envelopeBytes, countedList, TransactionV2.authorizations, List.length_replicate,
    List.flatMap_replicate, List.append_assoc, bodyBytes]

lemma legacyAuthorization_address (seed : Str) (payload : Bytes) :
    (legacyAuthorization seed payload).authorizedAddress = .ok (legacyOwner seed) :=
  Outcome.bind_eq_ok.mpr ⟨SigningKeys.ed25519Public (edSeed seed), fixed_eq_ok.mpr rfl, rfl⟩

lemma legacyAuthorization_verifies (correct : SigningKeys.Correct) (seed : Str) (payload : Bytes) :
    verifyAuthorization payload (legacyAuthorization seed payload) = .ok ⟨⟩ := by
  refine Outcome.bind_eq_ok.mpr ⟨SigningKeys.ed25519Public (edSeed seed), fixed_eq_ok.mpr rfl,
    Outcome.bind_eq_ok.mpr ⟨SigningKeys.ed25519Sign (edSeed seed) payload, fixed_eq_ok.mpr rfl, ?_⟩⟩
  simp [verifyEd25519, correct.ed25519_valid, correct.ed25519_verifies]

omit [Crypto] [SigningKeys] in
lemma authorizationCount_le {request : MigrationRequest} (nonempty : request.utxos ≠ []) :
    1 ≤ request.authorizationCount ∧ request.authorizationCount ≤ request.utxos.length := by
  have hpositive := List.length_pos_of_ne_nil nonempty
  unfold MigrationRequest.authorizationCount
  split
  · exact ⟨le_rfl, hpositive⟩
  · exact ⟨hpositive, le_rfl⟩

omit [Crypto] [SigningKeys] in
/-- The unsigned shape of a migration into one hybrid output: the inputs are distinct. -/
lemma migrationShape_iff {inputs : List TransactionV2LegacyInput} (output : TransactionV2Output)
    (fee : ℕ) (authorizations : List V2SpendingAuthorization) (inputs_ne : inputs ≠ [])
    (few : inputs.length ≤ maxV2Inputs) (positive : output.amount ≠ 0)
    (hybrid : output.address.version = .hybridKeyCommitment) :
    (TransactionV2.migration inputs [output] fee authorizations).validateUnsignedShape = .ok ⟨⟩ ↔
      (inputs.map fun input => (input.outpointId, input.outpointIndex)).Nodup := by
  simp only [validateUnsignedShape, inputCount, TransactionV2.outputs, Outcome.bind_eq_ok,
    Outcome.bailIf_eq_ok, not_not]
  constructor
  · rintro ⟨_, -, _, -, _, -, _, -, _, -, hdistinct⟩
    exact hdistinct
  · intro hdistinct
    refine ⟨⟨⟩, Outcome.bailIf_eq_ok.mpr (not_lt.mpr few), ⟨⟩,
      Outcome.bailIf_eq_ok.mpr (not_lt.mpr (show 1 ≤ maxV2Outputs by decide)), ⟨⟩,
      Outcome.bailIf_eq_ok.mpr (by simp [positive]), ⟨⟩,
      inputs_ne, ⟨⟩, by simp [hybrid], hdistinct⟩

omit [Crypto] [SigningKeys] in
/-- A text that is read as bytes has two bytes for each of them. -/
lemma byteLen_of_decodeHex {value : Str} {bytes : Bytes} (h : Iuna.decodeHex value = .ok bytes) :
    byteLen value = 2 * bytes.length := by
  simp only [Iuna.decodeHex, Outcome.bind_eq_ok, Outcome.bailIf_eq_ok, not_not] at h
  obtain ⟨_, heven, hpairs⟩ := h
  exact (decodeHexPairs_eq_ok heven hpairs).1

omit [Crypto] [SigningKeys] in
lemma encodeLegacyInputV2_length (input : TransactionV2LegacyInput) :
    (encodeLegacyInputV2 input).length
      = 1 + (legacyIdBytes input.outpointId).length + 4 + 33 := by
  rw [encodeLegacyInputV2]
  cases input.outpointId with
  | hash value =>
    simp only [legacyIdBytes, Iuna.encodeAddressBytes, List.length_append, List.length_cons,
      bigEndian_length, input.owner.payload.property]
    omega
  | signature value =>
    simp only [legacyIdBytes, Iuna.encodeAddressBytes, List.length_append, List.length_cons,
      bigEndian_length, input.owner.payload.property]
    omega

lemma legacyInputs_length {seed : Str} {utxos : List LegacyUtxo}
    {inputs : List TransactionV2LegacyInput} (h : List.Forall₂ (SpendsLegacy seed) utxos inputs) :
    (inputs.flatMap encodeLegacyInputV2).length
      = (utxos.map fun input => 1 + byteLen input.outpoint.txid / 2 + 4 + 33).sum := by
  induction h with
  | nil => rfl
  | cons hhead _ ih =>
    have hlength := byteLen_of_decodeHex hhead.id
    rw [List.flatMap_cons, List.length_append, encodeLegacyInputV2_length, ih, List.map_cons,
      List.sum_cons]
    omega

namespace MigrationWritten

variable {request : MigrationRequest} {built : BuiltTransaction} {feeRate : ℕ}
  {domain : TransactionV2Domain} {inputs : List TransactionV2LegacyInput} {amount fee : ℕ}
  {authorizations : List V2SpendingAuthorization}

lemma owners
    (written : MigrationWritten request built feeRate domain inputs amount fee authorizations)
    (outputs : List TransactionV2Output) :
    (TransactionV2.migration inputs outputs fee authorizations).owners
      = List.replicate request.utxos.length (legacyOwner request.seed) := by
  refine List.eq_replicate_iff.mpr ⟨?_, fun owner howner => ?_⟩
  · rw [TransactionV2.owners, List.length_map, written.spends.length_eq]
  · obtain ⟨input, hinput, rfl⟩ := List.mem_map.mp howner
    obtain ⟨utxo, -, hspends⟩ := Outcome.exists_partner written.spends hinput
    exact hspends.owner.symm

/-- The owner of the legacy coins signs, once or once for each coin. -/
lemma written (correct : SigningKeys.Correct)
    (written : MigrationWritten request built feeRate domain inputs amount fee authorizations) :
    WrittenTransaction domain (.migration inputs
        [{ address := hybridOwner request.seed .external request.destinationIndex,
           amount := amount }] fee authorizations) .ed25519PublicKey .ed25519
      (List.replicate request.authorizationCount (legacyOwner request.seed)) where
  valid := written.valid
  spends := .inr ⟨_, _, _, _, rfl⟩
  fits := by
    have hsmall := written.small
    have hmax : u64Max < 256 ^ 8 := by decide
    have hamount : amount < 256 ^ 8 := by omega
    have hfee : fee < 256 ^ 8 := by omega
    refine ⟨fun input hinput => ?_, fun output houtput => ?_, hfee⟩
    · obtain ⟨utxo, -, hspends⟩ := Outcome.exists_partner written.spends hinput
      rw [← hspends.index]
      exact utxo.outpoint.index.toNat_lt
    · rw [List.mem_singleton.mp houtput]
      exact hamount
  small := by
    rw [inputCount, ← written.spends.length_eq]
    exact written.count.trans_lt (by decide)
  outputs := show 1 ≤ maxV2Outputs by decide
  signed :=
    { expected := rfl
      authorizes := by
        rw [TransactionV2.authorizations, written.authorizations_eq]
        exact List.forall₂_iff_zip.mpr ⟨by simp, fun hmem => by
          obtain ⟨hauthorization, howner⟩ := List.of_mem_zip hmem
          rw [List.eq_of_mem_replicate hauthorization, List.eq_of_mem_replicate howner]
          exact legacyAuthorization_address _ _⟩
      schemes := by
        intro authorization hmem
        rw [TransactionV2.authorizations, written.authorizations_eq] at hmem
        rw [List.eq_of_mem_replicate hmem]
        rfl
      versions := by
        intro owner howner
        rw [written.owners] at howner
        rw [List.eq_of_mem_replicate howner]
        rfl
      sublist := by
        rw [written.owners]
        exact List.replicate_sublist_replicate _ |>.mpr (authorizationCount_le written.nonempty).2
      covers := by
        intro owner howner
        rw [written.owners] at howner
        rw [List.eq_of_mem_replicate howner]
        have hpositive := (authorizationCount_le written.nonempty).1
        exact List.mem_replicate.mpr ⟨by omega, rfl⟩ }
  verifies := by
    intro authorization hmem
    rw [TransactionV2.authorizations, written.authorizations_eq] at hmem
    rw [List.eq_of_mem_replicate hmem]
    exact legacyAuthorization_verifies correct _ _

/-- The policy asks of the signers what `MigrationFits` asks of the request. -/
lemma signersFit_iff
    (written : MigrationWritten request built feeRate domain inputs amount fee authorizations)
    (outputs : List TransactionV2Output) :
    SignersFit (TransactionV2.migration inputs outputs fee authorizations).owners
        (List.replicate request.authorizationCount (legacyOwner request.seed))
        request.signingHeight ↔
      ((request.authorizationAggregationActivationHeight ≤ request.signingHeight ↔
        Iuna.authorizationAggregationActivationHeight ≤ request.signingHeight) ∨
      request.utxos.length = 1) := by
  have hpositive := List.length_pos_of_ne_nil written.nonempty
  rw [SignersFit, written.owners, List.length_replicate, List.length_replicate,
    List.nodup_replicate]
  unfold MigrationRequest.authorizationCount
  by_cases hnode : request.signingHeight < Iuna.authorizationAggregationActivationHeight
  · rw [if_pos hnode]
    have hnode := not_le.mpr hnode
    split
    · rename_i hwallet
      simp only [hwallet, hnode, iff_false, not_true_eq_false, false_or]
      exact eq_comm
    · rename_i hwallet
      simp only [hwallet, hnode, iff_self, true_or]
  · rw [if_neg hnode]
    have hnode := not_lt.mp hnode
    split
    · rename_i hwallet
      simp only [hwallet, hnode, iff_self, true_or, le_refl]
    · rename_i hwallet
      simp only [hwallet, hnode, iff_true, false_or]
      omega

lemma envelope_length
    (written : MigrationWritten request built feeRate domain inputs amount fee authorizations) :
    (envelopeBytes domain (.migration inputs
        [{ address := hybridOwner request.seed .external request.destinationIndex,
           amount := amount }] fee authorizations)).length
      = migrationEncodedSize request.chainId request.utxos request.authorizationCount := by
  have hscheme : ∀ authorization ∈ authorizations, authorization.scheme = .ed25519 := by
    intro authorization hmem
    rw [written.authorizations_eq] at hmem
    rw [List.eq_of_mem_replicate hmem]
    rfl
  have hcount : authorizations.length = request.authorizationCount := by
    rw [written.authorizations_eq, List.length_replicate]
  simp only [envelopeBytes, bodyBytes, countedList, TransactionV2.authorizations,
    List.length_append, List.length_cons, List.length_nil, bigEndian_length, prefixBytes_length,
    legacyInputs_length written.spends, flatMap_length encodeOutputV2_length,
    authorizations_length hscheme, hcount, migrationEncodedSize, written.chain,
    SignatureScheme.publicKeyBytes, SignatureScheme.signatureBytes]
  omega

end MigrationWritten

/-- The migration that was built agrees with the node exactly when the request is within its
rules. -/
lemma migrationAgrees_iff (correct : SigningKeys.Correct) {request : MigrationRequest}
    {built : BuiltTransaction} (h : buildMigration request = .ok built) :
    MigrationAgrees request built ↔ MigrationFits request := by
  obtain ⟨feeRate, domain, inputs, amount, fee, authorizations, hwritten⟩ :=
    buildMigration_written h
  have hready := hwritten.written correct
  have hbuilt := hwritten.built_eq
  rw [hwritten.spends.length_eq] at hbuilt
  have hinputs : inputs ≠ [] := fun hnil => hwritten.nonempty
    (List.length_eq_zero_iff.mp (by rw [hwritten.spends.length_eq, hnil, List.length_nil]))
  have hshape := migrationShape_iff
    { address := hybridOwner request.seed .external request.destinationIndex, amount := amount } fee
    authorizations hinputs (hwritten.spends.length_eq ▸ hwritten.count) hwritten.amount_pos rfl
  rw [nodup_of_spendsLegacy hwritten.spends] at hshape
  constructor
  · rintro ⟨bytes, domain', inputs', amount', fee', authorizations', haccepted, -⟩
    rw [hbuilt] at haccepted
    obtain ⟨-, hunsigned, hsigners⟩ := hready.of_accepted haccepted
    exact ⟨hshape.mp hunsigned, (hwritten.signersFit_iff _).mp hsigners⟩
  · rintro ⟨hdistinct, hsigners⟩
    have hrate := hwritten.paid
    rw [← hwritten.envelope_length] at hrate
    have haccepted := hready.accepted hwritten.genesis ⟨_, hwritten.rate, hrate⟩
      (hshape.mpr hdistinct) ((hwritten.signersFit_iff _).mpr hsigners)
    rw [hwritten.chain] at haccepted
    exact ⟨_, _, _, _, _, _, hbuilt ▸ haccepted, hwritten.spends, hwritten.balanced⟩

end Iuna.BrowserWallet
