import Mathlib.Data.List.Nodup
import Mathlib.Data.List.Perm.Subperm
import Mathlib.Data.List.Zip
import Iuna.Properties.Effects
import Iuna.Properties.Launch

/-!
# Who may spend

An output leaves the unspent outputs only through an input of a transaction of an accepted block,
and then its owner has signed that transaction.  A legacy transaction has one owner and one
signature; the bytes it signs start with the chain from the activation of the signing format on
and are the bare text of the transaction below it (`LegacyPreimage`).  A v2 transaction always
signs its chain; from the activation of the aggregation on, its authorizations and the owners of
its inputs correspond one to one.

`spends_authorized` states this of the run of a block: every round of its two loops spends only
what is authorized.
-/

namespace Iuna

open Resource Runs

variable [Crypto]

/-! ## Legacy transactions -/

/-- An owner has signed a legacy transaction over a preimage: every input names the owner and
repeats the signature of the transaction, and the signature verifies. -/
structure Transaction.SignedBy (transaction : Transaction) (owner : Str) (preimage : Bytes) :
    Prop where
  owner_eq : ∀ input ∈ transaction.inputs, input.owner = owner
  signature_eq : ∀ input ∈ transaction.inputs, input.signature = transaction.signature
  verified : ∃ key signature, decodeHexArray publicKeyBytes owner = .ok key
    ∧ decodeHexArray signatureBytes transaction.signature = .ok signature
    ∧ Crypto.ed25519Verify key preimage signature = true

omit [Crypto] in
/-- A canonical text of an array is a text of it. -/
lemma decodeHexArray_of_canonical {n : ℕ} {value : Str} {array : FixedBytes n}
    (h : decodeCanonicalHexArray n value = .ok array) : decodeHexArray n value = .ok array := by
  rw [decodeCanonicalHexArray_eq_ok.mp h, decodeHexArray_hexEncode]

omit [Crypto] in
/-- The inputs of a transfer or a burn with one owner are not empty, and the first of them gives
the sender. -/
lemma ensureSingleInputOwner_eq_ok {transaction : Transaction} {u : Unit}
    (notMine : transaction.isMine = false) (h : ensureSingleInputOwner transaction = .ok u) :
    transaction.inputs ≠ [] ∧ ∀ input ∈ transaction.inputs, input.owner = transaction.sender := by
  have hspends (hsender : transaction.sender
      = (transaction.inputs.head?.map TxInput.owner).getD [])
      (h : ensureSingleInputOwnerForInputs transaction.inputs = .ok u) :
      transaction.inputs ≠ []
        ∧ ∀ input ∈ transaction.inputs, input.owner = transaction.sender := by
    simp only [ensureSingleInputOwnerForInputs, Outcome.bind_eq_ok, Outcome.ofOption_eq_ok,
      Outcome.bailIf_eq_ok, List.any_eq_true, decide_eq_true_eq, not_exists, not_and, not_not] at h
    obtain ⟨first, hfirst, howner⟩ := h
    refine ⟨?_, fun input hinput => ?_⟩
    · intro hnil
      rw [hnil] at hfirst
      cases hfirst
    rw [hsender, hfirst, Option.map_some, Option.getD_some]
    exact howner input hinput
  cases transaction with
  | mine => simp [Transaction.isMine] at notMine
  | transfer => exact hspends rfl h
  | burn => exact hspends rfl h

/-- The signatures of a checked transfer or burn are hexadecimal, those of its inputs and its
own. -/
lemma Ledger.signatures_of_terms {ledger : Ledger} {transaction : Transaction} {u : Unit}
    (notMine : transaction.isMine = false)
    (h : ledger.validateTransactionTerms transaction = .ok u) :
    transaction.signature.length = 128
      ∧ (∃ signature, decodeHexArray signatureBytes transaction.signature = .ok signature)
      ∧ ∀ input ∈ transaction.inputs, input.signature.length = 128 := by
  have hsignature {signature : Str} {label : String} {u : Unit}
      (h : validateSignature signature label = .ok u) :
      signature.length = 128 ∧ ∃ array, decodeHexArray signatureBytes signature = .ok array := by
    refine ⟨validateSignature_length h, ?_⟩
    simp only [validateSignature, withContext, Outcome.bind_eq_ok, Outcome.mapErr_eq_ok] at h
    obtain ⟨array, harray, -⟩ := h
    exact ⟨array, harray⟩
  have hinputs {inputs : List TxInput} {u : Unit} (h : validateTransactionInputs inputs = .ok u) :
      ∀ input ∈ inputs, input.signature.length = 128 := by
    intro input hinput
    have hinput := Outcome.forM_eq_ok.mp h input hinput
    simp only [Outcome.bind_eq_ok] at hinput
    obtain ⟨_, _, _, _, hvalid⟩ := hinput
    exact (hsignature hvalid).1
  cases transaction with
  | mine => simp [Transaction.isMine] at notMine
  | transfer inputs outputs fee signature =>
    simp only [validateTransactionTerms, Outcome.bind_eq_ok] at h
    obtain ⟨_, _, _, hvalid, _, _, hown⟩ := h
    exact ⟨(hsignature hown).1, (hsignature hown).2, hinputs hvalid⟩
  | burn inputs change amount fee anchor signature =>
    cases anchor with
    | none =>
      simp only [validateTransactionTerms, Outcome.bind_eq_ok] at h
      obtain ⟨_, _, _, hvalid, _, _, hown⟩ := h
      exact ⟨(hsignature hown).1, (hsignature hown).2, hinputs hvalid⟩
    | some anchor =>
      simp only [validateTransactionTerms, Outcome.bind_eq_ok] at h
      obtain ⟨_, _, _, hvalid, _, _, _, _, hown⟩ := h
      exact ⟨(hsignature hown).1, (hsignature hown).2, hinputs hvalid⟩

omit [Crypto] in
/-- A hexadecimal text does not start like the id of a genesis burn. -/
lemma not_genesisBurn_of_decodeHexArray {n : ℕ} {value : Str} {array : FixedBytes n}
    (h : decodeHexArray n value = .ok array) :
    (str "iuna-genesis-burn:").isPrefixOf value = false := by
  by_contra hprefix
  simp only [Bool.not_eq_false, List.isPrefixOf_iff_prefix] at hprefix
  obtain ⟨rest, rfl⟩ := hprefix
  have hdecode := decodeHexArray_eq_ok.mp h
  simp only [decodeHex, Outcome.bind_eq_ok] at hdecode
  obtain ⟨_, -, hpairs⟩ := hdecode
  have hutf8 : utf8 (str "iuna-genesis-burn:" ++ rest)
      = 0x69 :: 0x75 :: utf8 (str "na-genesis-burn:" ++ rest) := rfl
  rw [hutf8] at hpairs
  simp [decodeHexPairs, hexValue] at hpairs

/-- The bytes that a legacy transaction signs at a height. -/
def Ledger.LegacyPreimage (ledger : Ledger) (transaction : Transaction) (height : ℕ)
    (preimage : Bytes) : Prop :=
  if transactionSigningV1ActivationHeight ≤ height then
    transaction.signingBytes (.new ledger.launchProfile.profileId ledger.genesisHash) = .ok preimage
  else preimage = utf8 transaction.signingPayload

/-- What a legacy signature check has found when it takes none of its early exits. -/
lemma Transaction.verifySignature_eq_ok (transaction : Transaction)
    {domain : TransactionSigningDomain} {u : Unit} (notMine : transaction.isMine = false)
    (notGenesis : transaction.inputsAreGenesisSigned = false)
    (notBurn : (str "iuna-genesis-burn:").isPrefixOf transaction.signature = false)
    (h : transaction.verifySignature domain = .ok u) :
    (∀ input ∈ transaction.inputs, input.signature = transaction.signature) ∧
      ∃ key, (if domain.chainBound then
          decodeCanonicalHexArray publicKeyBytes transaction.sender
        else decodeHexArray publicKeyBytes transaction.sender) = .ok key ∧
      ∃ signature, (if domain.chainBound then
          decodeCanonicalHexArray signatureBytes transaction.signature
        else decodeHexArray signatureBytes transaction.signature) = .ok signature ∧
      ∃ preimage, (if domain.chainBound then transaction.signingBytes domain
        else pure (utf8 transaction.signingPayload)) = .ok preimage ∧
      verifyEd25519 key preimage signature "transaction" = .ok () := by
  have hnoExit : ¬ ((str "iuna-genesis-burn:").isPrefixOf transaction.signature = true
      ∨ transaction.inputsAreGenesisSigned = true) := by
    simp [notGenesis, notBurn]
  obtain ⟨chainId, genesisHash, chainBound⟩ := domain
  cases transaction with
  | mine => simp [isMine] at notMine
  | transfer =>
    unfold verifySignature at h
    dsimp only at h
    rw [if_neg hnoExit] at h
    cases chainBound <;> simpa [withContext] using h
  | burn =>
    unfold verifySignature at h
    dsimp only at h
    rw [if_neg hnoExit] at h
    cases chainBound <;> simpa [withContext] using h

/-- **The signature of a legacy transaction.** None of the exits of the check that need no
signature is taken: the owner of the inputs has signed the bytes of the height. -/
theorem Ledger.verifySignature_signedBy {ledger : Ledger} {transaction : Transaction} {height : ℕ}
    {u : Unit} (notMine : transaction.isMine = false)
    (terms : ledger.validateTransactionTerms transaction = .ok u)
    (single : ensureSingleInputOwner transaction = .ok u)
    (h : transaction.verifySignature (ledger.transactionSigningDomainAt height) = .ok u) :
    transaction.inputsAreGenesisSigned = false
      ∧ (str "iuna-genesis-burn:").isPrefixOf transaction.signature = false
      ∧ ∃ preimage, ledger.LegacyPreimage transaction height preimage
        ∧ transaction.SignedBy transaction.sender preimage := by
  obtain ⟨hnonempty, howners⟩ := ensureSingleInputOwner_eq_ok notMine single
  obtain ⟨-, ⟨array, harray⟩, hinputs⟩ := signatures_of_terms notMine terms
  have hgenesis : transaction.inputsAreGenesisSigned = false := by
    obtain ⟨input, hinput⟩ := List.exists_mem_of_ne_nil _ hnonempty
    rw [Transaction.inputsAreGenesisSigned, List.all_eq_false]
    refine ⟨input, hinput, ?_⟩
    have hlength := hinputs input hinput
    rw [decide_eq_true_eq]
    intro heq
    rw [heq] at hlength
    exact absurd hlength (by decide)
  have hprefix := not_genesisBurn_of_decodeHexArray harray
  refine ⟨hgenesis, hprefix, ?_⟩
  obtain ⟨hsignatures, key, hkey, signature, hsignature, preimage, hpreimage, hverify⟩ :=
    transaction.verifySignature_eq_ok notMine hgenesis hprefix h
  have hverified := verifyEd25519_eq_ok hverify
  by_cases hactive : transactionSigningV1ActivationHeight ≤ height
  · have hdomain : ledger.transactionSigningDomainAt height
        = .new ledger.launchProfile.profileId ledger.genesisHash := by
      rw [transactionSigningDomainAt, TransactionSigningDomain.forHeight, if_pos hactive]
    rw [hdomain] at hkey hsignature hpreimage
    simp only [TransactionSigningDomain.new, if_true] at hkey hsignature hpreimage
    refine ⟨preimage, ?_, howners, hsignatures, key, signature, decodeHexArray_of_canonical hkey,
      decodeHexArray_of_canonical hsignature, hverified⟩
    rw [LegacyPreimage, if_pos hactive]
    exact hpreimage
  · have hdomain : ledger.transactionSigningDomainAt height = .legacy := by
      rw [transactionSigningDomainAt, TransactionSigningDomain.forHeight, if_neg hactive]
    rw [hdomain] at hkey hsignature hpreimage
    simp only [TransactionSigningDomain.legacy, Bool.false_eq_true, if_false, Outcome.pure_eq_ok]
      at hkey hsignature hpreimage
    refine ⟨preimage, ?_, howners, hsignatures, key, signature, hkey, hsignature, hverified⟩
    rw [LegacyPreimage, if_neg hactive]
    exact hpreimage.symm

/-- What a legacy transaction removes from the unspent outputs at a height, and who has signed
it. -/
structure Ledger.TransactionAuthorized (ledger : Ledger) (height : ℕ) (utxos : Utxos)
    (transaction : Transaction) (utxos' : Utxos) : Prop where
  signed : transaction.isMine = false → transaction.inputs ≠ []
    ∧ transaction.inputsAreGenesisSigned = false
    ∧ (str "iuna-genesis-burn:").isPrefixOf transaction.signature = false
  removed : ∀ (outpoint : OutPoint) (output : TxOutput), utxos[outpoint]? = some output →
    utxos'[outpoint]? ≠ some output →
    ∃ preimage, ledger.LegacyPreimage transaction height preimage
      ∧ transaction.SignedBy output.address preimage

/-- A round of the legacy loop is authorized. -/
lemma Ledger.transactionRound_authorized {ledger : Ledger} {block : Block}
    {before after : List Str × LineageState} {transaction : Transaction}
    (round : ledger.TransactionRound block before transaction after) :
    ledger.TransactionAuthorized block.height before.2.utxos transaction after.2.utxos := by
  obtain ⟨-, hterms, -, happlied, -⟩ := applyBlockTransaction_eq_ok.mp round
  obtain ⟨hverify, hsingle, -⟩ := applyTransactionWithLineage_eq_ok.mp happlied
  have hverify := hverify _ rfl
  refine ⟨fun hnotMine => ?_, ?_⟩
  · obtain ⟨hgenesis, hprefix, -⟩ := verifySignature_signedBy hnotMine hterms hsingle hverify
    exact ⟨(ensureSingleInputOwner_eq_ok hnotMine hsingle).1, hgenesis, hprefix⟩
  · intro outpoint output hbefore hafter
    obtain ⟨spent, hspent, hrun, -⟩ := applyTransactionWithLineage_effects happlied
    obtain ⟨input, hinput, -, haddress⟩ :=
      Outcome.exists_partner hspent (mem_of_removed hrun hbefore hafter)
    have hnotMine : transaction.isMine = false := by
      cases transaction with
      | mine => cases hinput
      | transfer => rfl
      | burn => rfl
    obtain ⟨-, -, preimage, hpreimage, hsigned⟩ :=
      verifySignature_signedBy hnotMine hterms hsingle hverify
    have howner := (ensureSingleInputOwner_eq_ok hnotMine hsingle).2 input hinput
    exact ⟨preimage, hpreimage, by rwa [haddress, howner]⟩

/-! ## Transactions v2 -/

/-- An authorization signs a payload: a classical key with its one signature, a hybrid key with
both. -/
def V2SpendingAuthorization.Signs (authorization : V2SpendingAuthorization) (payload : Bytes) :
    Prop :=
  match authorization.scheme with
  | .ed25519 => ∃ (key : FixedBytes 32) (signature : FixedBytes 64),
    key.val = authorization.publicKey.bytes.val ∧ signature.val = authorization.signature.val
      ∧ Crypto.ed25519Verify key payload signature = true
  | .hybridEd25519MlDsa44 =>
    (∃ (key : FixedBytes 32) (signature : FixedBytes 64),
      key.val = authorization.publicKey.bytes.val.take 32
        ∧ signature.val = authorization.signature.val.take 64
        ∧ Crypto.ed25519Verify key payload signature = true) ∧
    ∃ (key : FixedBytes 1312) (signature : FixedBytes 2420),
      key.val = authorization.publicKey.bytes.val.drop 32
        ∧ signature.val = authorization.signature.val.drop 64
        ∧ Crypto.mlDsa44Verify key payload signature = true
  | .mlDsa44 => False

lemma verifyAuthorization_signs {payload : Bytes} {authorization : V2SpendingAuthorization}
    {u : Unit} (h : TransactionV2.verifyAuthorization payload authorization = .ok u) :
    authorization.Signs payload := by
  unfold TransactionV2.verifyAuthorization at h
  split at h
  · rename_i hscheme
    simp only [Outcome.bind_eq_ok, fixed_eq_ok] at h
    obtain ⟨key, hkey, signature, hsignature, hverify⟩ := h
    unfold V2SpendingAuthorization.Signs V2SpendingAuthorization.scheme
    simp only [hscheme]
    exact ⟨key, signature, hkey, hsignature, verifyEd25519_eq_ok hverify⟩
  · rename_i hscheme
    simp only [Outcome.bind_eq_ok, fixed_eq_ok] at h
    obtain ⟨key, hkey, signature, hsignature, _, hverify, key', hkey', signature', hsignature',
      hverify'⟩ := h
    unfold V2SpendingAuthorization.Signs V2SpendingAuthorization.scheme
    simp only [hscheme]
    exact ⟨⟨key, signature, hkey, hsignature, verifyEd25519_eq_ok hverify⟩,
      key', signature', hkey', hsignature', verifyMlDsa44_eq_ok hverify'⟩
  · cases h

/-- The owners that authorizations stand for. -/
def Authorizes (authorizations : List V2SpendingAuthorization) (owners : List VersionedAddress) :
    Prop :=
  List.Forall₂ (fun authorization owner => authorization.authorizedAddress = .ok owner)
    authorizations owners

namespace TransactionV2

omit [Crypto] in
/-- The owners of the inputs, each once. -/
lemma uniqueOwners_spec (owners : List VersionedAddress) :
    (uniqueOwners owners).Nodup ∧ ∀ owner, owner ∈ uniqueOwners owners ↔ owner ∈ owners := by
  have hfold (unique : List VersionedAddress) (distinct : unique.Nodup) :
      (owners.foldl (fun unique owner => if owner ∈ unique then unique else unique ++ [owner])
        unique).Nodup ∧ ∀ owner,
        owner ∈ owners.foldl (fun unique owner =>
          if owner ∈ unique then unique else unique ++ [owner]) unique
          ↔ owner ∈ unique ∨ owner ∈ owners := by
    induction owners generalizing unique with
    | nil => simpa using distinct
    | cons first owners ih =>
      rw [List.foldl_cons]
      by_cases hmem : first ∈ unique
      · rw [if_pos hmem]
        obtain ⟨hnodup, hmem'⟩ := ih unique distinct
        refine ⟨hnodup, fun owner => (hmem' owner).trans ?_⟩
        rw [List.mem_cons]
        constructor
        · rintro (h | h)
          · exact .inl h
          · exact .inr (.inr h)
        · rintro (h | rfl | h)
          · exact .inl h
          · exact .inl hmem
          · exact .inr h
      · rw [if_neg hmem]
        obtain ⟨hnodup, hmem'⟩ := ih (unique ++ [first])
          (List.nodup_append.mpr ⟨distinct, List.nodup_singleton _, fun a ha b hb heq => by
            rw [List.mem_singleton.mp hb] at heq
            exact hmem (heq ▸ ha)⟩)
        refine ⟨hnodup, fun owner => (hmem' owner).trans ?_⟩
        rw [List.mem_append, List.mem_singleton, List.mem_cons, or_assoc]
  obtain ⟨hdistinct, hmem⟩ := hfold [] List.nodup_nil
  exact ⟨hdistinct, fun owner => (hmem owner).trans (or_iff_right List.not_mem_nil)⟩

/-- The per-input policy pairs every owner with an authorization for it. -/
lemma checkPairedAuthorizations_authorizes {version : AddressVersion} {scheme : SignatureScheme}
    {error : String} {owners : List VersionedAddress}
    {authorizations : List V2SpendingAuthorization} {u : Unit}
    (length : authorizations.length = owners.length)
    (h : checkPairedAuthorizations version scheme error (owners.zip authorizations) = .ok u) :
    Authorizes authorizations owners := by
  have hpairs := Outcome.forM_eq_ok.mp h
  simp only [Outcome.bind_eq_ok, Outcome.bailIf_eq_ok, not_not] at hpairs
  refine List.forall₂_iff_zip.mpr ⟨length, ?_⟩
  intro authorization owner hmem
  have hmem' : (owner, authorization) ∈ owners.zip authorizations := by
    rw [← List.zip_swap]
    exact List.mem_map.mpr ⟨_, hmem, rfl⟩
  obtain ⟨_, -, address, haddress, heq⟩ := hpairs _ hmem'
  rw [haddress, ← heq]

/-- The aggregated policy finds an owner for every authorization, and no owner twice. -/
lemma authorizeOwner_authorizes {inputOwners : List VersionedAddress} {version : AddressVersion}
    {scheme : SignatureScheme} {authorizations : List V2SpendingAuthorization}
    {authorized : List VersionedAddress}
    (h : authorizations.foldlM (authorizeOwner inputOwners version scheme) [] = .ok authorized) :
    Authorizes authorizations authorized ∧ authorized.Nodup
      ∧ ∀ owner ∈ authorized, owner ∈ inputOwners := by
  refine Outcome.foldlM_prefix (fun done authorized => Authorizes done authorized
    ∧ authorized.Nodup ∧ ∀ owner ∈ authorized, owner ∈ inputOwners)
    ⟨.nil, List.nodup_nil, by simp⟩ ?_ h
  rintro done authorization before after - ⟨hdone, hdistinct, hmem⟩ hround
  simp only [authorizeOwner, Outcome.bind_eq_ok, Outcome.bailIf_eq_ok, Outcome.pure_eq_ok,
    not_not] at hround
  obtain ⟨owner, howner, _, -, _, hinput, _, hnew, rfl⟩ := hround
  refine ⟨List.rel_append hdone (.cons howner .nil), ?_, ?_⟩
  · refine List.nodup_append.mpr ⟨hdistinct, List.nodup_singleton _, fun a ha b hb heq => ?_⟩
    rw [List.mem_singleton.mp hb] at heq
    exact hnew (heq ▸ ha)
  · intro other hother
    rcases List.mem_append.mp hother with hother | hother
    · exact hmem other hother
    · rw [List.mem_singleton.mp hother]
      exact hinput

/-- Under the aggregated policy the authorizations correspond to the distinct owners of the
inputs. -/
lemma aggregated_bijection {transaction : TransactionV2} {u : Unit}
    (h : transaction.validateAggregatedAuthorizationCommitments = .ok u) :
    ∃ owners, Authorizes transaction.authorizations owners
      ∧ owners.Perm transaction.inputOwners := by
  simp only [validateAggregatedAuthorizationCommitments, Outcome.bind_eq_ok,
    Outcome.bailIf_eq_ok, not_not] at h
  obtain ⟨_, hlength, h⟩ := h
  cases hexpected : transaction.expectedAuthorization with
  | none =>
    cases transaction with
    | mine => exact ⟨[], .nil, .refl _⟩
    | migration => cases hexpected
    | transfer => cases hexpected
    | burn => cases hexpected
  | some expected =>
    obtain ⟨version, scheme⟩ := expected
    rw [hexpected] at h
    simp only [Outcome.bind_eq_ok] at h
    obtain ⟨authorized, hauthorized, -⟩ := h
    obtain ⟨hpairs, hdistinct, hmem⟩ := authorizeOwner_authorizes hauthorized
    refine ⟨authorized, hpairs, (hdistinct.subperm hmem).perm_of_length_le ?_⟩
    rw [← hlength, hpairs.length_eq]

/-- Under either policy every owner of an input is the owner of an authorization. -/
lemma commitments_cover {transaction : TransactionV2} {u : Unit}
    (h : transaction.validateAuthorizationCommitments = .ok u) :
    ∀ owner ∈ transaction.owners, ∃ authorization ∈ transaction.authorizations,
      authorization.authorizedAddress = .ok owner := by
  intro owner howner
  simp only [validateAuthorizationCommitments, Outcome.bind_eq_ok] at h
  obtain ⟨_, -, h⟩ := h
  split at h
  · rename_i hlegacy
    have hpaired {version : AddressVersion} {scheme : SignatureScheme} {error : String}
        {owners : List VersionedAddress} {authorizations : List V2SpendingAuthorization} {u : Unit}
        (hlength : authorizations.length = owners.length) (hmem : owner ∈ owners)
        (h : checkPairedAuthorizations version scheme error (owners.zip authorizations) = .ok u) :
        ∃ authorization ∈ authorizations, authorization.authorizedAddress = .ok owner :=
      Outcome.exists_partner (checkPairedAuthorizations_authorizes hlength h) hmem
    cases transaction with
    | mine => cases howner
    | migration inputs outputs fee authorizations =>
      simp only [validateLegacyAuthorizationCommitments, Outcome.bind_eq_ok, Outcome.bailIf_eq_ok,
        not_not] at hlegacy
      obtain ⟨_, hlength, hlegacy⟩ := hlegacy
      exact hpaired (hlength.trans (List.length_map _).symm) howner hlegacy
    | transfer inputs outputs fee authorizations =>
      simp only [validateLegacyAuthorizationCommitments, Outcome.bind_eq_ok, Outcome.bailIf_eq_ok,
        not_not] at hlegacy
      obtain ⟨_, hlength, hlegacy⟩ := hlegacy
      exact hpaired (hlength.trans (List.length_map _).symm) howner hlegacy
    | burn inputs change amount fee anchor authorizations =>
      simp only [validateLegacyAuthorizationCommitments, Outcome.bind_eq_ok, Outcome.bailIf_eq_ok,
        not_not] at hlegacy
      obtain ⟨_, hlength, hlegacy⟩ := hlegacy
      exact hpaired (hlength.trans (List.length_map _).symm) howner hlegacy
  · obtain ⟨owners, hpairs, hperm⟩ := aggregated_bijection h
    refine Outcome.exists_partner hpairs (hperm.symm.subset ?_)
    exact ((uniqueOwners_spec transaction.owners).2 owner).mpr howner

/-- An address of a hybrid key is authorized by a hybrid key only. -/
lemma scheme_of_authorizedAddress {authorization : V2SpendingAuthorization}
    {owner : VersionedAddress} (h : authorization.authorizedAddress = .ok owner) :
    owner.version = .hybridKeyCommitment ↔ authorization.scheme = .hybridEd25519MlDsa44 := by
  unfold V2SpendingAuthorization.authorizedAddress at h
  unfold V2SpendingAuthorization.scheme
  split at h
  · rename_i hscheme
    simp only [Outcome.bind_eq_ok, Outcome.pure_eq_ok] at h
    obtain ⟨_, -, rfl⟩ := h
    simp [hscheme]
  · rename_i hscheme
    simp only [hybridKeyCommitmentAddress, Outcome.bind_eq_ok, Outcome.pure_eq_ok] at h
    obtain ⟨_, -, rfl⟩ := h
    simp [hscheme]
  · cases h

end TransactionV2

namespace Ledger

/-- What a v2 transaction removes from the unspent outputs at a height, and who has signed it: the
payload is bound to the domain of the chain. -/
structure EnvelopeAuthorized (ledger : Ledger) (domain : TransactionV2Domain) (height : ℕ)
    (utxos : Utxos) (transaction : TransactionV2) (utxos' : Utxos) : Prop where
  removed : ∀ (outpoint : OutPoint) (output : TxOutput), utxos[outpoint]? = some output →
    utxos'[outpoint]? ≠ some output →
    ∃ owner ∈ transaction.owners, ∃ authorization ∈ transaction.authorizations, ∃ payload,
      internalAddress owner (transaction.ownerNetwork ledger.network) = .ok output.address
      ∧ authorization.authorizedAddress = .ok owner
      ∧ (owner.version = .hybridKeyCommitment ↔ authorization.scheme = .hybridEd25519MlDsa44)
      ∧ transaction.signingBytes domain = .ok payload ∧ authorization.Signs payload
  aggregated : authorizationAggregationActivationHeight ≤ height →
    ∃ owners, Authorizes transaction.authorizations owners
      ∧ owners.Perm transaction.inputOwners ∧ owners.Nodup
      ∧ ∀ owner, owner ∈ owners ↔ owner ∈ transaction.owners

/-- A round of the envelope loop is authorized. -/
lemma envelopeRound_authorized {ledger : Ledger} {block : Block} {domain : TransactionV2Domain}
    {before after : EnvelopeState × LineageState} {envelope : Str}
    (round : ledger.EnvelopeRound block domain before envelope after) :
    ∃ transaction, decodeCanonicalTransactionV2Envelope envelope domain = .ok transaction
      ∧ ledger.EnvelopeAuthorized domain block.height before.2.utxos transaction
        after.2.utxos := by
  obtain ⟨transaction, id, bindings, hdecode, -, hpolicy, -, -, happlied, -, -⟩ :=
    applyBlockEnvelope_eq_ok.mp round
  have hutxos := applyTransactionV2WithLineage_utxos happlied
  refine ⟨transaction, hdecode, ?_, ?_⟩
  · intro outpoint output hbefore hafter
    obtain ⟨_, spent, created, -, howned, -, hrun, -, -⟩ :=
      applyTransactionV2ToUtxos_effects hutxos
    obtain ⟨_, _, _, -, -, -, hverify, -, -⟩ := applyTransactionV2ToUtxosWithPolicy_eq_ok.mp hutxos
    obtain ⟨⟨_, owner⟩, hinput, -, haddress⟩ :=
      Outcome.exists_partner howned (mem_of_removed hrun hbefore hafter)
    have howner : owner ∈ transaction.owners := by
      rw [← transaction.ownedInputs_map_snd]
      exact List.mem_map_of_mem (f := Prod.snd) hinput
    have hauthorizations := hverify rfl
    simp only [TransactionV2.verifyAuthorizations, Outcome.bind_eq_ok] at hauthorizations
    obtain ⟨_, hcommitments, payload, hpayload, hsignatures⟩ := hauthorizations
    obtain ⟨authorization, hauthorization, haddress'⟩ :=
      TransactionV2.commitments_cover hcommitments owner howner
    exact ⟨owner, howner, authorization, hauthorization, payload, haddress, haddress',
      TransactionV2.scheme_of_authorizedAddress haddress', hpayload,
      verifyAuthorization_signs (Outcome.forM_eq_ok.mp hsignatures _ hauthorization)⟩
  · intro hactive
    simp only [TransactionV2.validateAuthorizationPolicyAtHeight, Outcome.bind_eq_ok] at hpolicy
    obtain ⟨_, -, hpolicy⟩ := hpolicy
    rw [if_neg (not_lt.mpr hactive)] at hpolicy
    obtain ⟨owners, hpairs, hperm⟩ := TransactionV2.aggregated_bijection hpolicy
    obtain ⟨hdistinct, hmem⟩ := TransactionV2.uniqueOwners_spec transaction.owners
    exact ⟨owners, hpairs, hperm, hperm.nodup_iff.mpr hdistinct,
      fun owner => hperm.mem_iff.trans (hmem owner)⟩

/-- **Spend authorization.** The two loops of an accepted block are runs in which every round
removes only outputs whose owners have signed the transaction of the round. -/
theorem spends_authorized {ledger ledger' : Ledger} {block : Block}
    (step : Step ledger (.accepted block) ledger') :
    ∃ effects seen middle last domain, ledger.Staged block effects seen middle last domain
      ∧ ledger'.toLineageState = effects.state
      ∧ Run (fun before transaction after => ledger.TransactionRound block before transaction after
          ∧ ledger.TransactionAuthorized block.height before.2.utxos transaction after.2.utxos)
        ([], ledger.toLineageState) block.transactions (seen, middle)
      ∧ Run (fun before envelope after => ledger.EnvelopeRound block domain before envelope after
          ∧ ∃ transaction, decodeCanonicalTransactionV2Envelope envelope domain = .ok transaction
            ∧ ledger.EnvelopeAuthorized domain block.height before.2.utxos transaction
              after.2.utxos)
        ({ bindings := ledger.hybridLegacyOwners, transactionV2Ids := [] }, middle)
        block.transactionsV2 (effects.envelopes, last) := by
  obtain ⟨effects, accepts⟩ := step_accepted step
  obtain ⟨seen, middle, last, domain, staged⟩ := stageBlock_eq_ok.mp accepts.staged
  exact ⟨effects, seen, middle, last, domain, staged, accepts.lineageState,
    staged.transactions.mono fun _ _ _ round => ⟨round, transactionRound_authorized round⟩,
    staged.envelopes.mono fun _ _ _ round => ⟨round, envelopeRound_authorized round⟩⟩

end Ledger

end Iuna

namespace Iuna.Toy

attribute [local instance] crypto

/-- The owner of the allocation has signed its burn. -/
theorem spends_authorized_block :
    ∃ seen middle, Runs.Run (fun before transaction after =>
        genesis.TransactionRound block before transaction after
          ∧ genesis.TransactionAuthorized block.height before.2.utxos transaction after.2.utxos)
      ([], genesis.toLineageState) block.transactions (seen, middle) := by
  obtain ⟨_, seen, middle, _, _, _, _, hrun, _⟩ := Ledger.spends_authorized block_accepted
  exact ⟨seen, middle, hrun⟩

def burn : Transaction := burnAllocation microIuna 1

def boundDomain : TransactionSigningDomain :=
  .new genesis.launchProfile.profileId genesis.genesisHash

/-- Whether the burn is signed over the bytes that name the chain. -/
def burnIsBound : Option Bool := Except.toOption do
  let preimage ← burn.signingBytes boundDomain
  let key ← decodeHexArray publicKeyBytes owner
  let signature ← decodeHexArray signatureBytes burn.signature
  pure (Crypto.ed25519Verify key preimage signature)

set_option maxRecDepth 10000 in
lemma burn_not_bound : burnIsBound = some false := by decide +kernel

set_option maxRecDepth 10000 in
lemma allocation_spent :
    genesis.utxos[genesisAllocationOutpoint owner]? = some ⟨owner, allocation⟩
      ∧ ledger.utxos[genesisAllocationOutpoint owner]? = none := by decide +kernel

/-- **A spend whose signature names no chain.** The first block removes the allocation, and the
only transaction of the block is not signed over the bytes that name the chain. -/
theorem spend_unbound :
    Ledger.Reachable genesis ∧ Ledger.Step genesis (.accepted block) ledger
      ∧ genesis.utxos[genesisAllocationOutpoint owner]? = some ⟨owner, allocation⟩
      ∧ ledger.utxos[genesisAllocationOutpoint owner]? = none
      ∧ ∀ transaction ∈ block.transactions, ¬ ∃ preimage,
        transaction.signingBytes boundDomain = .ok preimage
          ∧ transaction.SignedBy owner preimage := by
  refine ⟨genesis_reachable, block_accepted, allocation_spent.1,
    allocation_spent.2, ?_⟩
  intro transaction htransaction
  obtain rfl : transaction = burn := List.mem_singleton.mp htransaction
  rintro ⟨preimage, hpreimage, -, -, key, signature, hkey, hsignature, hverify⟩
  have hbound := burn_not_bound
  rw [burnIsBound, hpreimage, hkey, hsignature] at hbound
  simp [bind, Except.bind, pure, Except.pure, Except.toOption, hverify] at hbound

end Iuna.Toy
