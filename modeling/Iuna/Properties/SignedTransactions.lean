import Iuna.Properties.Authorization
import Iuna.Properties.CodecV2

/-!
# Signed transactions v2

What the node accepts of a transaction whose signers are known (`SignedBy`): before the activation
of aggregation one signer for each input, from then on no signer twice (`SignedBy.policy_iff`), and
what it decodes of the bytes of a transfer or a migration (`decode_written`).
-/

namespace Iuna.TransactionV2
open Wire

/-! ## What the node accepts of a signed transaction -/

/-- A transaction is signed by the addresses of a list: each authorization is for the address at its
place, they all are of the version and the scheme that the transaction expects, and they are owners
of inputs that leave no owner out. -/
structure SignedBy [Crypto] (transaction : TransactionV2) (version : AddressVersion)
    (scheme : SignatureScheme) (signers : List VersionedAddress) : Prop where
  expected : transaction.expectedAuthorization = some (version, scheme)
  authorizes : Authorizes transaction.authorizations signers
  schemes : ∀ authorization ∈ transaction.authorizations, authorization.scheme = scheme
  versions : ∀ owner ∈ transaction.owners, owner.version = version
  sublist : signers.Sublist transaction.owners
  covers : ∀ owner ∈ transaction.owners, owner ∈ signers

section Policies

variable [Crypto] {transaction : TransactionV2} {version : AddressVersion}
  {scheme : SignatureScheme} {signers : List VersionedAddress}

lemma authorizes_unique {authorizations : List V2SpendingAuthorization}
    {owners owners' : List VersionedAddress} (h : Authorizes authorizations owners)
    (h' : Authorizes authorizations owners') : owners = owners' := by
  unfold Authorizes at h h'
  induction h generalizing owners' with
  | nil => exact (List.forall₂_nil_left_iff.mp h').symm
  | cons hhead _ ih =>
    obtain ⟨owner', rest', hhead', hrest', rfl⟩ := List.forall₂_cons_left_iff.mp h'
    rw [ih hrest', Except.ok.inj (hhead.symm.trans hhead')]

/-- Authorizations for the owners of the inputs, in order, pass the per-input policy. -/
lemma checkPairedAuthorizations_of_authorizes {error : String} {owners : List VersionedAddress}
    {authorizations : List V2SpendingAuthorization} (h : Authorizes authorizations owners)
    (schemes : ∀ authorization ∈ authorizations, authorization.scheme = scheme)
    (versions : ∀ owner ∈ owners, owner.version = version) :
    checkPairedAuthorizations version scheme error (owners.zip authorizations) = .ok ⟨⟩ := by
  refine Outcome.forM_eq_ok.mpr fun pair hpair => ?_
  have hmem : (pair.2, pair.1) ∈ authorizations.zip owners := by
    rw [← List.zip_swap]
    exact List.mem_map.mpr ⟨pair, hpair, rfl⟩
  have hauthorized := (List.forall₂_iff_zip.mp h).2 hmem
  obtain ⟨howner, hauthorization⟩ := List.of_mem_zip hpair
  simp only [Outcome.bind_eq_ok, Outcome.bailIf_eq_ok, not_or, not_not]
  exact ⟨⟨⟩, ⟨versions _ howner, schemes _ hauthorization⟩, _, hauthorized, rfl⟩

/-- The per-input policy counts the authorizations and pairs them with the owners, whatever the kind
of the transaction. -/
lemma legacyCommitments_iff (expected : transaction.expectedAuthorization = some (version, scheme)) :
    transaction.validateLegacyAuthorizationCommitments = .ok ⟨⟩ ↔
      transaction.authorizations.length = transaction.owners.length ∧
        ∃ error, checkPairedAuthorizations version scheme error
          (transaction.owners.zip transaction.authorizations) = .ok ⟨⟩ := by
  have hpaired (error : String) (owners : List VersionedAddress)
      (authorizations : List V2SpendingAuthorization)
      (h : checkPairedAuthorizations version scheme error (owners.zip authorizations) = .ok ⟨⟩)
      (error' : String) :
      checkPairedAuthorizations version scheme error' (owners.zip authorizations) = .ok ⟨⟩ := by
    simpa only [checkPairedAuthorizations, Outcome.forM_eq_ok, Outcome.bind_eq_ok,
      Outcome.bailIf_eq_ok] using h
  cases transaction with
  | mine => cases expected
  | migration inputs outputs fee authorizations =>
    cases expected
    simp only [validateLegacyAuthorizationCommitments, Outcome.bind_eq_ok, Outcome.bailIf_eq_ok,
      not_not, owners, List.length_map, TransactionV2.authorizations]
    constructor
    · rintro ⟨_, hlength, h⟩
      exact ⟨hlength, _, h⟩
    · rintro ⟨hlength, _, h⟩
      exact ⟨⟨⟩, hlength, hpaired _ _ _ h _⟩
  | transfer inputs outputs fee authorizations =>
    cases expected
    simp only [validateLegacyAuthorizationCommitments, Outcome.bind_eq_ok, Outcome.bailIf_eq_ok,
      not_not, owners, List.length_map, TransactionV2.authorizations]
    constructor
    · rintro ⟨_, hlength, h⟩
      exact ⟨hlength, _, h⟩
    · rintro ⟨hlength, _, h⟩
      exact ⟨⟨⟩, hlength, hpaired _ _ _ h _⟩
  | burn inputs change amount fee anchor authorizations =>
    cases expected
    simp only [validateLegacyAuthorizationCommitments, Outcome.bind_eq_ok, Outcome.bailIf_eq_ok,
      not_not, owners, List.length_map, TransactionV2.authorizations]
    constructor
    · rintro ⟨_, hlength, h⟩
      exact ⟨hlength, _, h⟩
    · rintro ⟨hlength, _, h⟩
      exact ⟨⟨⟩, hlength, hpaired _ _ _ h _⟩

/-- Before the activation of aggregation, the signers are one for each input. -/
lemma SignedBy.legacy_iff (signed : transaction.SignedBy version scheme signers) :
    transaction.validateLegacyAuthorizationCommitments = .ok ⟨⟩ ↔
      signers.length = transaction.owners.length := by
  rw [legacyCommitments_iff signed.expected, signed.authorizes.length_eq]
  refine ⟨fun h => h.1, fun h => ⟨h, "", ?_⟩⟩
  have hauthorizes := signed.authorizes
  rw [signed.sublist.eq_of_length h] at hauthorizes
  exact checkPairedAuthorizations_of_authorizes hauthorizes signed.schemes signed.versions

/-- The loop of the aggregated policy goes through distinct owners of inputs. -/
lemma authorizeOwner_complete {inputOwners done : List VersionedAddress}
    {authorizations : List V2SpendingAuthorization} (h : Authorizes authorizations signers)
    (schemes : ∀ authorization ∈ authorizations, authorization.scheme = scheme)
    (versions : ∀ owner ∈ signers, owner.version = version)
    (owned : ∀ owner ∈ signers, owner ∈ inputOwners) (distinct : (done ++ signers).Nodup) :
    authorizations.foldlM (authorizeOwner inputOwners version scheme) done
      = .ok (done ++ signers) := by
  unfold Authorizes at h
  induction h generalizing done with
  | nil => simp [pure, Except.pure]
  | @cons authorization owner authorizations owners hhead _ ih =>
    rw [List.foldlM_cons, Outcome.bind_eq_ok]
    have hnew : owner ∉ done := fun hmem =>
      (List.nodup_append.mp distinct).2.2 owner hmem owner List.mem_cons_self rfl
    refine ⟨done ++ [owner], ?_, ?_⟩
    · simp only [authorizeOwner, Outcome.bind_eq_ok, Outcome.bailIf_eq_ok, Outcome.pure_eq_ok,
        not_or, not_not]
      exact ⟨owner, hhead, ⟨⟩, ⟨versions owner List.mem_cons_self,
        schemes authorization List.mem_cons_self⟩, ⟨⟩, owned owner List.mem_cons_self, ⟨⟩, hnew,
        rfl⟩
    · rw [ih (fun a ha => schemes a (List.mem_cons_of_mem _ ha))
        (fun a ha => versions a (List.mem_cons_of_mem _ ha))
        (fun a ha => owned a (List.mem_cons_of_mem _ ha)) (by simpa using distinct)]
      simp

lemma SignedBy.inputOwners_length (signed : transaction.SignedBy version scheme signers)
    (distinct : signers.Nodup) : signers.length = transaction.inputOwners.length := by
  obtain ⟨hdistinct, hmem⟩ := uniqueOwners_spec transaction.owners
  refine List.Perm.length_eq ((List.perm_ext_iff_of_nodup distinct hdistinct).mpr fun owner => ?_)
  rw [hmem]
  exact ⟨fun h => signed.sublist.subset h, signed.covers owner⟩

/-- From the activation on, no owner signs twice. -/
lemma SignedBy.aggregated_iff (signed : transaction.SignedBy version scheme signers) :
    transaction.validateAggregatedAuthorizationCommitments = .ok ⟨⟩ ↔ signers.Nodup := by
  simp only [validateAggregatedAuthorizationCommitments, signed.expected, Outcome.bind_eq_ok,
    Outcome.bailIf_eq_ok, not_not]
  constructor
  · rintro ⟨_, -, authorized, hauthorized, -⟩
    obtain ⟨hpairs, hdistinct, -⟩ := authorizeOwner_authorizes hauthorized
    rwa [authorizes_unique signed.authorizes hpairs]
  · intro distinct
    have howned : ∀ owner ∈ signers, owner ∈ transaction.inputOwners := fun owner howner =>
      ((uniqueOwners_spec transaction.owners).2 owner).mpr (signed.sublist.subset howner)
    refine ⟨⟨⟩, signed.authorizes.length_eq.trans (signed.inputOwners_length distinct), signers, ?_,
      rfl⟩
    exact authorizeOwner_complete signed.authorizes signed.schemes
      (fun owner howner => signed.versions owner (signed.sublist.subset howner)) howned
      (by simpa using distinct)

/-- The signers that the node asks for at a height: one for each input, and from the activation of
aggregation on one for each owner. -/
def SignersFit (owners signers : List VersionedAddress) (height : ℕ) : Prop :=
  if height < authorizationAggregationActivationHeight then signers.length = owners.length
  else signers.Nodup

/-- The policy of a height asks for the shape and for the right signers. -/
lemma SignedBy.policy_iff (signed : transaction.SignedBy version scheme signers) {height : ℕ} :
    transaction.validateAuthorizationPolicyAtHeight height = .ok ⟨⟩ ↔
      transaction.validateShape = .ok ⟨⟩ ∧ SignersFit transaction.owners signers height := by
  unfold validateAuthorizationPolicyAtHeight SignersFit
  rw [Outcome.bind_eq_ok]
  split
  · exact ⟨fun ⟨_, hshape, h⟩ => ⟨hshape, signed.legacy_iff.mp h⟩,
      fun ⟨hshape, h⟩ => ⟨⟨⟩, hshape, signed.legacy_iff.mpr h⟩⟩
  · exact ⟨fun ⟨_, hshape, h⟩ => ⟨hshape, signed.aggregated_iff.mp h⟩,
      fun ⟨hshape, h⟩ => ⟨⟨⟩, hshape, signed.aggregated_iff.mpr h⟩⟩

/-- The right signers are as many as the shape of a transaction allows. -/
lemma SignedBy.count_of_fit (signed : transaction.SignedBy version scheme signers) {height : ℕ}
    (fit : SignersFit transaction.owners signers height) :
    transaction.authorizations.length = transaction.inputCount ∨
      transaction.authorizations.length = transaction.inputOwners.length := by
  rw [signed.authorizes.length_eq, ← length_owners]
  unfold SignersFit at fit
  split at fit
  · exact .inl fit
  · exact .inr (signed.inputOwners_length fit)

/-- What passes the policy of a height passes the check of the commitments. -/
lemma commitments_of_policy {height : ℕ}
    (h : transaction.validateAuthorizationPolicyAtHeight height = .ok ⟨⟩) :
    transaction.validateAuthorizationCommitments = .ok ⟨⟩ := by
  unfold validateAuthorizationPolicyAtHeight at h
  obtain ⟨_, hshape, h⟩ := Outcome.bind_eq_ok.mp h
  unfold validateAuthorizationCommitments
  refine Outcome.bind_eq_ok.mpr ⟨⟨⟩, hshape, ?_⟩
  cases hlegacy : transaction.validateLegacyAuthorizationCommitments with
  | ok u => rfl
  | error e =>
    split at h
    · rw [hlegacy] at h
      cases h
    · exact h

end Policies

/-! ## What the node decodes of written bytes -/

/-- A transfer or a migration. -/
def Spends (transaction : TransactionV2) : Prop :=
  (∃ inputs outputs fee authorizations,
    transaction = .transfer inputs outputs fee authorizations) ∨
  ∃ inputs outputs fee authorizations, transaction = .migration inputs outputs fee authorizations

/-- Two bodies start with the number of their inputs, if one of them is a transfer or a
migration. -/
lemma inputCount_of_bodyBytes {transaction other : TransactionV2} {t t' : Bytes}
    (spends : transaction.Spends)
    (small : transaction.inputCount < 256 ^ 4) (small' : other.inputCount < 256 ^ 4)
    (h : other.bodyBytes ++ t' = transaction.bodyBytes ++ t) :
    other.inputCount = transaction.inputCount := by
  rcases spends with ⟨inputs, outputs, fee, authorizations, rfl⟩ |
    ⟨inputs, outputs, fee, authorizations, rfl⟩
  all_goals
    cases other with
    | mine => simp [bodyBytes] at h
    | burn => simp [bodyBytes] at h
    | transfer inputs' outputs' fee' authorizations' =>
      simp only [bodyBytes, countedList, List.cons_append, List.append_assoc, List.cons.injEq] at h
      first
        | exact absurd h.1 (by decide)
        | exact (bigEndian_append_inj small' small h.2).1
    | migration inputs' outputs' fee' authorizations' =>
      simp only [bodyBytes, countedList, List.cons_append, List.append_assoc, List.cons.injEq] at h
      first
        | exact absurd h.1 (by decide)
        | exact (bigEndian_append_inj small' small h.2).1

/-- The bytes of a transfer or a migration decode to it if its shape is right, and to nothing
else. -/
lemma decode_written {domain domain' : TransactionV2Domain} {transaction other : TransactionV2}
    (valid : domain.Valid) (fits : transaction.FieldsFit)
    (spends : transaction.Spends)
    (small : transaction.inputCount < 256 ^ 4)
    (outputs : transaction.outputs.length ≤ maxV2Outputs)
    (authorizations : transaction.authorizations.length ≤ transaction.inputCount) :
    decode (prefixBytes domain ++ (transaction.bodyBytes
        ++ countedList encodeAuthorization transaction.authorizations)) = .ok (domain', other) ↔
      (domain', other) = (domain, transaction) ∧ transaction.validateShape = .ok ⟨⟩ := by
  rw [decode_eq_ok_iff]
  constructor
  · rintro ⟨hvalid', hfits', hencode⟩
    obtain ⟨hshape', hbytes⟩ := (encode_eq_ok hvalid').mp hencode
    obtain ⟨rfl, hbody⟩ := prefixBytes_append_inj hvalid' valid hbytes
    obtain ⟨hcounts', hauthorizations'⟩ := validateShape_counts hshape'
    have hsmall' : other.inputCount < 256 ^ 4 := hcounts'.1.trans_lt (by decide)
    have hcount := inputCount_of_bodyBytes spends small hsmall' hbody
    have hcounts : transaction.CountsFit := ⟨hcount ▸ hcounts'.1, outputs⟩
    rw [← bodyBytes_withoutAuthorizations other,
      ← bodyBytes_withoutAuthorizations transaction] at hbody
    obtain ⟨hunsigned, hrest⟩ := decodeUnsignedBody_inverts.append_inj
      (isBody_withoutAuthorizations hcounts' hfits') (isBody_withoutAuthorizations hcounts fits)
      hbody
    have hsigned := (decodeAuthorizations_inverts "authorization count").append_inj
      ⟨hauthorizations', fun _ _ => trivial⟩
      ⟨authorizations.trans hcounts.1, fun _ _ => trivial⟩ (congrArg (· ++ ([] : Bytes)) hrest)
    have hsame : other = transaction := by
      have hplain : transaction.withoutAuthorizations.withoutAuthorizations
          = transaction.withoutAuthorizations :=
        (isBody_withoutAuthorizations hcounts fits).unsigned
      have hother := (withAuthorizations_eq_ok hplain).mpr ⟨hunsigned.symm, hsigned.1.symm⟩
      have hself := (withAuthorizations_eq_ok hplain).mpr
        ⟨rfl, (rfl : transaction.authorizations = _)⟩
      exact Except.ok.inj (hother.symm.trans hself)
    subst hsame
    exact ⟨rfl, hshape'⟩
  · rintro ⟨hsame, hshape⟩
    obtain ⟨rfl, rfl⟩ := Prod.mk.inj hsame
    exact ⟨valid, fits, (encode_eq_ok valid).mpr ⟨hshape, rfl⟩⟩

end Iuna.TransactionV2
