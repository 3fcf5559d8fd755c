import Iuna.Domain.Pending

/-!
# Burn bundles of the next block

The committee of a block attests burns in bundles; a block carries the attestations as a section
of signatures and masked burns.  This module is `ledger_reveal.rs`: how many signatures a block
needs, which sections and bundles are valid, when a block certifies its parent, and how the
builder turns bundles into a section.
-/

namespace Iuna

/-- `objective_finality_quorum`: more than two thirds. -/
def objectiveFinalityQuorum (committeeSize : ℕ) : ℕ :=
  if committeeSize = 0 then 0 else committeeSize * 2 / 3 + 1

/-- `required_explicit_burn_signatures`. -/
def requiredExplicitBurnSignatures (height : ℕ) (finalizerMode : FinalizerMode)
    (finalizerRank committeeSize : ℕ) : ℕ :=
  if committeeSize = 0 then 0
  else match finalizerMode with
    | .ticket =>
      if finalizerRank = 0 ∧ objectiveFinalityActivationHeight ≤ height then
        objectiveFinalityQuorum committeeSize - 1
      else if finalizerRank = 0 then min committeeSize 3 - 1
      else if finalizerRank = 1 then min committeeSize 2 - 1
      else 0
    | .recovery => 0

/-- `block_certifies_parent`. -/
def blockCertifiesParent (block : Block) (committeeSize : ℕ) : Bool :=
  objectiveFinalityActivationHeight < block.height
    ∧ block.finalizerMode = .ticket
    ∧ block.finalizerRank = 0
    ∧ 0 < committeeSize
    ∧ objectiveFinalityQuorum committeeSize ≤ block.burnBundleSection.signatures.length + 1

/-- `matching_burn_by_signature`. -/
def matchingBurnBySignature (attested : Transaction) (transactions : List Transaction) :
    Option Transaction :=
  transactions.find? fun transaction =>
    transaction.isBurn ∧ transaction.signature = attested.signature
      ∧ transaction.canonical = attested.canonical

/-- The member of a slot, in the map that the committee is collected into. -/
def committeeMember (committee : List BurnCommitteeMember) (slot : ℕ) :
    Option BurnCommitteeMember :=
  committee.reverse.find? fun member => member.slot = slot

/-- Fees must not rise, and ids must not fall among equal fees. -/
def outOfFeeOrder (previousKey : Option (Amount × Str)) (key : Amount × Str) : Bool :=
  match previousKey with
  | none => false
  | some previous =>
    previous.1 < key.1 ∨ key.1 = previous.1 ∧ compare key.2 previous.2 = .lt

/-- The bits of a `u8` mask that are not in another. -/
def maskWithout (mask allowed : ℕ) : ℕ := mask &&& (255 ^^^ allowed)

namespace Ledger

variable [Crypto]

/-- `validate_reward_address`. -/
def validateRewardAddress (ledger : Ledger) (height : ℕ) (address : Option Str) (label : String) :
    Result Unit :=
  if height < hybridRewardActivationHeight then
    bailIf address.isSome
      s!"{label} hybrid reward address is not active before height {hybridRewardActivationHeight}"
  else do
    let address ← orError s!"{label} hybrid reward address is required" address
    let decoded ← decodeVersionedAddress address ledger.network
    bailIf (decoded.version ≠ .hybridKeyCommitment) s!"{label} reward address must use address v1"

/-! ## The section of a block -/

/-- The local variables of the loop over the signatures of a section. -/
structure SeenSignatures where
  seenSlots : List ℕ
  seenMembers : List Str
  includedMask : ℕ

/-- One signature of `validate_burn_bundle_section_for_block`. -/
def checkSectionSignature (ledger : Ledger) (block : Block) (committee : List BurnCommitteeMember)
    (seen : SeenSignatures) (signature : BurnBundleSignature) : Result SeenSignatures := do
  bailIf (burnCommitteeSize ≤ signature.slot) "burn bundle slot is invalid"
  bailIf (signature.slot = 0) "finalizer burn attestation is implicit"
  bailIf (signature.slot ∈ seen.seenSlots) "duplicate burn bundle slot"
  bailIf (signature.member ∈ seen.seenMembers) "duplicate burn bundle member"
  let member ← orError "burn bundle slot is not assigned"
    (committeeMember committee signature.slot)
  bailIf (signature.member ≠ member.owner) "burn bundle member is not assigned to slot"
  ledger.validateRewardAddress block.height signature.rewardAddress "committee member"
  let slotMask ← burnBundleSlotMask signature.slot
  pure { seenSlots := signature.slot :: seen.seenSlots
         seenMembers := signature.member :: seen.seenMembers
         includedMask := seen.includedMask ||| slotMask }

/-- One attested burn of `validate_burn_bundle_section_for_block`, with the ids seen and the key
before it. -/
def checkMaskedBurn (ledger : Ledger) (block : Block) (includedMask : ℕ)
    (seen : List Str × Option (Amount × Str)) (masked : MaskedBurn) :
    Result (List Str × Option (Amount × Str)) := do
  bailIf (maskWithout masked.bundleMask burnCommitteeMask ≠ 0)
    "masked burn references an invalid burn bundle slot"
  bailIf (maskWithout masked.bundleMask includedMask ≠ 0)
    "masked burn references a missing burn bundle signature"
  bailIf (masked.burn.signature ∈ seen.1) "duplicate burn in burn bundle section"
  bailIf (masked.burn.isBurn = false) "burn bundle section contains a non-burn transaction"
  bailIf ((matchingBurnBySignature masked.burn block.transactions).isNone)
    "attested burn is not included in the block"
  ledger.validateTransactionTerms masked.burn
  let key := (masked.burn.fee, masked.burn.signature)
  bailIf (outOfFeeOrder seen.2 key) "burn bundle section is not fee ordered"
  pure (masked.burn.signature :: seen.1, some key)

/-- One attested v2 burn of `validate_burn_bundle_section_for_block`, with the ids seen. -/
def checkMaskedBurnV2 (ledger : Ledger) (block : Block) (domain : TransactionV2Domain)
    (includedMask : ℕ) (seen : List Str) (masked : MaskedBurnV2) : Result (List Str) := do
  bailIf (maskWithout masked.bundleMask burnCommitteeMask ≠ 0)
    "masked transaction v2 burn references an invalid burn bundle slot"
  bailIf (maskWithout masked.bundleMask includedMask ≠ 0)
    "masked transaction v2 burn references a missing burn bundle signature"
  let burn ← decodeCanonicalTransactionV2Envelope masked.envelope domain
  bailIf (burn.isBurn = false) "burn bundle section contains a non-burn transaction v2"
  let id ← burn.transactionId domain
  bailIf (hexEncode id.val ∈ seen) "duplicate transaction v2 burn in burn bundle section"
  bailIf (masked.envelope ∉ block.transactionsV2)
    "attested transaction v2 burn is not included in the block"
  ledger.validateTransactionV2AnchorForBlock burn block.height
  pure (hexEncode id.val :: seen)

/-- One bundle that a section stands for: its size and its signature. -/
def checkExpandedBundle (bundle : BurnBundle) : Result Unit := do
  bailIf (maxBurnBundleBytes < bundle.serializedSizeBytes) "burn bundle exceeds max size"
  verifyAddressSignature bundle.member bundle.canonicalPayload bundle.signature "burn bundle"

/-- `validate_burn_bundle_section_for_block`. -/
def validateBurnBundleSectionForBlock (ledger : Ledger) (block : Block) : Result Unit := do
  let sect := block.burnBundleSection
  bailIf (burnCommitteeSize - 1 < sect.signatures.length)
    "block has too many burn bundle signatures"
  bailIf ((sect.signatures.zip sect.signatures.tail).any fun pair => pair.2.slot ≤ pair.1.slot)
    "burn bundle signatures are not in slot order"
  let committee := ledger.burnCommitteeForBlock block
  let seen ← sect.signatures.foldlM (ledger.checkSectionSignature block committee)
    { seenSlots := [], seenMembers := [], includedMask := 0 }
  let requiredSignatures := requiredExplicitBurnSignatures block.height block.finalizerMode
    block.finalizerRank committee.length
  bailIf (sect.signatures.length < requiredSignatures) <|
    s!"block has too few burn bundle signatures: got {sect.signatures.length}, need " ++
      s!"{requiredSignatures}"
  let _ ← sect.burns.foldlM (ledger.checkMaskedBurn block seen.includedMask) ([], none)
  let domain ← ledger.transactionV2Domain
  let _ ← sect.burnsV2.foldlM (ledger.checkMaskedBurnV2 block domain seen.includedMask) []
  forM (sect.expand block.height block.prevHash) checkExpandedBundle

/-! ## Bundles for the next block -/

/-- One burn of `precheck_burn_bundle_for_block`. -/
def checkBundleBurn (ledger : Ledger) (expectedHeight : ℕ)
    (seen : List Str × Option (Amount × Str)) (burn : Transaction) :
    Result (List Str × Option (Amount × Str)) := do
  bailIf (burn.signature ∈ seen.1) "duplicate burn in burn bundle"
  bailIf (burn.isBurn = false) "burn bundle contains a non-burn transaction"
  ledger.validateTransactionTerms burn
  ledger.validateTransactionAnchorForBlock burn expectedHeight
  let key := (burn.fee, burn.signature)
  bailIf (outOfFeeOrder seen.2 key) "burn bundle is not fee ordered"
  pure (burn.signature :: seen.1, some key)

/-- One v2 burn of `precheck_burn_bundle_for_block`. -/
def checkBundleBurnV2 (ledger : Ledger) (domain : TransactionV2Domain) (expectedHeight : ℕ)
    (seen : List Str × Option (Amount × Str)) (envelope : Str) :
    Result (List Str × Option (Amount × Str)) := do
  let burn ← decodeCanonicalTransactionV2Envelope envelope domain
  bailIf (burn.isBurn = false) "burn bundle contains a non-burn transaction v2"
  let id ← burn.transactionId domain
  bailIf (hexEncode id.val ∈ seen.1) "duplicate transaction v2 burn in burn bundle"
  ledger.validateTransactionV2AnchorForBlock burn expectedHeight
  let key := (burn.fee, hexEncode id.val)
  bailIf (outOfFeeOrder seen.2 key) "transaction v2 burn bundle is not fee ordered"
  pure (hexEncode id.val :: seen.1, some key)

/-- `precheck_burn_bundle_for_block`. -/
def precheckBurnBundleForBlock (ledger : Ledger) (expectedHeight : ℕ) (expectedPrevHash : Str)
    (committee : List BurnCommitteeMember) (bundle : BurnBundle) : Result Unit := do
  bailIf (bundle.height ≠ expectedHeight) "burn bundle height is invalid"
  if bundle.prevHash ≠ expectedPrevHash then
    Except.error (Error.validation .burnBundleParentMismatch)
  bailIf (burnCommitteeSize ≤ bundle.slot) "burn bundle slot is invalid"
  let member ← orError "burn bundle slot is not assigned" (committeeMember committee bundle.slot)
  bailIf (bundle.member ≠ member.owner) "burn bundle member is not assigned to slot"
  ledger.validateRewardAddress expectedHeight bundle.rewardAddress "committee member"
  checkExpandedBundle bundle
  let _ ← bundle.burns.foldlM (ledger.checkBundleBurn expectedHeight) ([], none)
  let domain ← ledger.transactionV2Domain
  let _ ← bundle.burnsV2.foldlM (ledger.checkBundleBurnV2 domain expectedHeight) ([], none)
  pure ()

/-- One bundle of `validate_burn_bundles_for_committee`: its burns must be pending. -/
def validateBundleForCommittee (ledger : Ledger) (expectedHeight : ℕ) (expectedPrevHash : Str)
    (committee : List BurnCommitteeMember) (domain : TransactionV2Domain) (seenMembers : List Str)
    (bundle : BurnBundle) : Result (List Str) := do
  bailIf (bundle.member ∈ seenMembers) "duplicate burn bundle member"
  ledger.precheckBurnBundleForBlock expectedHeight expectedPrevHash committee bundle
  forM bundle.burns fun burn =>
    bailIf ((matchingBurnBySignature burn ledger.pending).isNone)
      "burn bundle references a burn that is not in the mempool"
  forM bundle.burnsV2 fun envelope => do
    let burn ← decodeCanonicalTransactionV2Envelope envelope domain
    let id ← burn.transactionId domain
    bailIf (¬ ledger.pendingV2.any fun pending => pending.transactionId domain = .ok id)
      "burn bundle references a transaction v2 burn that is not in the mempool"
  pure (bundle.member :: seenMembers)

/-- `validate_burn_bundles_for_committee`. -/
def validateBurnBundlesForCommittee (ledger : Ledger) (expectedHeight : ℕ)
    (expectedPrevHash : Str) (committee : List BurnCommitteeMember) (bundles : List BurnBundle) :
    Result (List BurnBundle) := do
  bailIf (burnCommitteeSize < bundles.length) "block has too many burn bundles"
  let bundles := bundles.mergeSort fun left right => left.slot ≤ right.slot
  bailIf ((bundles.zip bundles.tail).any fun pair => pair.1.slot = pair.2.slot)
    "duplicate burn bundle slot"
  let domain ← ledger.transactionV2Domain
  let _ ← bundles.foldlM
    (ledger.validateBundleForCommittee expectedHeight expectedPrevHash committee domain) []
  pure bundles

/-- The ranks of `validate_burn_bundles_for_any_next_ticket_block`: the first rank whose committee
accepts the bundles, else the error of the first rank. -/
def firstAcceptingRank (validate : ℕ → Result (List BurnBundle)) (firstError : Option Error) :
    List ℕ → Result (List BurnBundle)
  | [] => .error (firstError.getD (.message "no ticket committee is available"))
  | rank :: ranks =>
    match validate rank with
    | .ok validated => .ok validated
    | .error error => firstAcceptingRank validate (some (firstError.getD error)) ranks

/-- `validate_next_block_burn_bundles`. -/
def validateNextBlockBurnBundles (ledger : Ledger) (bundles : List BurnBundle) :
    Result (List BurnBundle) :=
  let expectedHeight := ledger.tip.height + 1
  let maxRank := min
    (rankedTicketsForHeight ledger.tip expectedHeight ledger.tickets).length burnCommitteeSize
  firstAcceptingRank (fun rank => ledger.validateBurnBundlesForCommittee expectedHeight
    ledger.tip.hash (ledger.burnCommitteeForTicketBlock expectedHeight rank) bundles) none
    (List.range maxRank)

/-! ## From bundles to a section -/

end Ledger

end Iuna
