import Iuna.Properties.Spelling
import Iuna.Properties.Supply
import Iuna.Properties.Launch

/-!
# Outputs for work

A block pays for work: a coin for each mine action, the reward of its finalizer and the shares of
the committee.  From the activation of hybrid rewards on, the recipient is the text of a hybrid
address.  Decoding trims the text and lowers its letters, but the output is held under the text as
the block spells it, and an owner check compares it with what the encoder writes.  So an output
for work can be spent exactly if the text of its recipient had nothing to trim and to lower.
-/

namespace Iuna

open Runs

variable [Crypto]

/-! ## Spellings -/

/-- A text without surrounding white space and without capital letters. -/
def PlainSpelling (text : Str) : Prop := trim text = text ∧ text.map Char.toLower = text

/-- A recipient can spend an output: it is held under the internal address of what the recipient
decodes to, and the owner check of a block lets an input of this owner take it. -/
def SpendableBy (network : AddressNetwork) (recipient : Str) (entry : OutPoint × TxOutput) : Prop :=
  ∃ owner, decodeVersionedAddress recipient network = .ok owner ∧
    internalAddress owner network = .ok entry.2.address ∧
    ∀ (error : String) (utxos : Utxos) (spent : Amount), utxos[entry.1]? = some entry.2 →
      spent + entry.2.amount ≤ u64Max →
        spendOwnedInput error spent (entry.1, internalAddress owner network) utxos
          = .ok (spent + entry.2.amount) (utxos.erase entry.1)

/-- The round of an owner check, for an output that is held under the address of the owner. -/
lemma spendOwnedInput_of_held {network : AddressNetwork} {owner : VersionedAddress}
    {entry : OutPoint × TxOutput} (held : internalAddress owner network = .ok entry.2.address)
    (error : String) {utxos : Utxos} {spent : Amount} (present : utxos[entry.1]? = some entry.2)
    (fits : spent + entry.2.amount ≤ u64Max) :
    spendOwnedInput error spent (entry.1, internalAddress owner network) utxos
      = .ok (spent + entry.2.amount) (utxos.erase entry.1) := by
  simp only [spendOwnedInput, Mutate.get_bind_eq_ok, Mutate.modify_bind_eq_ok,
    Mutate.liftM_eq_lift, Mutate.lift_bind_eq_ok, Mutate.lift_eq_ok, Outcome.bailIf_eq_ok,
    Outcome.ofOption_eq_ok, checkedAdd_eq_some, not_not, exists_const]
  exact ⟨entry.2, present, entry.2.address, held, rfl, ⟨rfl, fits⟩, trivial⟩

/-- An output that is held under the text of a hybrid address can be spent by it exactly if the
text is plain. -/
lemma spendableBy_iff {network : AddressNetwork} {recipient : Str} {address : VersionedAddress}
    {entry : OutPoint × TxOutput} (decoded : decodeVersionedAddress recipient network = .ok address)
    (hybrid : address.version = .hybridKeyCommitment) (held : entry.2.address = recipient) :
    SpendableBy network recipient entry ↔ PlainSpelling recipient := by
  have hinternal : internalAddress address network = encodeVersionedAddress address network := by
    unfold internalAddress
    rw [hybrid]
  constructor
  · intro spendable
    obtain ⟨owner, howner, haddress, -⟩ := spendable
    have hsame : address = owner := Except.ok.inj (decoded.symm.trans howner)
    have hencoded : encodeVersionedAddress address network = .ok recipient := by
      rw [← hinternal, hsame, haddress, held]
    exact (encode_decode_iff decoded).mp hencoded
  · intro plain
    have haddress : internalAddress address network = .ok entry.2.address := by
      rw [hinternal, held]
      exact (encode_decode_iff decoded).mpr plain
    refine ⟨address, decoded, haddress, ?_⟩
    intro error utxos spent present fits
    exact spendOwnedInput_of_held haddress error present fits

namespace Ledger

variable {ledger ledger' : Ledger} {block : Block}

/-! ## What a block pays -/

/-- The recipients that a block names for its work, with the outputs it creates for them. -/
inductive PaysForWork (ledger : Ledger) (block : Block) : Str → OutPoint × TxOutput → Prop
  | mine {recipient anchor : Str} {salt nonce difficultyBits : ℕ} {proofHeader : Option Str}
      {signature : Str} {entry : OutPoint × TxOutput}
      (action : .mine recipient anchor salt nonce difficultyBits proofHeader signature
        ∈ block.transactions)
      (created : entry ∈ createdOutputs
        (.mine recipient anchor salt nonce difficultyBits proofHeader signature)) :
      PaysForWork ledger block recipient entry
  | finalizer {recipient : Str} {entry : OutPoint × TxOutput}
      (named : block.rewardAddress = some recipient)
      (created : entry ∈ rewardOutputsForBlock block (ledger.burnCommitteeForBlock block))
      (outpoint : entry.1 = rewardOutpoint block.hash) :
      PaysForWork ledger block recipient entry
  | committee {signature : BurnBundleSignature} {recipient : Str} {entry : OutPoint × TxOutput}
      (signed : signature ∈ block.burnBundleSection.signatures)
      (named : signature.rewardAddress = some recipient)
      (created : entry ∈ rewardOutputsForBlock block (ledger.burnCommitteeForBlock block))
      (outpoint : entry.1 = committeeRewardOutpoint block.hash signature.slot) :
      PaysForWork ledger block recipient entry

/-- Where hybrid rewards are active, a reward address is the text of a hybrid address. -/
lemma validateRewardAddress_hybrid {height : ℕ} {address : Option Str} {label : String}
    (active : hybridRewardActivationHeight ≤ height)
    (h : ledger.validateRewardAddress height address label = .ok ⟨⟩) :
    ∃ text decoded, address = some text ∧
      decodeVersionedAddress text ledger.network = .ok decoded ∧
      decoded.version = .hybridKeyCommitment := by
  unfold validateRewardAddress at h
  rw [if_neg (by omega)] at h
  simp only [Outcome.bind_eq_ok, Outcome.ofOption_eq_ok, orError, Outcome.bailIf_eq_ok,
    not_not] at h
  obtain ⟨text, htext, decoded, hdecoded, hversion⟩ := h
  exact ⟨text, decoded, htext, hdecoded, hversion⟩

/-- Every signature of a checked section names the reward address of its member. -/
lemma section_rewardAddresses {u : Unit} (h : ledger.validateBurnBundleSectionForBlock block = .ok u) :
    ∀ signature ∈ block.burnBundleSection.signatures,
      ledger.validateRewardAddress block.height signature.rewardAddress "committee member"
        = .ok ⟨⟩ := by
  simp only [validateBurnBundleSectionForBlock, Outcome.bind_eq_ok] at h
  obtain ⟨_, _, _, _, seen, hseen, _⟩ := h
  refine Outcome.foldlM_prefix (fun done _ => ∀ signature ∈ done,
    ledger.validateRewardAddress block.height signature.rewardAddress "committee member"
      = .ok ⟨⟩) (by simp) ?_ hseen
  intro done signature before after _ hdone hcheck other hother
  rcases List.mem_append.mp hother with hother | hother
  · exact hdone other hother
  · rw [List.mem_singleton.mp hother]
    simp only [checkSectionSignature, Outcome.bind_eq_ok] at hcheck
    obtain ⟨_, _, _, _, _, _, _, _, member, _, _, _, _, haddress, _⟩ := hcheck
    exact haddress

/-- A mine action of an accepted block names the text of a hybrid address. -/
lemma mineRecipient_hybrid {recipient anchor : Str} {salt nonce difficultyBits : ℕ}
    {proofHeader : Option Str} {signature : Str}
    (active : hybridRewardActivationHeight ≤ ledger.tip.height + 1)
    (h : ledger.validateTransactionTerms
      (.mine recipient anchor salt nonce difficultyBits proofHeader signature) = .ok ⟨⟩) :
    ∃ decoded, decodeVersionedAddress recipient ledger.network = .ok decoded ∧
      decoded.version = .hybridKeyCommitment := by
  have hactive : hybridRewardActivationHeight ≤ saturatingAdd ledger.height 1 := by
    unfold saturatingAdd
    rw [Nat.le_min]
    exact ⟨active, by decide⟩
  unfold validateTransactionTerms at h
  dsimp only at h
  rw [if_pos hactive] at h
  simp only [Outcome.bind_eq_ok, Outcome.bailIf_eq_ok, not_not] at h
  obtain ⟨decoded, hdecoded, _, hversion, _⟩ := h
  exact ⟨decoded, hdecoded, hversion⟩

omit [Crypto] in
/-- A share of the reward is paid under a slot that has signed. -/
lemma committeeShares_slot {committee : List BurnCommitteeMember} {pool : Amount}
    {share : BurnCommitteeMember × Amount}
    (h : share ∈ committeeShares pool (rewardCommitteeMembers block committee)) :
    share.1.slot ∈ block.burnBundleSection.signatures.map BurnBundleSignature.slot := by
  have hmember : share.1 ∈ rewardCommitteeMembers block committee := by
    have hmem := List.mem_map_of_mem (f := Prod.fst) h
    rwa [committeeShares_map_fst] at hmem
  exact (rewardCommitteeMembers_slots block committee).subset (List.mem_map_of_mem hmember)

omit [Crypto] in
/-- The outputs of a reward: that of the finalizer, and those of the members that have signed. -/
lemma mem_rewardOutputs {committee : List BurnCommitteeMember} {entry : OutPoint × TxOutput}
    (h : entry ∈ rewardOutputsForBlock block committee) :
    (entry.1 = rewardOutpoint block.hash ∧
        entry.2.address = block.rewardAddress.getD block.miner) ∨
      ∃ member : BurnCommitteeMember,
        member.slot ∈ block.burnBundleSection.signatures.map BurnBundleSignature.slot ∧
        entry.1 = committeeRewardOutpoint block.hash member.slot ∧
        entry.2.address = committeeRewardAddress block member := by
  unfold rewardOutputsForBlock at h
  split at h
  · cases h
  · rcases List.mem_append.mp h with h | h
    · obtain ⟨-, h⟩ := List.mem_ite_nil_right.mp h
      rw [List.mem_singleton.mp h]
      exact .inl ⟨rfl, rfl⟩
    · obtain ⟨share, hshare, rfl⟩ := List.mem_map.mp h
      have hslot := committeeShares_slot (List.mem_filter.mp hshare).1
      exact .inr ⟨share.1, hslot, rfl, rfl⟩

omit [Crypto] in
/-- A slot in range is not paid under the name of the finalizer's reward, nor under that of another
slot. -/
lemma committeeRewardOutpoint_inj {hash : Str} {slot slot' : ℕ} (range : slot < burnCommitteeSize)
    (range' : slot' < burnCommitteeSize)
    (h : committeeRewardOutpoint hash slot = committeeRewardOutpoint hash slot') : slot = slot' := by
  have hindex := congrArg OutPoint.index h
  simp only [committeeRewardOutpoint, u32Max, burnCommitteeSize] at hindex range range'
  omega

omit [Crypto] in
lemma rewardOutpoint_ne_committee {hash : Str} {slot : ℕ}
    (range : 0 < slot ∧ slot < burnCommitteeSize) :
    rewardOutpoint hash ≠ committeeRewardOutpoint hash slot := by
  intro h
  have hindex := congrArg OutPoint.index h
  simp only [rewardOutpoint, committeeRewardOutpoint, u32Max, burnCommitteeSize] at hindex range
  omega

omit [Crypto] in
/-- The member of a slot is paid at the address that its signature names. -/
lemma committeeRewardAddress_of_signed {signature : BurnBundleSignature} {recipient : Str}
    {member : BurnCommitteeMember}
    (ordered : (block.burnBundleSection.signatures.map BurnBundleSignature.slot).Pairwise (· < ·))
    (signed : signature ∈ block.burnBundleSection.signatures)
    (named : signature.rewardAddress = some recipient) (slot : member.slot = signature.slot) :
    committeeRewardAddress block member = recipient := by
  have hfind : block.burnBundleSection.signatures.find? (fun other => other.slot = member.slot)
      = some signature := by
    cases hfound : block.burnBundleSection.signatures.find?
        (fun other => other.slot = member.slot) with
    | none =>
      rw [List.find?_eq_none] at hfound
      exact absurd (by simpa using slot.symm) (hfound signature signed)
    | some other =>
      have hslot : other.slot = signature.slot := by
        rw [← slot]
        simpa using List.find?_some hfound
      have hdistinct := ordered.imp Nat.ne_of_lt
      rw [List.inj_on_of_nodup_map hdistinct (List.mem_of_find?_eq_some hfound) signed hslot]
  unfold committeeRewardAddress
  rw [hfind, Option.bind_some, named, Option.getD_some]

/-- **What is paid** is held under the text of its recipient, which is that of a hybrid address. -/
theorem PaysForWork.held {effects : BlockEffects} {recipient : Str} {entry : OutPoint × TxOutput}
    (accepts : ledger.Accepts block effects ledger')
    (active : hybridRewardActivationHeight ≤ block.height)
    (pays : ledger.PaysForWork block recipient entry) :
    entry.2.address = recipient ∧
      ∃ address, decodeVersionedAddress recipient ledger.network = .ok address ∧
        address.version = .hybridKeyCommitment := by
  obtain ⟨nowMs, prechecked⟩ := accepts.prechecked
  obtain ⟨hordered, hrange⟩ := burnBundleSection_slots prechecked.burnBundleSection
  cases pays with
  | mine action created =>
    obtain ⟨seen, middle, last, domain, staged⟩ := stageBlock_eq_ok.mp accepts.staged
    obtain ⟨before, after, hround⟩ := staged.transactions.step_of_mem action
    obtain ⟨-, hterms, -⟩ := applyBlockTransaction_eq_ok.mp hround
    refine ⟨?_, mineRecipient_hybrid (by rw [← prechecked.height]; exact active) hterms⟩
    have hentry : entry = ({ txid := _, index := 0 }, { address := recipient, amount := _ }) :=
      List.mem_singleton.mp created
    rw [hentry]
  | finalizer named created outpoint =>
    have hchecked := prechecked.rewardAddress
    simp only [checkRewardAddress, Outcome.bind_eq_ok] at hchecked
    obtain ⟨_, hvalid, -⟩ := hchecked
    obtain ⟨text, address, htext, hdecoded, hversion⟩ := validateRewardAddress_hybrid active hvalid
    rw [named] at htext
    obtain rfl := Option.some.inj htext
    refine ⟨?_, address, hdecoded, hversion⟩
    rcases mem_rewardOutputs created with ⟨-, haddress⟩ | ⟨member, hslot, hname, -⟩
    · rw [haddress, named, Option.getD_some]
    · rw [outpoint] at hname
      exact absurd hname (rewardOutpoint_ne_committee (hrange _ hslot))
  | @committee signature _ _ signed named created outpoint =>
    obtain ⟨text, address, htext, hdecoded, hversion⟩ := validateRewardAddress_hybrid active
      (section_rewardAddresses prechecked.burnBundleSection signature signed)
    rw [named] at htext
    obtain rfl := Option.some.inj htext
    refine ⟨?_, address, hdecoded, hversion⟩
    have hsigned := hrange _ (List.mem_map_of_mem signed)
    rcases mem_rewardOutputs created with ⟨hname, -⟩ | ⟨member, hslot, hname, haddress⟩
    · rw [outpoint] at hname
      exact absurd hname.symm (rewardOutpoint_ne_committee hsigned)
    · rw [outpoint] at hname
      have hsame := committeeRewardOutpoint_inj hsigned.2 (hrange _ hslot).2 hname
      rw [haddress]
      exact committeeRewardAddress_of_signed hordered signed named hsame.symm

/-- Every output of a reward is paid to a recipient that the block names. -/
theorem reward_paid {effects : BlockEffects} (accepts : ledger.Accepts block effects ledger')
    (active : hybridRewardActivationHeight ≤ block.height) :
    ∀ entry ∈ rewardOutputsForBlock block (ledger.burnCommitteeForBlock block),
      ∃ recipient, ledger.PaysForWork block recipient entry := by
  intro entry created
  obtain ⟨nowMs, prechecked⟩ := accepts.prechecked
  rcases mem_rewardOutputs created with ⟨hname, -⟩ | ⟨member, hslot, hname, -⟩
  · have hchecked := prechecked.rewardAddress
    simp only [checkRewardAddress, Outcome.bind_eq_ok] at hchecked
    obtain ⟨_, hvalid, -⟩ := hchecked
    obtain ⟨text, _, htext, -⟩ := validateRewardAddress_hybrid active hvalid
    exact ⟨text, .finalizer htext created hname⟩
  · obtain ⟨signature, hsigned, hsame⟩ := List.mem_map.mp hslot
    obtain ⟨text, _, htext, -⟩ := validateRewardAddress_hybrid active
      (section_rewardAddresses prechecked.burnBundleSection signature hsigned)
    exact ⟨text, .committee hsigned htext created (by rw [hname, hsame])⟩

/-- **Outputs for work.** From the activation of hybrid rewards on, the recipients of an accepted
block can all spend what it pays them exactly if they are all spelled without surrounding white
space and without capital letters. -/
theorem work_spendable_iff (accepted : Step ledger (.accepted block) ledger')
    (active : hybridRewardActivationHeight ≤ block.height) :
    ((∀ entry ∈ rewardOutputsForBlock block (ledger.burnCommitteeForBlock block),
        ∃ recipient, ledger.PaysForWork block recipient entry) ∧
      ∀ recipient entry, ledger.PaysForWork block recipient entry →
        SpendableBy ledger.network recipient entry) ↔
    ∀ recipient entry, ledger.PaysForWork block recipient entry → PlainSpelling recipient := by
  obtain ⟨effects, accepts⟩ := step_accepted accepted
  constructor
  · intro spendable recipient entry pays
    obtain ⟨hheld, address, hdecoded, hversion⟩ := pays.held accepts active
    exact (spendableBy_iff hdecoded hversion hheld).mp (spendable.2 recipient entry pays)
  · intro plain
    refine ⟨reward_paid accepts active, ?_⟩
    intro recipient entry pays
    obtain ⟨hheld, address, hdecoded, hversion⟩ := pays.held accepts active
    exact (spendableBy_iff hdecoded hversion hheld).mpr (plain recipient entry pays)

end Ledger

end Iuna

/-! ## A reward in capital letters -/

namespace Iuna.Toy

attribute [local instance] crypto

/-- The genesis ledger, with the height of its tip set below the activation of hybrid rewards. -/
def raisedGenesis : Ledger :=
  { genesis with
    chain := [{ genesis.tip with height := hybridRewardActivationHeight - 1 }]
    chainNonempty := by simp }

def hybridOwner : VersionedAddress :=
  ⟨.hybridKeyCommitment, ⟨List.replicate 32 7, length_sevens⟩⟩

/-- The address of the owner in capital letters. -/
def capitals : Str :=
  ((encodeVersionedAddress hybridOwner raisedGenesis.network).toOption.getD []).map Char.toUpper

/-- A burn of the owner that is bound to the chain. -/
def anchoredBurn : Transaction :=
  let burn (signature : Str) : Transaction :=
    .burn [⟨genesisAllocationOutpoint owner, owner, signature⟩]
      [⟨owner, allocation - microIuna - 1⟩] microIuna 1 (some raisedGenesis.tip.prevHash) signature
  let message := ((burn []).signingBytes raisedGenesis.transactionSigningDomain).toOption.getD []
  burn (hexEncode (sign ownerKey message).val)

/-- The owner recovers and asks for the reward in capital letters. -/
def capitalBlock : Block :=
  let block := raisedGenesis.recoveryBlock owner [anchoredBurn] 1
  let payload := rewardAddressPayload block.height block.prevHash block.miner capitals
  let block := { block with
    rewardAddress := some capitals
    rewardAddressSignature := some (hexEncode (sign ownerKey (utf8 payload)).val) }
  { block with hash := block.computeHash }

def acceptCapital : Result (List Block × Ledger) :=
  Ledger.acceptEach [fun _ => capitalBlock] raisedGenesis

/-- The reward of the block. -/
def capitalReward : OutPoint × TxOutput :=
  (rewardOutpoint capitalBlock.hash, { address := capitals, amount := 1 })

set_option maxRecDepth 10000 in
lemma acceptCapital_isOk : acceptCapital.isOk = true ∧
    hybridRewardActivationHeight ≤ capitalBlock.height ∧
    capitalReward ∈ rewardOutputsForBlock capitalBlock
      (raisedGenesis.burnCommitteeForBlock capitalBlock) := by decide +kernel

def capitalLedger : Ledger := (Outcome.value acceptCapital acceptCapital_isOk.1).2

lemma capitalBlock_accepted :
    Ledger.Step raisedGenesis (.accepted capitalBlock) capitalLedger := by
  rw [capitalLedger]
  exact Ledger.step_of_acceptEach (Outcome.eq_ok_value acceptCapital acceptCapital_isOk.1)

lemma capitalReward_paid : raisedGenesis.PaysForWork capitalBlock capitals capitalReward :=
  .finalizer rfl acceptCapital_isOk.2.2 rfl

set_option maxRecDepth 10000 in
lemma capitals_not_plain : ¬ PlainSpelling capitals := by
  unfold PlainSpelling
  decide +kernel

/-- The block in capital letters pays for work what its recipients can spend, or not, as they are
spelled. -/
theorem work_spendable_iff_capital :
    ((∀ entry ∈ rewardOutputsForBlock capitalBlock
        (raisedGenesis.burnCommitteeForBlock capitalBlock),
        ∃ recipient, raisedGenesis.PaysForWork capitalBlock recipient entry) ∧
      ∀ recipient entry, raisedGenesis.PaysForWork capitalBlock recipient entry →
        SpendableBy raisedGenesis.network recipient entry) ↔
    ∀ recipient entry, raisedGenesis.PaysForWork capitalBlock recipient entry →
      PlainSpelling recipient :=
  Ledger.work_spendable_iff capitalBlock_accepted acceptCapital_isOk.2.1

/-- **A locked reward.** The block is accepted, and its finalizer cannot spend the reward. -/
theorem capitalBlock_locked :
    Ledger.Step raisedGenesis (.accepted capitalBlock) capitalLedger ∧
      hybridRewardActivationHeight ≤ capitalBlock.height ∧
      ¬ ∀ recipient entry, raisedGenesis.PaysForWork capitalBlock recipient entry →
        SpendableBy raisedGenesis.network recipient entry := by
  refine ⟨capitalBlock_accepted, acceptCapital_isOk.2.1, ?_⟩
  intro spendable
  obtain ⟨effects, accepts⟩ := Ledger.step_accepted capitalBlock_accepted
  obtain ⟨hheld, address, hdecoded, hversion⟩ :=
    capitalReward_paid.held accepts acceptCapital_isOk.2.1
  have hspendable := spendable capitals capitalReward capitalReward_paid
  exact capitals_not_plain ((spendableBy_iff hdecoded hversion hheld).mp hspendable)

end Iuna.Toy
