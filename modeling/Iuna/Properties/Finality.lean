import Iuna.Properties.NoReplay
import Iuna.Properties.Replay

/-!
# Finality checkpoints

A ticket block of rank zero above the activation height certifies its parent, and the ledger keeps
the parent of the last such block as its checkpoint.  `checkpoint_sound` says that this is what
the checkpoint is along every run, and what such a block has shown when it is accepted: its
leader and the signers of its bundles are distinct members of the committee, each in its own
slot, and more than two thirds of it; and every burn that they attest is in the block once
(`CarriesQuorum`).

That the members are distinct is not checked by a list of owners alone: the committee never draws
an owner that is skipped (`mem_drawCommittee`), and the leader is skipped from the start.
-/

namespace Iuna

open Runs

/-- A block that finalizes its parent: a ticket block of rank zero above the activation height. -/
def FinalityBlock (block : Block) : Prop :=
  objectiveFinalityActivationHeight < block.height ∧ block.finalizerMode = .ticket
    ∧ block.finalizerRank = 0

/-! ## The members of a committee -/

/-- What `max_by` returns is one of the elements. -/
lemma maxBy_mem {α : Type} {compare : α → α → Ordering} {values : List α} {best : α}
    (h : maxBy compare values = some best) : best ∈ values := by
  cases values with
  | nil => cases h
  | cons first rest =>
    obtain rfl := Option.some.inj h
    have hfold (rest : List α) (start : α) :
        rest.foldl (fun best value => if compare best value = .gt then best else value) start
          ∈ start :: rest := by
      induction rest generalizing start with
      | nil => simp
      | cons value rest ih =>
        rw [List.foldl_cons]
        have hmem := ih (if compare start value = .gt then start else value)
        rw [List.mem_cons] at hmem
        rcases hmem with hstart | hrest
        · rw [hstart]
          split <;> simp
        · exact List.mem_cons_of_mem _ (List.mem_cons_of_mem _ hrest)
    exact hfold rest first

/-- An element is alone with its image, if all images are different. -/
lemma filter_eq_singleton {α β : Type} [DecidableEq β] {f : α → β} {xs : List α} {a : α} {b : β}
    (distinct : (xs.map f).Nodup) (mem : a ∈ xs) (image : f a = b) :
    xs.filter (fun x => f x = b) = [a] := by
  induction xs with
  | nil => cases mem
  | cons x xs ih =>
    rw [List.map_cons, List.nodup_cons] at distinct
    rcases List.mem_cons.mp mem with rfl | htail
    · have hrest : xs.filter (fun x => f x = b) = [] := by
        rw [List.filter_eq_nil_iff]
        intro x hx himage
        refine distinct.1 (List.mem_map.mpr ⟨x, hx, ?_⟩)
        rw [image]
        simpa using himage
      rw [List.filter_cons_of_pos (by simpa using image), hrest]
    · have hne : f x ≠ b := by
        intro hx
        exact distinct.1 (List.mem_map.mpr ⟨a, htail, image.trans hx.symm⟩)
      rw [List.filter_cons_of_neg (by simpa using hne), ih distinct.2 htail]

/-- Elements with different images are different. -/
lemma nodup_of_filterMap {α β : Type} {f : α → Option β} {xs : List α}
    (distinct : (xs.filterMap f).Nodup) (total : ∀ x ∈ xs, ∃ y, f x = some y) : xs.Nodup := by
  induction xs with
  | nil => exact List.nodup_nil
  | cons x xs ih =>
    obtain ⟨hx, hxs⟩ := List.forall_mem_cons.mp total
    obtain ⟨y, hy⟩ := hx
    rw [List.filterMap_cons_some hy, List.nodup_cons] at distinct
    refine List.nodup_cons.mpr ⟨fun hmem => ?_, ih distinct.2 hxs⟩
    exact distinct.1 (List.mem_filterMap.mpr ⟨x, hmem, hy⟩)

namespace Ledger

/-- The representative of a lineage is not skipped. -/
lemma representative_not_skipped {ledger : Ledger} {root : UtxoLineageRoot}
    {skippedOwners eligibleTicketOwners : List Str} {owner : Str}
    (h : ledger.representativeOwnerForLineageRoot root skippedOwners eligibleTicketOwners
      = some owner) : owner ∉ skippedOwners := by
  simp only [representativeOwnerForLineageRoot, Option.bind_eq_bind, Option.bind_eq_some_iff,
    Option.pure_def, Option.some.injEq] at h
  obtain ⟨owners, -, representative, hrepresentative, rfl⟩ := h
  have hmem := maxBy_mem hrepresentative
  obtain ⟨entry, hentry, hholder⟩ := List.mem_filterMap.mp hmem
  obtain ⟨output, -, hpair⟩ := Option.bind_eq_some_iff.mp hholder
  obtain rfl := Option.some.inj hpair
  have hfilter := (List.mem_filter.mp hentry).2
  simp only [decide_eq_true_eq] at hfilter
  exact hfilter.2.1

lemma withRepresentative_not_skipped {ledger : Ledger} {skippedOwners eligibleTicketOwners : List Str}
    {candidate represented : LineageCommitteeCandidate}
    (h : ledger.withRepresentative skippedOwners eligibleTicketOwners candidate
      = some represented) : represented.owner ∉ skippedOwners := by
  simp only [withRepresentative, Option.bind_eq_bind, Option.bind_eq_some_iff, Option.pure_def,
    Option.some.injEq] at h
  obtain ⟨owner, howner, rfl⟩ := h
  exact representative_not_skipped howner

variable [Crypto] {ledger ledger' : Ledger} {block : Block} {effects : BlockEffects}

/-- A drawn member has one of the slots that are drawn for, and is not skipped. -/
lemma mem_drawCommittee {height : ℕ} {eligibleTicketOwners : List Str} {slots : List ℕ}
    {skippedOwners : List Str} {remaining : List LineageCommitteeCandidate}
    {member : BurnCommitteeMember}
    (represented : ∀ candidate ∈ remaining, candidate.owner ∉ skippedOwners)
    (h : member ∈ ledger.drawCommittee height eligibleTicketOwners slots skippedOwners remaining) :
    member.slot ∈ slots ∧ member.owner ∉ skippedOwners := by
  induction slots generalizing skippedOwners remaining with
  | nil => cases h
  | cons slot slots ih =>
    rw [drawCommittee] at h
    split at h
    · cases h
    · rename_i index selected hselected
      obtain ⟨_, -, hentry⟩ := Option.bind_eq_some_iff.mp hselected
      obtain ⟨_, hindex, hpair⟩ := Option.map_eq_some_iff.mp hentry
      obtain ⟨rfl, rfl⟩ := Prod.mk.inj hpair
      have hmem := List.mem_of_getElem? hindex
      rcases List.mem_cons.mp h with rfl | htail
      · exact ⟨List.mem_cons_self, represented _ hmem⟩
      · have hrest := ih (fun candidate hcandidate => by
          obtain ⟨_, -, hrepresented⟩ := List.mem_filterMap.mp hcandidate
          exact withRepresentative_not_skipped hrepresented) htail
        exact ⟨List.mem_cons_of_mem _ hrest.1,
          fun hskipped => hrest.2 (List.mem_cons_of_mem _ hskipped)⟩

/-- The slots of the drawn members are the first of those drawn for. -/
lemma drawCommittee_slots {height : ℕ} {eligibleTicketOwners : List Str} {slots : List ℕ}
    {skippedOwners : List Str} {remaining : List LineageCommitteeCandidate} :
    (ledger.drawCommittee height eligibleTicketOwners slots skippedOwners remaining).map
      BurnCommitteeMember.slot <+: slots := by
  induction slots generalizing skippedOwners remaining with
  | nil => exact List.prefix_rfl
  | cons slot slots ih =>
    rw [drawCommittee]
    split
    · exact List.nil_prefix
    · rw [List.map_cons]
      exact (List.cons_prefix_cons).mpr ⟨rfl, ih⟩

/-- The committee of a ticket block: its finalizer in slot zero, and members of other slots who
are not the finalizer. -/
lemma burnCommittee_of_ticket {ticket : BurnTicket} (mode : block.finalizerMode = .ticket)
    (drawn : ledger.ticketForFinalizerRank block.height block.finalizerRank = some ticket) :
    ∃ first others, ledger.burnCommitteeForBlock block = first :: others
      ∧ first.slot = 0 ∧ first.owner = ticket.owner
      ∧ (∀ member ∈ others, member.slot ≠ 0 ∧ member.owner ≠ ticket.owner)
      ∧ (others.map BurnCommitteeMember.slot).Nodup := by
  rw [ticketForFinalizerRank] at drawn
  rw [burnCommitteeForBlock, mode]
  dsimp only
  rw [burnCommitteeForTicketBlock, lineageBurnCommitteeForHeight, drawn]
  refine ⟨_, _, rfl, rfl, rfl, ?_, ?_⟩
  · intro member hmember
    obtain ⟨hslot, howner⟩ := mem_drawCommittee (fun candidate hcandidate => by
      obtain ⟨_, -, hrepresented⟩ := List.mem_filterMap.mp hcandidate
      exact withRepresentative_not_skipped hrepresented) hmember
    have hrange := List.mem_range'_1.mp hslot
    refine ⟨by omega, fun hsame => howner ?_⟩
    rw [hsame]
    exact List.mem_cons_self
  · exact drawCommittee_slots.sublist.nodup List.nodup_range'

/-! ## What a block of finality carries -/

/-- The attestations of a block: the leader holds slot zero and has proved it; each signer of a
bundle is a member of the committee, in its own slot, and has signed its bundle; the signers are
different, and together more than two thirds of the committee; and each attested burn is in the
block once. -/
structure CarriesQuorum (ledger : Ledger) (block : Block) : Prop where
  leader : ∃ member ∈ ledger.burnCommitteeForBlock block,
    member.slot = 0 ∧ member.owner = block.miner
  leaderProof : verifyLeaderProof block ledger.tickets = .ok ⟨⟩
  assigned : ∀ signature ∈ block.burnBundleSection.signatures,
    ∃ member ∈ ledger.burnCommitteeForBlock block,
      member.slot = signature.slot ∧ member.owner = signature.member
  signed : ∀ bundle ∈ block.burnBundleSection.expand block.height block.prevHash,
    verifyAddressSignature bundle.member bundle.canonicalPayload bundle.signature "burn bundle"
      = .ok ⟨⟩
  committee_slots_nodup :
    ((ledger.burnCommitteeForBlock block).map BurnCommitteeMember.slot).Nodup
  slots_nodup : (0 :: block.burnBundleSection.signatures.map BurnBundleSignature.slot).Nodup
  members_nodup :
    (block.miner :: block.burnBundleSection.signatures.map BurnBundleSignature.member).Nodup
  majority : 2 * (ledger.burnCommitteeForBlock block).length
    < 3 * (block.burnBundleSection.signatures.length + 1)
  burns : ∀ bundle ∈ block.burnBundleSection.expand block.height block.prevHash,
    ∀ burn ∈ bundle.burns, ∃ transaction,
      block.transactions.filter (fun other => other.signature = burn.signature) = [transaction]
        ∧ transaction.isBurn = true ∧ transaction.canonical = burn.canonical
  burnsV2 : ∀ bundle ∈ block.burnBundleSection.expand block.height block.prevHash,
    ∀ envelope ∈ bundle.burnsV2, block.transactionsV2.count envelope = 1

/-- The signers of a checked section have the slots that they sign for, and are different. -/
lemma section_signers {u : Unit} (h : ledger.validateBurnBundleSectionForBlock block = .ok u) :
    (∀ signature ∈ block.burnBundleSection.signatures,
        ∃ member, committeeMember (ledger.burnCommitteeForBlock block) signature.slot = some member
          ∧ signature.member = member.owner)
      ∧ (block.burnBundleSection.signatures.map BurnBundleSignature.member).Nodup
      ∧ requiredExplicitBurnSignatures block.height block.finalizerMode block.finalizerRank
          (ledger.burnCommitteeForBlock block).length
        ≤ block.burnBundleSection.signatures.length
      ∧ ∀ bundle ∈ block.burnBundleSection.expand block.height block.prevHash,
        verifyAddressSignature bundle.member bundle.canonicalPayload bundle.signature "burn bundle"
          = .ok ⟨⟩ := by
  simp only [validateBurnBundleSectionForBlock, Outcome.bind_eq_ok, Outcome.bailIf_eq_ok,
    not_lt] at h
  obtain ⟨_, _, _, _, seen, hseen, _, hrequired, _, _, _, _, _, _, hbundles⟩ := h
  have hloop := Outcome.foldlM_prefix (fun done seen =>
    (∀ signature ∈ done,
        ∃ member, committeeMember (ledger.burnCommitteeForBlock block) signature.slot = some member
          ∧ signature.member = member.owner)
      ∧ seen.seenMembers = (done.map BurnBundleSignature.member).reverse
      ∧ seen.seenMembers.Nodup) (by simp) ?_ hseen
  · refine ⟨hloop.1, List.nodup_reverse.mp (hloop.2.1 ▸ hloop.2.2), hrequired, ?_⟩
    intro bundle hbundle
    have hcheck := Outcome.forM_eq_ok.mp hbundles bundle hbundle
    simp only [checkExpandedBundle, Outcome.bind_eq_ok] at hcheck
    obtain ⟨_, _, hverified⟩ := hcheck
    exact hverified
  · rintro done signature before after - ⟨hassigned, hmembers, hnodup⟩ hcheck
    simp only [checkSectionSignature, Outcome.bind_eq_ok, Outcome.bailIf_eq_ok,
      Outcome.ofOption_eq_ok, Outcome.pure_eq_ok, not_not] at hcheck
    obtain ⟨_, _, _, _, _, _, _, hnew, member, hmember, _, howner, _, _, _, _, rfl⟩ := hcheck
    refine ⟨?_, ?_, List.nodup_cons.mpr ⟨hnew, hnodup⟩⟩
    · intro other hother
      rcases List.mem_append.mp hother with hother | hother
      · exact hassigned other hother
      · obtain rfl := List.mem_singleton.mp hother
        exact ⟨member, hmember, howner⟩
    · simp [hmembers]

omit [Crypto] in
/-- More than two thirds: the quorum with the leader's own attestation. -/
lemma majority_of_quorum {size signatures : ℕ} (nonempty : 0 < size)
    (h : objectiveFinalityQuorum size - 1 ≤ signatures) : 2 * size < 3 * (signatures + 1) := by
  unfold objectiveFinalityQuorum at h
  rw [if_neg (by omega)] at h
  omega

/-- The leader of an accepted ticket block holds the ticket of the first slot. -/
lemma prechecked_leader {nowMs : ℕ} (prechecked : ledger.Prechecked block nowMs)
    (mode : block.finalizerMode = .ticket) :
    verifyLeaderProof block ledger.tickets = .ok ⟨⟩ ∧ ∃ ticket,
      ledger.ticketForFinalizerRank block.height block.finalizerRank = some ticket
        ∧ ticket.owner = block.miner := by
  have hfinalizer := prechecked.finalizer
  rw [checkFinalizer, mode] at hfinalizer
  simp only [Outcome.bind_eq_ok, Outcome.ofOption_eq_ok, Outcome.bailIf_eq_ok, not_not]
    at hfinalizer
  obtain ⟨ticket, hticket, _, howner, _, _, hproof⟩ := hfinalizer
  exact ⟨hproof, ticket, hticket, howner⟩

/-- The envelopes of an accepted block are different. -/
lemma accepts_envelopes_nodup (accepts : ledger.Accepts block effects ledger') :
    block.transactionsV2.Nodup := by
  obtain ⟨-, hids, -⟩ := accepts_ids_nodup accepts
  obtain ⟨seen, middle, last, domain, staged⟩ := stageBlock_eq_ok.mp accepts.staged
  rw [transactionV2Ids, staged.transactionV2Domain] at hids
  refine nodup_of_filterMap hids fun envelope henvelope => ?_
  obtain ⟨transaction, id, hopen⟩ := envelopes_open staged.envelopes envelope henvelope
  exact ⟨_, by rw [hopen, Option.map_some]⟩

/-- **The quorum.** An accepted block of finality carries it. -/
theorem accepts_carriesQuorum (accepts : ledger.Accepts block effects ledger')
    (final : FinalityBlock block) : ledger.CarriesQuorum block := by
  obtain ⟨habove, hmode, hrank⟩ := final
  obtain ⟨nowMs, prechecked⟩ := accepts.prechecked
  obtain ⟨hproof, ticket, hdrawn, howner⟩ := prechecked_leader prechecked hmode
  obtain ⟨first, others, hcommittee, hfirstSlot, hfirstOwner, hothers, hslots⟩ :=
    burnCommittee_of_ticket hmode hdrawn
  obtain ⟨hassigned, hmembers, hrequired, hsigned⟩ := section_signers prechecked.burnBundleSection
  obtain ⟨hordered, hrange⟩ := burnBundleSection_slots prechecked.burnBundleSection
  have hattested := prechecked_attested prechecked
  obtain ⟨hsignatures, hids, -⟩ := accepts_ids_nodup accepts
  have hmember (signature : BurnBundleSignature)
      (hsignature : signature ∈ block.burnBundleSection.signatures) :
      ∃ member ∈ others, member.slot = signature.slot ∧ member.owner = signature.member := by
    obtain ⟨member, hfound, hsame⟩ := hassigned signature hsignature
    have hslot : member.slot = signature.slot := by
      simpa using List.find?_some hfound
    have hmem : member ∈ ledger.burnCommitteeForBlock block :=
      List.mem_reverse.mp (List.mem_of_find?_eq_some hfound)
    have hpositive := (hrange _ (List.mem_map_of_mem hsignature)).1
    rw [hcommittee, List.mem_cons] at hmem
    rcases hmem with rfl | hother
    · omega
    · exact ⟨member, hother, hslot, hsame.symm⟩
  refine ⟨⟨first, by simp [hcommittee], hfirstSlot, hfirstOwner.trans howner⟩, hproof, ?_, hsigned,
    ?_, ?_, ?_, ?_, ?_, ?_⟩
  · intro signature hsignature
    obtain ⟨member, hother, hslot, hsame⟩ := hmember signature hsignature
    exact ⟨member, by simp [hcommittee, hother], hslot, hsame⟩
  · rw [hcommittee, List.map_cons, List.nodup_cons, hfirstSlot]
    refine ⟨fun hzero => ?_, hslots⟩
    obtain ⟨member, hmem, hslot⟩ := List.mem_map.mp hzero
    exact (hothers member hmem).1 hslot
  · rw [List.nodup_cons]
    refine ⟨fun hzero => ?_, hordered.imp Nat.ne_of_lt⟩
    exact absurd (hrange 0 hzero).1 (lt_irrefl 0)
  · rw [List.nodup_cons]
    refine ⟨fun hminer => ?_, hmembers⟩
    obtain ⟨signature, hsignature, hsame⟩ := List.mem_map.mp hminer
    obtain ⟨member, hother, -, howned⟩ := hmember signature hsignature
    exact (hothers member hother).2 (by rw [howned, hsame, howner])
  · have hnonempty : 0 < (ledger.burnCommitteeForBlock block).length := by simp [hcommittee]
    refine majority_of_quorum hnonempty ?_
    unfold requiredExplicitBurnSignatures at hrequired
    rw [if_neg (by omega), hmode] at hrequired
    dsimp only at hrequired
    rwa [if_pos ⟨hrank, by omega⟩] at hrequired
  · intro bundle hbundle burn hburn
    obtain ⟨signature, -, rfl⟩ := List.mem_map.mp hbundle
    obtain ⟨masked, hmasked, rfl⟩ := List.mem_map.mp hburn
    obtain ⟨transaction, htransaction, hisBurn, hsame, hcanonical⟩ :=
      hattested.burns masked (List.mem_filter.mp hmasked).1
    exact ⟨transaction, filter_eq_singleton hsignatures htransaction hsame, hisBurn, hcanonical⟩
  · intro bundle hbundle envelope henvelope
    obtain ⟨signature, -, rfl⟩ := List.mem_map.mp hbundle
    obtain ⟨masked, hmasked, rfl⟩ := List.mem_map.mp henvelope
    have hmem := hattested.burnsV2 masked (List.mem_filter.mp hmasked).1
    exact List.count_eq_one_of_mem (accepts_envelopes_nodup accepts) hmem

/-! ## The checkpoint -/

/-- A block of finality certifies its parent, and no other accepted block does. -/
lemma accepts_certifiedParent (accepts : ledger.Accepts block effects ledger') :
    (FinalityBlock block → ledger.certifiedParent block
        = some { height := ledger.tip.height, hash := ledger.tip.hash })
      ∧ (¬ FinalityBlock block → ledger.certifiedParent block = none) := by
  constructor
  · intro final
    have hquorum := accepts_carriesQuorum accepts final
    obtain ⟨member, hmember, -⟩ := hquorum.leader
    have hpositive : 0 < (ledger.burnCommitteeForBlock block).length :=
      List.length_pos_of_mem hmember
    have hmajority := hquorum.majority
    obtain ⟨habove, hmode, hrank⟩ := final
    rw [certifiedParent, if_pos]
    simp only [blockCertifiesParent, decide_eq_true_eq]
    refine ⟨habove, hmode, hrank, hpositive, ?_⟩
    rw [objectiveFinalityQuorum, if_neg (by omega)]
    omega
  · intro other
    rw [certifiedParent, if_neg]
    simp only [blockCertifiesParent, decide_eq_true_eq]
    rintro ⟨habove, hmode, hrank, -⟩
    exact other ⟨habove, hmode, hrank⟩

/-- The checkpoint after an accepted block: its parent if the block certifies it, else the
checkpoint before. -/
lemma step_checkpoint (step : Step ledger (.accepted block) ledger') :
    ledger'.objectiveFinalityCheckpoint
      = (ledger.certifiedParent block).or ledger.objectiveFinalityCheckpoint := by
  cases step with
  | accepted isNew applied =>
    rcases applyBlockWithVdfPolicy_eq_ok applied with ⟨isKnown, -⟩ | h
    · rw [isNew] at isKnown
      cases isKnown
    · obtain ⟨effects, context, pools, -, -, -, -, -, rfl⟩ := h
      exact recordBlock_objectiveFinalityCheckpoint ledger block effects context

omit [Crypto] in
lemma retainRecentChainBlocks_checkpoint (ledger : Ledger) (recentLimit : ℕ) :
    (ledger.retainRecentChainBlocks recentLimit).objectiveFinalityCheckpoint
      = ledger.objectiveFinalityCheckpoint := by
  obtain ⟨_, _, _, h⟩ := retainRecentChainBlocks_eq ledger recentLimit
  rw [h]

/-- The checkpoint of a chain: none while it has no block of finality, else the parent of the
highest one. -/
structure CheckpointOf (chain : List Block) (checkpoint : Option FinalityCheckpoint) : Prop where
  none_iff : checkpoint = none ↔ ∀ block ∈ chain, ¬ FinalityBlock block
  certified : ∀ certified, checkpoint = some certified → ∃ before parent child after,
    chain = before ++ parent :: child :: after ∧ FinalityBlock child
      ∧ (∀ block ∈ chain, FinalityBlock block → block.height ≤ child.height)
      ∧ child.prevHash = parent.hash
      ∧ certified = { height := parent.height, hash := parent.hash }

omit [Crypto] in
/-- A block of finality on a chain makes its parent the checkpoint. -/
lemma CheckpointOf.push_final {chain before : List Block} {parent block : Block}
    (hchain : chain = before ++ [parent]) (highest : ∀ other ∈ chain, other.height ≤ block.height)
    (linked : block.prevHash = parent.hash) (final : FinalityBlock block) :
    CheckpointOf (chain ++ [block]) (some { height := parent.height, hash := parent.hash }) where
  none_iff := by
    constructor
    · intro h
      cases h
    · intro h
      exact absurd final (h block (by simp))
  certified := by
    rintro _ ⟨⟩
    refine ⟨before, parent, block, [], by simp [hchain], final, ?_, linked, rfl⟩
    intro other hother _
    rcases List.mem_append.mp hother with hother | hother
    · exact highest other hother
    · rw [List.mem_singleton.mp hother]

omit [Crypto] in
/-- Another block leaves it. -/
lemma CheckpointOf.push_other {chain : List Block} {checkpoint : Option FinalityCheckpoint}
    (prior : CheckpointOf chain checkpoint) (other : ¬ FinalityBlock block) :
    CheckpointOf (chain ++ [block]) checkpoint where
  none_iff := by
    rw [prior.none_iff]
    constructor
    · intro hnone child hchild
      rcases List.mem_append.mp hchild with hchild | hchild
      · exact hnone child hchild
      · rwa [List.mem_singleton.mp hchild]
    · exact fun hnone child hchild => hnone child (List.mem_append_left _ hchild)
  certified := by
    intro certified hcertified
    obtain ⟨before, parent, child, after, hchain, hfinal, hhighest, hlinked, hsame⟩ :=
      prior.certified certified hcertified
    refine ⟨before, parent, child, after ++ [block], by simp [hchain], hfinal, ?_, hlinked, hsame⟩
    intro later hlater hlaterFinal
    rcases List.mem_append.mp hlater with hlater | hlater
    · exact hhighest later hlater hlaterFinal
    · rw [List.mem_singleton.mp hlater] at hlaterFinal
      exact absurd hlaterFinal other

/-- The checkpoint of a run is that of its chain, which ends at the tip. -/
lemma run_checkpoint {genesis : Ledger} {events : List Event} (initial : Initial genesis)
    (run : Run Step genesis events ledger) :
    (∃ before, genesis.chain ++ acceptedBlocks events = before ++ [ledger.tip])
      ∧ (∀ block ∈ genesis.chain ++ acceptedBlocks events, block.height ≤ ledger.tip.height)
      ∧ CheckpointOf (genesis.chain ++ acceptedBlocks events)
        ledger.objectiveFinalityCheckpoint := by
  refine run.track (fun events ledger =>
    (∃ before, genesis.chain ++ acceptedBlocks events = before ++ [ledger.tip])
      ∧ (∀ block ∈ genesis.chain ++ acceptedBlocks events, block.height ≤ ledger.tip.height)
      ∧ CheckpointOf (genesis.chain ++ acceptedBlocks events)
        ledger.objectiveFinalityCheckpoint) ?_ ?_
  · rintro done middle event middle' ⟨⟨before, hends⟩, hheights, hcheckpoint⟩ step
    rw [acceptedBlocks_append, acceptedBlocks_singleton]
    cases event with
    | accepted block =>
      obtain ⟨effects, accepts⟩ := step_accepted step
      obtain ⟨hfinal, hother⟩ := accepts_certifiedParent accepts
      obtain ⟨_, prechecked⟩ := accepts.prechecked
      have hnext := step_checkpoint step
      have hbelow : ∀ other ∈ genesis.chain ++ acceptedBlocks done,
          other.height ≤ block.height := by
        intro other hmem
        have hother := hheights other hmem
        have hheight := prechecked.height
        omega
      simp only [Event.acceptedBlock, Option.toList_some]
      rw [accepts.tip, ← List.append_assoc]
      refine ⟨⟨_, rfl⟩, ?_, ?_⟩
      · intro other hmem
        rcases List.mem_append.mp hmem with hmem | hmem
        · exact hbelow other hmem
        · rw [List.mem_singleton.mp hmem]
      · by_cases final : FinalityBlock block
        · rw [hnext, hfinal final]
          exact .push_final hends hbelow prechecked.prevHash final
        · rw [hnext, hother final, Option.none_or]
          exact hcheckpoint.push_other final
    | known block =>
      rw [step_known step]
      simp only [Event.acceptedBlock, Option.toList_none, List.append_nil]
      exact ⟨⟨before, hends⟩, hheights, hcheckpoint⟩
    | poolsChanged pools =>
      cases step
      simp only [Event.acceptedBlock, Option.toList_none, List.append_nil]
      exact ⟨⟨before, hends⟩, hheights, hcheckpoint⟩
    | historyPruned recentLimit =>
      cases step
      rw [retainRecentChainBlocks_tip, retainRecentChainBlocks_checkpoint]
      simp only [Event.acceptedBlock, Option.toList_none, List.append_nil]
      exact ⟨⟨before, hends⟩, hheights, hcheckpoint⟩
  · obtain ⟨_, block, _, _, _, _, _, _, -, hblock, -, -, rfl⟩ := initial_eq initial
    have hlow : ¬ FinalityBlock block := by
      rintro ⟨habove, -, -⟩
      rw [hblock] at habove
      exact absurd habove (Nat.not_lt_zero _)
    rw [acceptedBlocks_nil, List.append_nil]
    show (∃ before, [block] = before ++ [block]) ∧ (∀ other ∈ [block], other.height ≤ block.height)
      ∧ CheckpointOf [block] none
    refine ⟨⟨[], rfl⟩, by simp, ?_, ?_⟩
    · simpa using hlow
    · rintro _ ⟨⟩

/-- **Finality checkpoints.** Along every run from a genesis ledger the checkpoint is that of the
chain; an accepted block never lowers it; and an accepted block of finality carries a quorum. -/
theorem checkpoint_sound {genesis : Ledger} {events : List Event} (initial : Initial genesis)
    (run : Run Step genesis events ledger) :
    CheckpointOf (genesis.chain ++ acceptedBlocks events) ledger.objectiveFinalityCheckpoint
      ∧ ∀ block ledger', Step ledger (.accepted block) ledger' →
        (∀ certified, ledger.objectiveFinalityCheckpoint = some certified →
          ∃ certified', ledger'.objectiveFinalityCheckpoint = some certified'
            ∧ certified.height ≤ certified'.height)
        ∧ (FinalityBlock block → ledger.CarriesQuorum block) := by
  obtain ⟨-, hheights, hcheckpoint⟩ := run_checkpoint initial run
  refine ⟨hcheckpoint, fun block ledger' step => ?_⟩
  obtain ⟨effects, accepts⟩ := step_accepted step
  refine ⟨fun certified hcertified => ?_, accepts_carriesQuorum accepts⟩
  obtain ⟨before, parent, child, after, hchain, -, -, -, rfl⟩ :=
    hcheckpoint.certified certified hcertified
  obtain ⟨hfinal, hother⟩ := accepts_certifiedParent accepts
  have hnext := step_checkpoint step
  by_cases final : FinalityBlock block
  · rw [hnext, hfinal final]
    exact ⟨_, rfl, hheights parent (by simp [hchain])⟩
  · rw [hnext, hother final, Option.none_or]
    exact ⟨_, hcertified, le_refl _⟩

end Ledger

end Iuna

namespace Iuna.Toy

attribute [local instance] crypto

/-- The checkpoint after two blocks. -/
theorem checkpoint_sound_coins :
    Ledger.CheckpointOf (genesis.chain ++ Ledger.acceptedBlocks (coinBlocks.map .accepted))
        coinLedger.objectiveFinalityCheckpoint
      ∧ ∀ block ledger', Ledger.Step coinLedger (.accepted block) ledger' →
        (∀ certified, coinLedger.objectiveFinalityCheckpoint = some certified →
          ∃ certified', ledger'.objectiveFinalityCheckpoint = some certified'
            ∧ certified.height ≤ certified'.height)
        ∧ (FinalityBlock block → coinLedger.CarriesQuorum block) :=
  Ledger.checkpoint_sound genesis_initial coins_run

end Iuna.Toy
