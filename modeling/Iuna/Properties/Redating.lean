import Iuna.Properties.Launch

/-!
# Re-dated ticket blocks

Neither the seed of the delay function of a ticket block nor the text that its leader signs
contains the timestamp, and every other check of the block reads it only to compare it with the
clock and the parent.  Whoever holds an accepted ticket block can therefore write another
timestamp into it and recompute the hash (`Block.redate`): the result is accepted too, with the
delay proof and the signatures of the leader as they were.
-/

namespace Iuna

open CompactWriter

variable [Crypto]

/-- The block with another timestamp, and the hash that goes with it. -/
def Block.redate (block : Block) (timestampMs : ℕ) : Block :=
  { block with
    timestampMs := timestampMs
    hash := { block with timestampMs := timestampMs }.computeHash }

/-! ## The encoding -/

omit [Crypto] in
lemma writer_bind_eq_ok {α β : Type} {x : StateT EncodeTables Result α}
    {f : α → StateT EncodeTables Result β} {tables : EncodeTables} {result : β × EncodeTables} :
    (x >>= f) tables = .ok result ↔
      ∃ a middle, x tables = .ok (a, middle) ∧ f a middle = .ok result := by
  simp only [bind, StateT.bind, Except.bind]
  cases x tables with
  | error failure => simp
  | ok value =>
    obtain ⟨a, middle⟩ := value
    simp

omit [Crypto] in
lemma writer_pure_eq_ok {α : Type} {a : α} {tables : EncodeTables}
    {result : α × EncodeTables} :
    (pure a : StateT EncodeTables Result α) tables = .ok result ↔ (a, tables) = result := by
  simp [pure, StateT.pure, Except.pure]

/-- The timestamp is the first field of a block body. -/
lemma encodeBlockBody_redate {version : ℕ} {block : Block} {tables tables' : EncodeTables}
    {bytes : Bytes} (timestampMs : ℕ)
    (encoded : encodeBlockBody version block tables = .ok (bytes, tables')) :
    ∃ rest, bytes = varint block.timestampMs ++ rest ∧
      encodeBlockBody version (block.redate timestampMs) tables
        = .ok (varint timestampMs ++ rest, tables') := by
  simp only [encodeBlockBody, writer_bind_eq_ok, writer_pure_eq_ok, Prod.mk.injEq] at encoded
  obtain ⟨miner, _, hminer, rewardAddress, _, hrewardAddress, vdfOutput, _, hvdfOutput,
    leaderProof, _, hleaderProof, transactions, _, htransactions, envelopes, _, henvelopes,
    burnBundleSection, _, hburnBundleSection, rfl, rfl⟩ := encoded
  refine ⟨_, by simp only [List.append_assoc]; rfl, ?_⟩
  simp only [encodeBlockBody, writer_bind_eq_ok, writer_pure_eq_ok, Prod.mk.injEq]
  refine ⟨miner, _, hminer, rewardAddress, _, hrewardAddress, vdfOutput, _, hvdfOutput,
    leaderProof, _, hleaderProof, transactions, _, htransactions, envelopes, _, henvelopes,
    burnBundleSection, _, hburnBundleSection, ?_, rfl⟩
  simp only [List.append_assoc]
  rfl

namespace Ledger

lemma blockSizeBytes_redate {context : CompactBlockContext} {block : Block} {size : ℕ}
    (timestampMs : ℕ) (measured : context.blockSizeBytes block = .ok size)
    (width : (varint timestampMs).length ≤ (varint block.timestampMs).length) :
    ∃ size', context.blockSizeBytes (block.redate timestampMs) = .ok size' ∧ size' ≤ size := by
  simp only [CompactBlockContext.blockSizeBytes, Outcome.bind_eq_ok, Outcome.pure_eq_ok,
    Prod.exists] at measured
  obtain ⟨bytes, tables, hencoded, rfl⟩ := measured
  obtain ⟨rest, rfl, hredated⟩ := encodeBlockBody_redate timestampMs hencoded
  refine ⟨(varint timestampMs ++ rest).length, ?_, ?_⟩
  · simp only [CompactBlockContext.blockSizeBytes, Outcome.bind_eq_ok, Outcome.pure_eq_ok,
      Prod.exists]
    exact ⟨_, _, hredated, rfl⟩
  · simp only [List.length_append]
    omega

lemma appendBlock_redate {context context' : CompactBlockContext} {block : Block}
    (timestampMs : ℕ) (appended : context.appendBlock block = .ok context') :
    ∃ context', context.appendBlock (block.redate timestampMs) = .ok context' := by
  simp only [CompactBlockContext.appendBlock, Outcome.bind_eq_ok, Outcome.pure_eq_ok,
    Prod.exists] at appended
  obtain ⟨bytes, tables, hencoded, -⟩ := appended
  obtain ⟨rest, -, hredated⟩ := encodeBlockBody_redate timestampMs hencoded
  refine ⟨{ tables := tables.registerProtocolId (block.redate timestampMs).hash }, ?_⟩
  simp only [CompactBlockContext.appendBlock, Outcome.bind_eq_ok, Outcome.pure_eq_ok, Prod.exists]
  exact ⟨_, _, hredated, rfl⟩

/-! ## The checks -/

/-- Another timestamp that the rules leave open to a ticket block: after the parent, not before
the slot of the rank, and not wider in the encoding. -/
structure OpenTimestamp (ledger : Ledger) (block : Block) (timestampMs : ℕ) : Prop where
  other : timestampMs ≠ block.timestampMs
  increases : ledger.tip.timestampMs < timestampMs
  median : ledger.medianTimePast < timestampMs
  slot : ∃ minTimestamp, ticketBlockMinTimestamp ledger.tip block.finalizerRank = .ok minTimestamp
    ∧ minTimestamp ≤ timestampMs
  fits : timestampMs ≤ u64Max
  width : (varint timestampMs).length ≤ (varint block.timestampMs).length

variable {ledger : Ledger} {block : Block} {timestampMs : ℕ}

lemma burnCommitteeForBlock_redate (mode : block.finalizerMode = .ticket) :
    ledger.burnCommitteeForBlock (block.redate timestampMs) = ledger.burnCommitteeForBlock block := by
  have hmode : (block.redate timestampMs).finalizerMode = .ticket := mode
  unfold burnCommitteeForBlock
  rw [hmode, mode]
  rfl

lemma validateBurnBundleSectionForBlock_redate (mode : block.finalizerMode = .ticket) :
    ledger.validateBurnBundleSectionForBlock (block.redate timestampMs)
      = ledger.validateBurnBundleSectionForBlock block := by
  unfold validateBurnBundleSectionForBlock
  rw [burnCommitteeForBlock_redate mode]
  rfl

lemma checkFinalizer_redate (mode : block.finalizerMode = .ticket) :
    ledger.checkFinalizer (block.redate timestampMs) = ledger.checkFinalizer block := by
  have hmode : (block.redate timestampMs).finalizerMode = .ticket := mode
  unfold checkFinalizer
  rw [hmode, mode]
  rfl

/-- A clock that is far enough admits any timestamp. -/
lemma checkTimestamp_redate (mode : block.finalizerMode = .ticket)
    (isOpen : ledger.OpenTimestamp block timestampMs) :
    ledger.checkTimestamp (block.redate timestampMs) timestampMs = .ok () := by
  obtain ⟨minTimestamp, hslot, hmin⟩ := isOpen.slot
  have hincreases := isOpen.increases
  have hmedian := isOpen.median
  have hfits := isOpen.fits
  have hmode : (block.redate timestampMs).finalizerMode = .ticket := mode
  have hrank : (block.redate timestampMs).finalizerRank = block.finalizerRank := rfl
  have htime : (block.redate timestampMs).timestampMs = timestampMs := rfl
  have hdrift : ¬ saturatingAdd timestampMs maxBlockTimestampFutureDriftMs < timestampMs := by
    unfold saturatingAdd
    omega
  unfold checkTimestamp
  rw [htime, hmode, hrank, hslot, if_pos rfl, if_neg hdrift]
  simp [bailIf, show ¬ timestampMs ≤ ledger.tip.timestampMs by omega,
    show ¬ timestampMs < minTimestamp by omega, show ¬ timestampMs ≤ ledger.medianTimePast by omega]

/-- A re-dated ticket block passes the checks that the block has passed. -/
theorem Prechecked.redate {nowMs : ℕ} (checked : ledger.Prechecked block nowMs)
    (mode : block.finalizerMode = .ticket) (isOpen : ledger.OpenTimestamp block timestampMs) :
    ledger.Prechecked (block.redate timestampMs) timestampMs where
  height := checked.height
  prevHash := checked.prevHash
  hash := rfl
  rewardAddress := checked.rewardAddress
  noReplay := checked.noReplay
  reward := checked.reward
  vdfRounds := checked.vdfRounds
  timestamp := checkTimestamp_redate mode isOpen
  transactionCount := checked.transactionCount
  v2Active := checked.v2Active
  size := by
    obtain ⟨size, hsize, hmax⟩ := checked.size
    obtain ⟨size', hsize', hle⟩ := blockSizeBytes_redate timestampMs hsize isOpen.width
    exact ⟨size', hsize', hle.trans hmax⟩
  anchorLimit := checked.anchorLimit
  hasBurn := checked.hasBurn
  feePolicy := checked.feePolicy
  burnBundleSection := by
    rw [validateBurnBundleSectionForBlock_redate mode]
    exact checked.burnBundleSection
  finalizer := by
    rw [checkFinalizer_redate mode]
    exact checked.finalizer

lemma vdfSeed_redate (timestampMs : ℕ) (mode : block.finalizerMode = .ticket) :
    (block.redate timestampMs).vdfSeed = block.vdfSeed := by
  have hmode : (block.redate timestampMs).finalizerMode = .ticket := mode
  unfold Block.vdfSeed
  dsimp only
  rw [hmode, mode]
  rfl

/-! ## The transition -/

/-- The reward outputs move to the outpoints of the new hash, with the same contents. -/
lemma rewardOutputs_redate (committee : List BurnCommitteeMember) :
    (rewardOutputsForBlock (block.redate timestampMs) committee).map Prod.snd
      = (rewardOutputsForBlock block committee).map Prod.snd := by
  have hmembers : rewardCommitteeMembers (block.redate timestampMs) committee
      = rewardCommitteeMembers block committee := rfl
  have hreward : (block.redate timestampMs).reward = block.reward := rfl
  unfold rewardOutputsForBlock
  rw [hmembers, hreward]
  split
  · rfl
  · dsimp only
    rw [List.map_append, List.map_append, List.map_map, List.map_map]
    congr 1
    rw [apply_ite (List.map Prod.snd), apply_ite (List.map Prod.snd)]
    rfl

/-- The effects of a re-dated ticket block can be staged too. -/
lemma stageBlock_redate {effects : BlockEffects} (timestampMs : ℕ)
    (mode : block.finalizerMode = .ticket) (staged : ledger.stageBlock block = .ok effects) :
    ∃ effects', ledger.stageBlock (block.redate timestampMs) = .ok effects' := by
  obtain ⟨seen, middle, last, domain, h⟩ := stageBlock_eq_ok.mp staged
  have hcredited := h.credited
  simp only [creditRewardOutputs, Outcome.bind_eq_ok, Outcome.pure_eq_ok] at hcredited
  obtain ⟨_, hbalances, -⟩ := hcredited
  let utxos := insertOutputs last.utxos
    (rewardOutputsForBlock (block.redate timestampMs) (ledger.burnCommitteeForBlock block))
  refine ⟨{ effects with state := { last with utxos := utxos } },
    stageBlock_eq_ok.mpr ⟨seen, middle, last, domain, {
      transactionV2Domain := h.transactionV2Domain
      transactions := h.transactions
      envelopes := h.envelopes
      reward := h.reward
      tickets := h.tickets
      credited := ?_
      lineage := rfl }⟩⟩
  rw [burnCommitteeForBlock_redate mode]
  simp only [creditRewardOutputs, Outcome.bind_eq_ok, Outcome.pure_eq_ok]
  exact ⟨(), by rw [rewardOutputs_redate]; exact hbalances, rfl⟩

/-- The refresh of empty pools succeeds. -/
lemma refreshPools_empty {domain : TransactionV2Domain} (minedSignatures : List Str)
    (hdomain : ledger.transactionV2Domain = .ok domain) :
    ∃ pools, ledger.refreshPools minedSignatures .empty = .ok () pools := by
  have hcounters : refreshPendingPoolByteCounters Pools.empty = .ok () Pools.empty := rfl
  have hpromote : ledger.promoteOrphanTransactions .empty = .ok () .empty := rfl
  obtain ⟨pools, hrevalidate⟩ : ∃ pools, ledger.revalidatePendingV2 .empty = .ok () pools := by
    unfold revalidatePendingV2
    dsimp only
    split
    · exact ⟨_, rfl⟩
    · rw [hdomain]
      exact ⟨_, rfl⟩
  refine ⟨pools, ?_⟩
  simp only [refreshPools, Mutate.bind_eq_ok]
  exact ⟨(), .empty, rfl, (), .empty, hcounters, (), .empty, hpromote, hrevalidate⟩

/-- The checks, the staging and the refresh of the pools are all that an application needs. -/
lemma applyBlockAt_of {nowMs : ℕ} {effects : BlockEffects} {context : CompactBlockContext}
    {pools : Pools} (isNew : ledger.precheckBlockWithoutVdfAt block nowMs = .ok true)
    (verified : verifyVdf block.vdfSeed block.vdfRounds block.vdfOutput = true)
    (staged : ledger.stageBlock block = .ok effects)
    (appended : ledger.compactBlockContext.appendBlock block = .ok context)
    (refreshed : (ledger.recordBlock block effects context).refreshPools
      (block.transactions.map Transaction.signature)
      (ledger.recordBlock block effects context).toPools = .ok () pools) :
    ∃ ledger', applyBlockAt block nowMs ledger = .ok () ledger' := by
  let recorded := (ledger.recordBlock block effects context).withPools pools
  refine ⟨{ recorded with vdfRounds := recorded.nextVdfRoundsAfterTip }, ?_⟩
  unfold applyBlockAt applyBlockWithVdfPolicy
  simp only [Mutate.get_bind_eq_ok, Mutate.liftM_eq_lift, Mutate.lift_bind_eq_ok]
  refine ⟨true, isNew, ?_⟩
  rw [if_pos rfl]
  simp only [Mutate.lift_bind_eq_ok, Mutate.set_bind_eq_ok, Mutate.get_bind_eq_ok,
    Outcome.bailIf_eq_ok]
  refine ⟨(), by simp [verified], effects, staged, context, appended, ?_⟩
  rw [Mutate.bind_eq_ok]
  exact ⟨(), _, Mutate.zoom_eq_ok.mpr ⟨pools, refreshed, rfl⟩, rfl⟩

/-! ## Altered blocks -/

omit [Crypto] in
lemma withRepresentative_withPools (pools : Pools) :
    (ledger.withPools pools).withRepresentative = ledger.withRepresentative := by
  unfold withRepresentative representativeOwnerForLineageRoot
  rfl

omit [Crypto] in
lemma eligibleLineageCandidates_withPools (pools : Pools) :
    (ledger.withPools pools).eligibleLineageCandidates = ledger.eligibleLineageCandidates := by
  unfold eligibleLineageCandidates
  rfl

lemma drawCommittee_withPools (pools : Pools) (height : ℕ) (owners : List Str) (slots : List ℕ)
    (skippedOwners : List Str) (remaining : List LineageCommitteeCandidate) :
    (ledger.withPools pools).drawCommittee height owners slots skippedOwners remaining
      = ledger.drawCommittee height owners slots skippedOwners remaining := by
  induction slots generalizing skippedOwners remaining with
  | nil => rfl
  | cons slot slots ih =>
    have htip : (ledger.withPools pools).tip = ledger.tip := rfl
    simp only [drawCommittee, htip, withRepresentative_withPools, ih]

/-- The committee does not depend on the pools. -/
lemma burnCommitteeForBlock_withPools (pools : Pools) (block : Block) :
    (ledger.withPools pools).burnCommitteeForBlock block = ledger.burnCommitteeForBlock block := by
  unfold burnCommitteeForBlock burnCommitteeForTicketBlock lineageBurnCommitteeForHeight
  simp only [eligibleLineageCandidates_withPools, withRepresentative_withPools,
    drawCommittee_withPools]
  rfl

lemma validateBurnBundleSectionForBlock_withPools (pools : Pools) (block : Block) :
    (ledger.withPools pools).validateBurnBundleSectionForBlock block
      = ledger.validateBurnBundleSectionForBlock block := by
  have hsection : (ledger.withPools pools).checkSectionSignature = ledger.checkSectionSignature := by
    unfold checkSectionSignature
    rfl
  have hburn : (ledger.withPools pools).checkMaskedBurn = ledger.checkMaskedBurn := by
    unfold checkMaskedBurn
    rfl
  have hburnV2 : (ledger.withPools pools).checkMaskedBurnV2 = ledger.checkMaskedBurnV2 := by
    unfold checkMaskedBurnV2
    rfl
  have hdomain : (ledger.withPools pools).transactionV2Domain = ledger.transactionV2Domain := rfl
  unfold validateBurnBundleSectionForBlock
  rw [hsection, hburn, hburnV2, hdomain, burnCommitteeForBlock_withPools]

/-- The checks do not read the pools. -/
lemma Prechecked.withPools {nowMs : ℕ} (checked : ledger.Prechecked block nowMs) (pools : Pools) :
    (ledger.withPools pools).Prechecked block nowMs where
  height := checked.height
  prevHash := checked.prevHash
  hash := checked.hash
  rewardAddress := checked.rewardAddress
  noReplay := by
    have hreplays := checked.noReplay
    unfold ensureBlockTransactionsAreNotReplays at hreplays ⊢
    exact hreplays
  reward := checked.reward
  vdfRounds := by
    have hrounds := checked.vdfRounds
    unfold expectedVdfRoundsForBlock at hrounds ⊢
    exact hrounds
  timestamp := checked.timestamp
  transactionCount := checked.transactionCount
  v2Active := checked.v2Active
  size := checked.size
  anchorLimit := checked.anchorLimit
  hasBurn := checked.hasBurn
  feePolicy := checked.feePolicy
  burnBundleSection :=
    (validateBurnBundleSectionForBlock_withPools pools block).trans checked.burnBundleSection
  finalizer := by
    have hfinalizer := checked.finalizer
    unfold checkFinalizer at hfinalizer ⊢
    exact hfinalizer

lemma stageBlock_withPools (pools : Pools) :
    (ledger.withPools pools).stageBlock block = ledger.stageBlock block := by
  have htransaction : (ledger.withPools pools).applyBlockTransaction
      = ledger.applyBlockTransaction := by
    unfold applyBlockTransaction
    rfl
  have henvelope : (ledger.withPools pools).applyBlockEnvelope = ledger.applyBlockEnvelope := by
    unfold applyBlockEnvelope
    rfl
  have htickets : (ledger.withPools pools).ticketsAfterBlock = ledger.ticketsAfterBlock := by
    unfold ticketsAfterBlock
    rfl
  have hdomain : (ledger.withPools pools).transactionV2Domain = ledger.transactionV2Domain := rfl
  unfold stageBlock
  rw [htransaction, henvelope, htickets, hdomain, burnCommitteeForBlock_withPools]
  rfl

omit [Crypto] in
lemma OpenTimestamp.withPools (isOpen : ledger.OpenTimestamp block timestampMs) (pools : Pools) :
    (ledger.withPools pools).OpenTimestamp block timestampMs :=
  ⟨isOpen.other, isOpen.increases, isOpen.median, isOpen.slot, isOpen.fits, isOpen.width⟩

/-- A node with this chain, whatever its pools are, accepts the block as its next one. -/
def AcceptedChild (ledger : Ledger) (block : Block) : Prop :=
  ∃ pools nowMs ledger',
    (ledger.withPools pools).precheckBlockWithoutVdfAt block nowMs = .ok true ∧
    applyBlockAt block nowMs (ledger.withPools pools) = .ok () ledger'

omit [Crypto] in
lemma withPools_self (ledger : Ledger) : ledger.withPools ledger.toPools = ledger := rfl

/-- No other block with the delay proof, the ticket and the signatures of the block is accepted in
its place.  The signatures are compared as bytes: who does not have the key can spell them in
another way, but not make new ones. -/
def Unaltered (ledger : Ledger) (block : Block) : Prop :=
  ∀ other : Block, ledger.AcceptedChild other → other.vdfOutput = block.vdfOutput →
    other.leaderProof.map LeaderProof.ticketId = block.leaderProof.map LeaderProof.ticketId →
    other.leaderProof.map (fun proof => (decodeHex proof.signature).toOption)
      = block.leaderProof.map (fun proof => (decodeHex proof.signature).toOption) →
    other.rewardAddressSignature.map (fun signature => (decodeHex signature).toOption)
      = block.rewardAddressSignature.map (fun signature => (decodeHex signature).toOption) →
    other = block

/-- The re-dated block is accepted wherever the block is. -/
theorem acceptedChild_redate (accepted : ledger.AcceptedChild block)
    (mode : block.finalizerMode = .ticket) (isOpen : ledger.OpenTimestamp block timestampMs) :
    ledger.AcceptedChild (block.redate timestampMs) := by
  obtain ⟨pools, nowMs, ledger', isNew, applied⟩ := accepted
  rcases applyBlockWithVdfPolicy_eq_ok applied with ⟨isKnown, -⟩ | h
  · rw [isNew] at isKnown
    cases isKnown
  · obtain ⟨effects, context, refreshed, -, verified, staged, appended, -, -⟩ := h
    have hchecked := ((precheck_eq_ok_true.mp isNew).withPools .empty).redate mode
      ((isOpen.withPools pools).withPools .empty)
    have hpools : (ledger.withPools pools).withPools .empty = ledger.withPools .empty := rfl
    rw [← stageBlock_withPools .empty, hpools] at staged
    rw [hpools] at hchecked
    obtain ⟨seen, middle, last, domain, hstages⟩ := stageBlock_eq_ok.mp staged
    obtain ⟨effects', hstaged⟩ := stageBlock_redate timestampMs mode staged
    obtain ⟨context', happended⟩ := appendBlock_redate timestampMs appended
    obtain ⟨hempty, hdomain⟩ := recordBlock_domain (ledger.withPools .empty) (block.redate timestampMs)
      effects' context'
    rw [hstages.transactionV2Domain] at hdomain
    obtain ⟨pools', hrefreshed⟩ := refreshPools_empty
      ((block.redate timestampMs).transactions.map Transaction.signature) hdomain
    rw [withPools_toPools] at hempty
    have hverified := verified rfl
    rw [← vdfSeed_redate timestampMs mode] at hverified
    obtain ⟨applied', hcommit⟩ := applyBlockAt_of (precheck_eq_ok_true.mpr hchecked) hverified
      hstaged happended (by rw [hempty]; exact hrefreshed)
    exact ⟨.empty, timestampMs, applied', precheck_eq_ok_true.mpr hchecked, hcommit⟩

/-- The next millisecond is open to an accepted ticket block, if it is a `u64` of no greater
width. -/
lemma openTimestamp_succ (accepted : ledger.AcceptedChild block)
    (mode : block.finalizerMode = .ticket) (fits : block.timestampMs < u64Max)
    (width : (varint (block.timestampMs + 1)).length ≤ (varint block.timestampMs).length) :
    ledger.OpenTimestamp block (block.timestampMs + 1) := by
  obtain ⟨pools, nowMs, ledger', isNew, -⟩ := accepted
  have htime : ledger.checkTimestamp block nowMs = .ok () :=
    (precheck_eq_ok_true.mp isNew).timestamp
  unfold checkTimestamp at htime
  rw [mode, if_pos rfl] at htime
  simp only [Outcome.bind_eq_ok, Outcome.bailIf_eq_ok] at htime
  obtain ⟨_, hincreases, minTimestamp, hslot, hrest⟩ := htime
  split at hrest
  · simp [bind, Except.bind] at hrest
  simp only [Outcome.bind_eq_ok, Outcome.bailIf_eq_ok] at hrest
  obtain ⟨_, hmedian, -⟩ := hrest
  exact {
    other := by omega
    increases := by omega
    median := by omega
    slot := ⟨minTimestamp, hslot, by omega⟩
    fits := by omega
    width := width }

/-- Two timestamps make two blocks. -/
lemma OpenTimestamp.not_unaltered (isOpen : ledger.OpenTimestamp block timestampMs)
    (redated : ledger.AcceptedChild (block.redate timestampMs)) : ¬ ledger.Unaltered block := by
  intro unaltered
  have hsame := unaltered (block.redate timestampMs) redated rfl rfl rfl rfl
  exact isOpen.other (congrArg Block.timestampMs hsame)

/-- **Nothing holds the timestamp.** An accepted ticket block to which another timestamp is open is
not the only one with its delay proof and its signatures. -/
theorem redated_block_accepted (accepted : ledger.AcceptedChild block)
    (mode : block.finalizerMode = .ticket) (isOpen : ledger.OpenTimestamp block timestampMs) :
    ¬ ledger.Unaltered block :=
  isOpen.not_unaltered (acceptedChild_redate accepted mode isOpen)

end Ledger

end Iuna

/-! ## A ticket block -/

namespace Iuna.Toy

attribute [local instance] crypto

/-- The owner finalizes the next block with a bootstrap ticket. -/
def ticketBlock : Block :=
  let height := genesis.tip.height + 1
  let block : Block :=
    { height := height
      prevHash := genesis.tip.hash
      timestampMs := 1000
      miner := owner
      rewardAddress := none
      rewardAddressSignature := none
      finalizerMode := .ticket
      finalizerRank := 0
      reward := 1
      vdfRounds := genesis.vdfRounds
      vdfOutput := vdfSolutionPlaceholder
      leaderProof := (genesis.ticketForFinalizerRank height 0).map fun ticket =>
        { ticketId := ticket.id
          publicKey := owner
          signature := hexEncode (sign ownerKey (utf8 (leaderProofPayload height genesis.tip.hash 0
            vdfSolutionPlaceholder ticket.id ticket.amount ticket.owner))).val }
      burnBundleSection := .default
      transactions := [burnAllocation microIuna 1]
      transactionsV2 := []
      hash := [] }
  { block with hash := block.computeHash }

set_option maxRecDepth 10000 in
lemma ticketBlock_isOk :
    ((genesis.precheckBlockWithoutVdfAt ticketBlock 1000).toOption = some true ∧
      (Mutate.outcome (Ledger.applyBlockAt ticketBlock 1000) genesis).isOk = true) := by
  decide +kernel

lemma ticketBlock_accepted : genesis.AcceptedChild ticketBlock := by
  obtain ⟨hnew, happlied⟩ := ticketBlock_isOk
  obtain ⟨⟨u, next⟩, hok⟩ :
      ∃ value, Mutate.outcome (Ledger.applyBlockAt ticketBlock 1000) genesis = .ok value :=
    ⟨_, Outcome.eq_ok_value _ happlied⟩
  refine ⟨genesis.toPools, 1000, next, ?_⟩
  rw [Ledger.withPools_self]
  refine ⟨?_, Mutate.outcome_eq_ok.mp hok⟩
  cases hprecheck : genesis.precheckBlockWithoutVdfAt ticketBlock 1000 with
  | error failure =>
    rw [hprecheck] at hnew
    cases hnew
  | ok isNew =>
    rw [hprecheck] at hnew
    exact congrArg Except.ok (Option.some.inj hnew)

def buildTicketBlock (_ : Ledger) : Block := ticketBlock

set_option maxRecDepth 10000 in
lemma ticketAccepted_isOk : (Ledger.acceptEach [buildTicketBlock] genesis).isOk = true := by
  decide +kernel

def ticketLedger : Ledger :=
  (Outcome.value (Ledger.acceptEach [buildTicketBlock] genesis) ticketAccepted_isOk).2

lemma buildTicketBlock_eq (ledger : Ledger) : buildTicketBlock ledger = ticketBlock := by
  unfold buildTicketBlock
  rfl

lemma ticketBlock_step : Ledger.Step genesis (.accepted ticketBlock) ticketLedger := by
  have hstep := Ledger.step_of_acceptEach (Outcome.eq_ok_value _ ticketAccepted_isOk)
  rw [buildTicketBlock_eq] at hstep
  rw [ticketLedger]
  exact hstep

lemma ticketBlock_mode : ticketBlock.finalizerMode = .ticket := by
  unfold ticketBlock
  rfl

lemma ticketBlock_timestamp : ticketBlock.timestampMs = 1000 := by
  unfold ticketBlock
  rfl

lemma ticketBlock_open : genesis.OpenTimestamp ticketBlock (ticketBlock.timestampMs + 1) := by
  refine Ledger.openTimestamp_succ ticketBlock_accepted ticketBlock_mode ?_ ?_
  · rw [ticketBlock_timestamp]
    decide
  · rw [ticketBlock_timestamp]
    decide

/-- The ticket block can be re-dated by a millisecond. -/
theorem redated_block_accepted_ticket : ¬ genesis.Unaltered ticketBlock :=
  Ledger.redated_block_accepted ticketBlock_accepted ticketBlock_mode ticketBlock_open

/-- **A re-dated block.** The next millisecond makes another block of the ticket block, which the
same node accepts, with every proof and signature as it was. -/
theorem ticketBlock_redated :
    Ledger.Reachable genesis ∧ genesis.AcceptedChild ticketBlock
      ∧ ticketBlock.finalizerMode = .ticket
      ∧ genesis.AcceptedChild (ticketBlock.redate (ticketBlock.timestampMs + 1))
      ∧ ¬ genesis.Unaltered ticketBlock := by
  have hredated := Ledger.acceptedChild_redate ticketBlock_accepted ticketBlock_mode
    ticketBlock_open
  refine ⟨genesis_reachable, ticketBlock_accepted, ticketBlock_mode, hredated,
    ticketBlock_open.not_unaltered hredated⟩

end Iuna.Toy
