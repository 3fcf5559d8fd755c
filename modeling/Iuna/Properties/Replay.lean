import Iuna.Properties.Launch
import Iuna.Properties.Supply
import Mathlib.Data.List.Chain

/-!
# Trusted replay

A node that restarts rebuilds its ledger from the blocks it has validated before, by a path that
verifies nothing (`applyTrustedBlockAt`).  This module shows that the path leads to the same
derived state.  Both paths stage the same effects (`stageTrustedBlock_of_stageBlock`) and make the
same commit; what a commit reads of a ledger is little (`SameView`), and a running ledger that has
dropped old blocks still agrees on it with the replayed one, which has them all (`Mirrored`).

The ledger of a launch without allocations is not rebuilt: its size context starts empty, while a
restored one has seen the genesis block.
-/

namespace Iuna

namespace Ledger

open Runs

/-! ## What block application reads -/

/-- Two ledgers that agree on what the effects of a block depend on. -/
structure SameView (ledger replayed : Ledger) : Prop where
  lineageState : ledger.toLineageState = replayed.toLineageState
  hybridLegacyOwners : ledger.hybridLegacyOwners = replayed.hybridLegacyOwners
  tickets : ledger.tickets = replayed.tickets
  launchProfile : ledger.launchProfile = replayed.launchProfile
  genesis : ledger.genesis = replayed.genesis
  tip : ledger.tip = replayed.tip

section Congruence

variable {ledger replayed : Ledger} (same : SameView ledger replayed)

include same

lemma SameView.lineageValues : ledger.lineageValues = replayed.lineageValues :=
  congrArg LineageState.lineageValues same.lineageState

lemma SameView.lineageOwners : ledger.lineageOwners = replayed.lineageOwners :=
  congrArg LineageState.lineageOwners same.lineageState

lemma SameView.network : ledger.network = replayed.network := by
  rw [Ledger.network, Ledger.network, same.launchProfile]

lemma SameView.committeeIdentityForLineageOwner :
    ledger.committeeIdentityForLineageOwner = replayed.committeeIdentityForLineageOwner := by
  funext owner
  rw [Ledger.committeeIdentityForLineageOwner, Ledger.committeeIdentityForLineageOwner, same.tip,
    same.hybridLegacyOwners]

lemma SameView.lineageRootHasOwner :
    ledger.lineageRootHasOwner = replayed.lineageRootHasOwner := by
  funext root owner
  rw [Ledger.lineageRootHasOwner, Ledger.lineageRootHasOwner, same.lineageOwners,
    same.committeeIdentityForLineageOwner]

lemma SameView.eligibleLineageCandidates :
    ledger.eligibleLineageCandidates = replayed.eligibleLineageCandidates := by
  funext skippedOwners
  rw [Ledger.eligibleLineageCandidates, Ledger.eligibleLineageCandidates, same.lineageValues,
    same.lineageRootHasOwner, same.launchProfile, same.tip]

lemma SameView.withRepresentative :
    ledger.withRepresentative = replayed.withRepresentative := by
  funext skippedOwners eligibleTicketOwners candidate
  rw [Ledger.withRepresentative, Ledger.withRepresentative, representativeOwnerForLineageRoot,
    representativeOwnerForLineageRoot, same.lineageOwners, same.committeeIdentityForLineageOwner]

variable [Crypto]

lemma SameView.drawCommittee (height : ℕ) (eligibleTicketOwners : List Str) (slots : List ℕ)
    (skippedOwners : List Str) (remaining : List LineageCommitteeCandidate) :
    ledger.drawCommittee height eligibleTicketOwners slots skippedOwners remaining
      = replayed.drawCommittee height eligibleTicketOwners slots skippedOwners remaining := by
  induction slots generalizing skippedOwners remaining with
  | nil => rfl
  | cons slot slots ih =>
    rw [Ledger.drawCommittee, Ledger.drawCommittee, same.tip, same.withRepresentative]
    split
    · rfl
    · simp only [ih]

lemma SameView.burnCommitteeForBlock (block : Block) :
    ledger.burnCommitteeForBlock block = replayed.burnCommitteeForBlock block := by
  unfold Ledger.burnCommitteeForBlock burnCommitteeForTicketBlock lineageBurnCommitteeForHeight
  rw [same.tip, same.tickets, same.eligibleLineageCandidates, same.withRepresentative]
  simp only [same.drawCommittee]

lemma SameView.certifiedParent (block : Block) :
    ledger.certifiedParent block = replayed.certifiedParent block := by
  rw [Ledger.certifiedParent, Ledger.certifiedParent, same.burnCommitteeForBlock, same.tip]

/-- The effects of a trusted block depend on the view alone. -/
lemma SameView.stageTrustedBlock (block : Block) :
    ledger.stageTrustedBlock block = replayed.stageTrustedBlock block := by
  have henvelope (domain : TransactionV2Domain) :
      ledger.applyTrustedEnvelope domain = replayed.applyTrustedEnvelope domain := by
    funext state envelope
    rw [applyTrustedEnvelope, applyTrustedEnvelope, same.network]
  rw [Ledger.stageTrustedBlock, Ledger.stageTrustedBlock, same.lineageState,
    transactionV2Domain_congr same.genesis same.launchProfile, same.hybridLegacyOwners,
    ticketsAfterBlock, ticketsAfterBlock, same.tip, same.tickets, same.launchProfile,
    same.burnCommitteeForBlock]
  simp only [henvelope]

end Congruence

/-! ## The effects of a validated block -/

section Staging

variable [Crypto]

/-- What is applied with its authorizations verified is applied without. -/
lemma applyTransactionV2WithLineage_trusted {transaction : TransactionV2}
    {domain : TransactionV2Domain} {network : AddressNetwork} {state state' : LineageState}
    {u : Unit}
    (h : applyTransactionV2WithLineage transaction domain network true state = .ok u state') :
    applyTransactionV2WithLineage transaction domain network false state = .ok u state' := by
  obtain ⟨spent, utxos, root, untagged, hspent, happlied, hinherit, h⟩ :=
    applyTransactionV2WithLineage_eq_ok.mp h
  obtain ⟨total, middle, id, hspend, htotal, hle, -, hid, hcreate⟩ :=
    applyTransactionV2ToUtxosWithPolicy_eq_ok.mp happlied
  exact applyTransactionV2WithLineage_eq_ok.mpr ⟨spent, utxos, root, untagged, hspent,
    applyTransactionV2ToUtxosWithPolicy_eq_ok.mpr
      ⟨total, middle, id, hspend, htotal, hle, nofun, hid, hcreate⟩, hinherit, h⟩

/-- **Staging.** The effects of a validated block are those of the trusted path. -/
theorem stageTrustedBlock_of_stageBlock {ledger : Ledger} {block : Block} {effects : BlockEffects}
    (h : ledger.stageBlock block = .ok effects) : ledger.stageTrustedBlock block = .ok effects := by
  obtain ⟨seen, middle, last, domain, staged⟩ := stageBlock_eq_ok.mp h
  have htransactions : (forM block.transactions fun transaction =>
      applyTransactionWithLineage transaction block.height none) ledger.toLineageState
        = .ok ⟨⟩ middle := by
    refine Mutate.forM_run.mpr ?_
    have hrun := staged.transactions
    generalize hstart : (([], ledger.toLineageState) : List Str × LineageState) = start at hrun
    generalize hfinish : (seen, middle) = finish at hrun
    rw [show ledger.toLineageState = start.2 by rw [← hstart],
      show middle = finish.2 by rw [← hfinish]]
    clear hstart hfinish
    generalize block.transactions = transactions at hrun
    induction hrun with
    | nil => exact .nil _
    | cons head _ ih =>
      obtain ⟨-, -, -, happlied, -⟩ := applyBlockTransaction_eq_ok.mp head
      obtain ⟨-, hrest⟩ := applyTransactionWithLineage_eq_ok.mp happlied
      exact .cons (applyTransactionWithLineage_eq_ok.mpr ⟨by simp, hrest⟩) ih
  have henvelopes : (block.transactionsV2.foldlM (ledger.applyTrustedEnvelope domain)
      { bindings := ledger.hybridLegacyOwners, transactionV2Ids := [] }) middle
        = .ok effects.envelopes last := by
    refine Mutate.foldlM_run.mpr (staged.envelopes.mono fun before envelope after hround => ?_)
    obtain ⟨transaction, id, bindings, hdecode, -, -, hid, -, happlied, hbindings, hafter⟩ :=
      applyBlockEnvelope_eq_ok.mp hround
    simp only [applyTrustedEnvelope, Mutate.liftM_eq_lift, Mutate.lift_bind_eq_ok]
    refine ⟨transaction, hdecode, id, hid, Mutate.bind_eq_ok.mpr
      ⟨⟨⟩, _, applyTransactionV2WithLineage_trusted happlied, ?_⟩⟩
    exact Mutate.lift_bind_eq_ok.mpr ⟨bindings, hbindings,
      Mutate.pure_eq_ok.mpr ⟨hafter.symm, rfl⟩⟩
  simp only [stageTrustedBlock, Outcome.bind_eq_ok, Outcome.pure_eq_ok, Mutate.outcome_eq_ok,
    Prod.exists]
  obtain ⟨state, envelopes, tickets⟩ := effects
  exact ⟨⟨⟩, middle, htransactions, domain, staged.transactionV2Domain, envelopes, last,
    henvelopes, tickets, staged.tickets, state.utxos, staged.credited, by rw [← staged.lineage]⟩

end Staging

/-! ## The commit -/

lemma recordVdfRetargetObservation_congr {ledger replayed : Ledger} (block : Block)
    (tip : ledger.tip = replayed.tip)
    (observations : ledger.vdfRetargetObservations = replayed.vdfRetargetObservations) :
    (ledger.recordVdfRetargetObservation block).vdfRetargetObservations
      = (replayed.recordVdfRetargetObservation block).vdfRetargetObservations := by
  unfold recordVdfRetargetObservation
  rw [tip, observations]
  split
  · exact observations
  · split
    · exact observations
    · rfl

/-- The blocks of a difficulty window, newest first. -/
def recentBlocks (ledger : Ledger) : List Block :=
  ledger.chain.reverse.take mineRetargetWindowBlocks

lemma updateMineDifficultyCacheAfterTip_congr {ledger replayed : Ledger}
    (tip : ledger.tip = replayed.tip) (recent : ledger.recentBlocks = replayed.recentBlocks)
    (windows : ledger.mineDifficultyWindows = replayed.mineDifficultyWindows)
    (launchProfile : ledger.launchProfile = replayed.launchProfile) :
    ledger.updateMineDifficultyCacheAfterTip.mineDifficultyWindows
      = replayed.updateMineDifficultyCacheAfterTip.mineDifficultyWindows := by
  unfold recentBlocks at recent
  unfold updateMineDifficultyCacheAfterTip
  dsimp only
  rw [tip, recent, windows, launchProfile]
  split
  · exact windows
  · split
    · exact windows
    · rfl

section Recorded

variable [Crypto] (ledger : Ledger) (block : Block) (effects : BlockEffects)
  (compactBlockContext : CompactBlockContext)

/-- The last three acts of a commit, on a ledger that the first ones have left alone where the last
ones read it. -/
lemma recordBlock_steps : ∃ committed : Ledger,
    committed.chain = ledger.chain ∧
    committed.launchProfile = ledger.launchProfile ∧
    committed.vdfRetargetObservations = ledger.vdfRetargetObservations ∧
    committed.mineDifficultyWindows = ledger.mineDifficultyWindows ∧
    committed.objectiveFinalityCheckpoint = ledger.objectiveFinalityCheckpoint ∧
    ledger.recordBlock block effects compactBlockContext =
      let pushed := ((committed.recordVdfRetargetObservation block).pushBlock
        block).updateMineDifficultyCacheAfterTip
      match ledger.certifiedParent block with
      | some checkpoint => { pushed with objectiveFinalityCheckpoint := some checkpoint }
      | none => pushed := by
  refine ⟨_, ?_, ?_, ?_, ?_, ?_, rfl⟩
  all_goals
    unfold recordTicketDraw
    split <;> rfl

lemma recordBlock_vdfRetargetObservations :
    (ledger.recordBlock block effects compactBlockContext).vdfRetargetObservations
      = (ledger.recordVdfRetargetObservation block).vdfRetargetObservations := by
  obtain ⟨committed, hchain, -, hobservations, -, -, hrecord⟩ :=
    recordBlock_steps ledger block effects compactBlockContext
  have htip : committed.tip = ledger.tip := by simp only [Ledger.tip, hchain]
  rw [hrecord]
  obtain ⟨windows, hwindows⟩ := updateMineDifficultyCacheAfterTip_eq
    ((committed.recordVdfRetargetObservation block).pushBlock block)
  rw [hwindows]
  cases ledger.certifiedParent block <;>
    exact recordVdfRetargetObservation_congr block htip hobservations

lemma recordBlock_mineDifficultyWindows :
    (ledger.recordBlock block effects compactBlockContext).mineDifficultyWindows
      = (ledger.pushBlock block).updateMineDifficultyCacheAfterTip.mineDifficultyWindows := by
  obtain ⟨committed, hchain, hprofile, -, hwindows, -, hrecord⟩ :=
    recordBlock_steps ledger block effects compactBlockContext
  rw [hrecord]
  obtain ⟨observations, hobservations⟩ := recordVdfRetargetObservation_eq committed block
  rw [hobservations]
  have hrecent : ({ committed with vdfRetargetObservations := observations }.pushBlock
      block).recentBlocks = (ledger.pushBlock block).recentBlocks := by
    simp only [recentBlocks, pushBlock_chain, hchain]
  cases ledger.certifiedParent block <;>
    exact updateMineDifficultyCacheAfterTip_congr (by simp only [pushBlock_tip]) hrecent hwindows
      hprofile

lemma recordBlock_objectiveFinalityCheckpoint :
    (ledger.recordBlock block effects compactBlockContext).objectiveFinalityCheckpoint
      = (ledger.certifiedParent block).or ledger.objectiveFinalityCheckpoint := by
  obtain ⟨committed, -, -, -, -, hcheckpoint, hrecord⟩ :=
    recordBlock_steps ledger block effects compactBlockContext
  rw [hrecord]
  obtain ⟨observations, hobservations⟩ := recordVdfRetargetObservation_eq committed block
  rw [hobservations]
  obtain ⟨windows, hwindows⟩ := updateMineDifficultyCacheAfterTip_eq
    ({ committed with vdfRetargetObservations := observations }.pushBlock block)
  rw [hwindows]
  cases ledger.certifiedParent block with
  | none => exact hcheckpoint
  | some checkpoint => rfl

end Recorded

/-! ## Retargeting without observations

The rounds of the next block follow the recorded observations.  Where nothing was recorded the
code looks for observations in the chain in memory, of which a running ledger may have dropped a
part; but then there is none in the whole chain.
-/

/-- No block of a chain is observed by the retargeting. -/
def Unobserved (chain : List Block) : Prop :=
  chain.IsChain fun parent child =>
    0 < parent.height → vdfRetargetObservedBlockMs parent child = none

lemma mem_zip_tail_of_isChain {α : Type} {R : α → α → Prop} {xs : List α} (h : xs.IsChain R) :
    ∀ pair ∈ xs.zip xs.tail, R pair.1 pair.2 := by
  induction h with
  | nil => simp
  | singleton => simp
  | cons_cons hxy _ ih =>
    simp only [List.tail_cons, List.zip_cons_cons, List.forall_mem_cons]
    exact ⟨hxy, ih⟩

lemma Unobserved.average {chain : List Block} (h : Unobserved chain) :
    recentVdfRetargetAverageObservedBlockMs chain = none := by
  have hnone : (((chain.zip chain.tail).reverse.filter fun pair => 0 < pair.1.height).filterMap
      fun pair => vdfRetargetObservedBlockMs pair.1 pair.2) = [] := by
    rw [List.filterMap_eq_nil_iff]
    intro pair hpair
    obtain ⟨hmem, hheight⟩ := List.mem_filter.mp hpair
    exact mem_zip_tail_of_isChain h pair (List.mem_reverse.mp hmem) (by simpa using hheight)
  unfold recentVdfRetargetAverageObservedBlockMs
  dsimp only
  rw [hnone]
  rfl

/-- A block that leaves no observation extends a chain without one. -/
lemma Unobserved.push {ledger : Ledger} {block : Block} (prior : ledger.vdfRetargetObservations = []
      → Unobserved ledger.chain)
    (h : (ledger.recordVdfRetargetObservation block).vdfRetargetObservations = []) :
    Unobserved (ledger.chain ++ [block]) := by
  have hobserved : ledger.vdfRetargetObservations = []
      ∧ (0 < ledger.tip.height → vdfRetargetObservedBlockMs ledger.tip block = none) := by
    unfold recordVdfRetargetObservation at h
    split at h
    · rename_i hzero
      exact ⟨h, fun hpositive => absurd hpositive (by omega)⟩
    · split at h
      · rename_i hnone
        exact ⟨h, fun _ => hnone⟩
      · exfalso
        have hlength := congrArg List.length h
        simp only [List.length_drop, List.length_append, List.length_singleton,
          List.length_nil] at hlength
        unfold vdfRetargetWindowBlocks at hlength
        omega
  refine List.isChain_append.mpr ⟨prior hobserved.1, .singleton block, ?_⟩
  intro parent hparent child hchild
  obtain rfl : child = block := by simpa using hchild.symm
  rw [List.getLast?_eq_some_getLast ledger.chainNonempty, Option.mem_def,
    Option.some.injEq] at hparent
  rw [← hparent]
  exact hobserved.2

/-- Dropping old blocks leaves a chain without observations. -/
lemma Unobserved.retain {ledger : Ledger} (recentLimit : ℕ) (h : Unobserved ledger.chain)
    (genesisHeight : ledger.genesis.height = 0) :
    Unobserved (ledger.retainRecentChainBlocks recentLimit).chain := by
  unfold retainRecentChainBlocks
  dsimp only
  split
  · exact h
  · refine List.isChain_cons.mpr ⟨fun child _ hpositive => ?_, List.IsChain.drop h _⟩
    rw [genesisHeight] at hpositive
    exact absurd hpositive (by omega)

/-! ## Mirrored ledgers -/

/-- The derived state of two ledgers is the same. -/
structure SameDerived (ledger replayed : Ledger) : Prop where
  lineageState : ledger.toLineageState = replayed.toLineageState
  hybridLegacyOwners : ledger.hybridLegacyOwners = replayed.hybridLegacyOwners
  tickets : ledger.tickets = replayed.tickets
  minedTransactionIds : ledger.minedTransactionIds = replayed.minedTransactionIds
  mineDifficultyWindows : ledger.mineDifficultyWindows = replayed.mineDifficultyWindows
  vdfRounds : ledger.vdfRounds = replayed.vdfRounds
  vdfRetargetObservations : ledger.vdfRetargetObservations = replayed.vdfRetargetObservations
  objectiveFinalityCheckpoint :
    ledger.objectiveFinalityCheckpoint = replayed.objectiveFinalityCheckpoint
  compactBlockContext : ledger.compactBlockContext = replayed.compactBlockContext

/-- A running ledger and a replayed one: the derived state is the same, and so is what the next
block reads of the two chains. -/
structure Mirrored (ledger replayed : Ledger) : Prop extends SameDerived ledger replayed where
  launchProfile : ledger.launchProfile = replayed.launchProfile
  genesis : ledger.genesis = replayed.genesis
  genesisHeight : ledger.genesis.height = 0
  tip : ledger.tip = replayed.tip
  recentBlocks : ledger.recentBlocks = replayed.recentBlocks
  unobserved : ledger.vdfRetargetObservations = [] →
    Unobserved ledger.chain ∧ Unobserved replayed.chain

lemma Mirrored.view {ledger replayed : Ledger} (mirrored : Mirrored ledger replayed) :
    SameView ledger replayed :=
  ⟨mirrored.lineageState, mirrored.hybridLegacyOwners, mirrored.tickets, mirrored.launchProfile,
    mirrored.genesis, mirrored.tip⟩

lemma Mirrored.nextVdfRoundsAfterTip {ledger replayed : Ledger}
    (mirrored : Mirrored ledger replayed) :
    ledger.nextVdfRoundsAfterTip = replayed.nextVdfRoundsAfterTip := by
  unfold Ledger.nextVdfRoundsAfterTip
  rw [← mirrored.tip, ← mirrored.vdfRounds, ← mirrored.vdfRetargetObservations]
  by_cases hempty : ledger.vdfRetargetObservations = []
  · obtain ⟨hledger, hreplayed⟩ := mirrored.unobserved hempty
    rw [hledger.average, hreplayed.average]
  · simp only [if_neg hempty]

lemma recentBlocks_push (ledger : Ledger) (block : Block) :
    (ledger.pushBlock block).recentBlocks
      = block :: ledger.recentBlocks.take (mineRetargetWindowBlocks - 1) := by
  simp [recentBlocks, mineRetargetWindowBlocks, List.take_take]

/-- A ledger that keeps at least a window of blocks keeps the recent ones. -/
lemma recentBlocks_retain (ledger : Ledger) {recentLimit : ℕ}
    (window : mineRetargetWindowBlocks ≤ recentLimit) :
    (ledger.retainRecentChainBlocks recentLimit).recentBlocks = ledger.recentBlocks := by
  unfold retainRecentChainBlocks
  dsimp only
  split
  · rfl
  · rename_i hlong
    unfold recentBlocks
    dsimp only
    unfold mineRetargetWindowBlocks at window ⊢
    rw [List.reverse_cons, List.take_append_of_le_length (by
      rw [List.length_reverse, List.length_drop]
      omega), List.reverse_drop, List.take_take]
    congr 1
    omega

variable [Crypto]

/-- The commit of a block keeps ledgers mirrored. -/
lemma Mirrored.recordBlock {ledger replayed : Ledger} (mirrored : Mirrored ledger replayed)
    (block : Block) (effects : BlockEffects) (context : CompactBlockContext) :
    Mirrored (ledger.recordBlock block effects context)
      (replayed.recordBlock block effects context) := by
  have hobservations := recordVdfRetargetObservation_congr block mirrored.tip
    mirrored.vdfRetargetObservations
  have hrecent : (ledger.pushBlock block).recentBlocks = (replayed.pushBlock block).recentBlocks := by
    rw [recentBlocks_push, recentBlocks_push, mirrored.recentBlocks]
  have hwindows := updateMineDifficultyCacheAfterTip_congr
    ((ledger.pushBlock_tip block).trans (replayed.pushBlock_tip block).symm) hrecent
    mirrored.mineDifficultyWindows mirrored.launchProfile
  have hchain (l : Ledger) : (l.recordBlock block effects context).chain = l.chain ++ [block]
      ∧ (l.recordBlock block effects context).toLineageState = effects.state
      ∧ (l.recordBlock block effects context).hybridLegacyOwners = effects.envelopes.bindings
      ∧ (l.recordBlock block effects context).tickets = effects.tickets
      ∧ (l.recordBlock block effects context).compactBlockContext = context
      ∧ (l.recordBlock block effects context).launchProfile = l.launchProfile
      ∧ (l.recordBlock block effects context).vdfRounds = l.vdfRounds
      ∧ (l.recordBlock block effects context).minedTransactionIds = insertIds (insertIds
          l.minedTransactionIds (block.transactions.map Transaction.signature))
          effects.envelopes.transactionV2Ids := by
    obtain ⟨_, _, _, _, h⟩ := recordBlock_eq l block effects context
    rw [h]
    exact ⟨rfl, rfl, rfl, rfl, rfl, rfl, rfl, rfl⟩
  obtain ⟨hc, hs, hb, ht, hx, hp, hv, hm⟩ := hchain ledger
  obtain ⟨hc', hs', hb', ht', hx', hp', hv', hm'⟩ := hchain replayed
  have hgenesis : (ledger.recordBlock block effects context).genesis = ledger.genesis := by
    simp only [Ledger.genesis, hc, List.head_append_of_ne_nil ledger.chainNonempty]
  refine { lineageState := hs.trans hs'.symm
           hybridLegacyOwners := hb.trans hb'.symm
           tickets := ht.trans ht'.symm
           minedTransactionIds := by rw [hm, hm', mirrored.minedTransactionIds]
           mineDifficultyWindows := ?_
           vdfRounds := by rw [hv, hv', mirrored.vdfRounds]
           vdfRetargetObservations := ?_
           objectiveFinalityCheckpoint := ?_
           compactBlockContext := hx.trans hx'.symm
           launchProfile := by rw [hp, hp', mirrored.launchProfile]
           genesis := ?_
           genesisHeight := by rw [hgenesis, mirrored.genesisHeight]
           tip := by simp only [Ledger.tip, hc, hc', List.getLast_concat]
           recentBlocks := ?_
           unobserved := ?_ }
  · rw [recordBlock_mineDifficultyWindows, recordBlock_mineDifficultyWindows, hwindows]
  · rw [recordBlock_vdfRetargetObservations, recordBlock_vdfRetargetObservations, hobservations]
  · rw [recordBlock_objectiveFinalityCheckpoint, recordBlock_objectiveFinalityCheckpoint,
      mirrored.view.certifiedParent, mirrored.objectiveFinalityCheckpoint]
  · rw [hgenesis, mirrored.genesis]
    simp only [Ledger.genesis, hc', List.head_append_of_ne_nil replayed.chainNonempty]
  · simpa only [Ledger.recentBlocks, pushBlock_chain, hc, hc'] using hrecent
  · intro hempty
    rw [recordBlock_vdfRetargetObservations] at hempty
    rw [hc, hc']
    refine ⟨Unobserved.push (fun h => (mirrored.unobserved h).1) hempty,
      Unobserved.push (fun h => (mirrored.unobserved ?_).2) (hobservations ▸ hempty)⟩
    rw [mirrored.vdfRetargetObservations, h]

/-- **One block.** The trusted path accepts what the validating path accepts, and leaves the
ledgers mirrored. -/
theorem Mirrored.step {ledger ledger' replayed : Ledger} {block : Block}
    (mirrored : Mirrored ledger replayed) (step : Step ledger (.accepted block) ledger') :
    ∃ replayed', replayed.applyTrustedBlockAt block = .ok replayed' ∧ Mirrored ledger' replayed' := by
  cases step with
  | accepted isNew applied =>
    rcases applyBlockWithVdfPolicy_eq_ok applied with ⟨isKnown, -⟩ | h
    · rw [isNew] at isKnown
      cases isKnown
    · obtain ⟨effects, context, pools, -, -, hstaged, hcontext, -, rfl⟩ := h
      have hrecorded := mirrored.recordBlock block effects context
      refine ⟨{ replayed.recordBlock block effects context with
        vdfRounds := (replayed.recordBlock block effects context).nextVdfRoundsAfterTip }, ?_, ?_⟩
      · simp only [applyTrustedBlockAt, Outcome.bind_eq_ok, Outcome.pure_eq_ok]
        refine ⟨effects, ?_, context, ?_, rfl⟩
        · rw [← mirrored.view.stageTrustedBlock]
          exact stageTrustedBlock_of_stageBlock hstaged
        · rw [← mirrored.compactBlockContext]
          exact hcontext
      · exact { hrecorded with vdfRounds := hrecorded.nextVdfRoundsAfterTip }

omit [Crypto] in
/-- Dropping old blocks keeps ledgers mirrored, as long as a window of blocks stays. -/
lemma Mirrored.retain {ledger replayed : Ledger} (mirrored : Mirrored ledger replayed)
    {recentLimit : ℕ} (window : mineRetargetWindowBlocks ≤ recentLimit) :
    Mirrored (ledger.retainRecentChainBlocks recentLimit) replayed := by
  have htip := retainRecentChainBlocks_tip ledger recentLimit
  have hgenesis := retainRecentChainBlocks_genesis ledger recentLimit
  have hrecent := recentBlocks_retain ledger window
  have hunobserved := fun h : ledger.vdfRetargetObservations = [] =>
    Unobserved.retain recentLimit (mirrored.unobserved h).1 mirrored.genesisHeight
  obtain ⟨_, _, _, h⟩ := retainRecentChainBlocks_eq ledger recentLimit
  rw [h] at htip hgenesis hrecent hunobserved ⊢
  exact { mirrored with
    genesis := hgenesis.trans mirrored.genesis
    genesisHeight := by rw [hgenesis, mirrored.genesisHeight]
    tip := htip.trans mirrored.tip
    recentBlocks := hrecent.trans mirrored.recentBlocks
    unobserved := fun h => ⟨hunobserved h, (mirrored.unobserved h).2⟩ }

/-! ## The genesis of a replay -/

/-- The ledgers of a genesis block that a snapshot rebuilds: all but those of a launch without
allocations. -/
inductive Restorable : Ledger → Prop
  | launch {genesisAllocations : BTreeMap Str Amount} {genesisTransactions : List Transaction}
      {vdfRounds : ℕ} {launchProfile : LaunchProfile} {ledger : Ledger}
      (allocated : genesisAllocations.isEmpty = false)
      (launched : newWithGenesisTransactions genesisAllocations genesisTransactions vdfRounds
        launchProfile = .ok ledger) : Restorable ledger
  | snapshot {snapshot : ChainSnapshot} {ledger : Ledger}
      (restored : genesisFromSnapshot snapshot = .ok ledger) : Restorable ledger

lemma Restorable.initial {ledger : Ledger} (restorable : Restorable ledger) : Initial ledger := by
  cases restorable with
  | launch _ launched => exact .launch launched
  | snapshot restored => exact .snapshot restored

/-- The snapshot of the chain that some blocks extend. -/
def snapshotWith (ledger : Ledger) (blocks : List Block) : ChainSnapshot :=
  { ledger.snapshot with blocks := ledger.chain ++ blocks }

/-- The ledger of a genesis block that knows how long the chain to be replayed is. -/
def withHorizon (ledger : Ledger) (horizon : ℕ) : Ledger :=
  { ledger with ticketDrawHorizon := horizon }

omit [Crypto] in
/-- The finalizer of a genesis block has an allocation. -/
lemma genesisMiner_mem {genesisAllocations : BTreeMap Str Amount} (transactions : List Transaction)
    (allocated : genesisAllocations.isEmpty = false) :
    genesisMiner genesisAllocations transactions ∈ genesisAllocations := by
  unfold genesisMiner
  dsimp only
  split
  · rename_i owner howner
    simpa using List.find?_some howner
  · cases hkeys : genesisAllocations.keys with
    | nil =>
      rw [← Std.ExtTreeMap.isEmpty_keys, hkeys] at allocated
      cases allocated
    | cons address addresses =>
      rw [← Std.ExtTreeMap.mem_keys, hkeys]
      simp

/-- The genesis block of valid allocations passes the checks of a snapshot. -/
lemma validateGenesisBlock_build {genesisAllocations : BTreeMap Str Amount}
    (transactions : List Transaction)
    (valid : validateGenesisAllocations genesisAllocations = .ok ()) :
    validateGenesisBlock (buildGenesisBlock genesisAllocations transactions) = .ok () := by
  have hplaceholder : ¬ (genesisMiner genesisAllocations transactions = str "genesis"
      ∧ genesisReward genesisAllocations transactions ≠ 0) := by
    rintro ⟨hminer, hreward⟩
    have hallocated : genesisAllocations.isEmpty = false := by
      by_contra hempty
      refine hreward (if_pos (.inl ?_))
      simpa using hempty
    have hmem := genesisMiner_mem transactions hallocated
    rw [hminer] at hmem
    rw [validateGenesisAllocations, Outcome.forM_eq_ok] at valid
    have haddress := valid _ (Std.ExtTreeMap.mem_keys.mpr hmem)
    simp only [validateAddress, Outcome.bind_eq_ok] at haddress
    obtain ⟨_, hdecode, -⟩ := haddress
    obtain ⟨bytes, hbytes, -⟩ := Outcome.bind_eq_ok.mp (Outcome.mapErr_eq_ok.mp hdecode)
    have hodd : byteLen (str "genesis") % 2 ≠ 0 := by decide
    simp [decodeHex, hodd] at hbytes
  simp only [validateGenesisBlock, Outcome.bind_eq_ok, Outcome.bailIf_eq_ok, not_not, exists_const]
  refine ⟨rfl, rfl, rfl, hplaceholder, ?_, rfl, by simp [buildGenesisBlock, unhashedGenesisBlock],
    ?_, rfl⟩
  · rintro ⟨-, hzero, hreward⟩
    simp only [buildGenesisBlock, unhashedGenesisBlock, genesisReward] at hzero hreward
    split at hzero
    · exact hzero rfl
    · simp_all
  · simp [buildGenesisBlock, unhashedGenesisBlock, BurnBundleSection.isEmpty,
      BurnBundleSection.default]

/-- A snapshot of the chain rebuilds the ledger of its genesis block. -/
lemma Restorable.genesisFromSnapshot {genesis : Ledger} (restorable : Restorable genesis)
    (blocks : List Block) :
    Ledger.genesisFromSnapshot (genesis.snapshotWith blocks) = .ok (genesis.withHorizon
      (((genesis.snapshotWith blocks).blocks.getLast?.map Block.height).getD 0)) := by
  cases restorable with
  | launch allocated launched =>
    simp only [newWithGenesisTransactions, Outcome.bind_eq_ok, allocated] at launched
    obtain ⟨_, hallocations, utxos, hutxos, tickets, htickets, launched⟩ := launched
    obtain ⟨context, hcontext, hledger⟩ := Outcome.bind_eq_ok.mp launched
    rw [Outcome.pure_eq_ok] at hledger
    subst hledger
    simp only [Ledger.genesisFromSnapshot, Outcome.bind_eq_ok, Outcome.pure_eq_ok,
      Outcome.bailIf_eq_ok, not_not]
    exact ⟨_, rfl, _, hallocations, _, validateGenesisBlock_build _ hallocations, ⟨⟩, rfl, utxos,
      hutxos, context, hcontext, tickets, htickets, rfl⟩
  | snapshot restored =>
    simp only [Ledger.genesisFromSnapshot, Outcome.bind_eq_ok, Outcome.pure_eq_ok,
      Outcome.bailIf_eq_ok, not_not] at restored
    obtain ⟨block, -, _, hallocations, _, hvalid, _, hgenesis, utxos, hutxos, context, hcontext,
      tickets, htickets, rfl⟩ := restored
    simp only [Ledger.genesisFromSnapshot, Outcome.bind_eq_ok, Outcome.pure_eq_ok,
      Outcome.bailIf_eq_ok, not_not]
    exact ⟨block, rfl, _, hallocations, _, hvalid, ⟨⟩, hgenesis, utxos, hutxos, context, hcontext,
      tickets, htickets, rfl⟩

/-- **Replay.** Let a running ledger accept any blocks, among changes of its pools and the
dropping of old blocks, as long as it keeps a window of them.  The trusted replay of the whole
chain succeeds and derives the same state. -/
theorem trusted_replay {genesis ledger : Ledger} {events : List Event}
    (restorable : Restorable genesis) (run : Run Step genesis events ledger)
    (window : ∀ recentLimit, Event.historyPruned recentLimit ∈ events →
      mineRetargetWindowBlocks ≤ recentLimit) :
    ∃ replayed, fromLocallyVerifiedSnapshot (genesis.snapshotWith (acceptedBlocks events))
        = .ok replayed ∧ SameDerived ledger replayed := by
  have hgenesis := restorable.genesisFromSnapshot (acceptedBlocks events)
  generalize (((genesis.snapshotWith (acceptedBlocks events)).blocks.getLast?.map
    Block.height).getD 0) = horizon at hgenesis
  have hchain : ∃ block, genesis.chain = [block] ∧ block.height = 0 := by
    obtain ⟨_, block, _, _, _, _, _, _, -, hblock, -, -, rfl⟩ := initial_eq restorable.initial
    exact ⟨block, rfl, by rw [hblock]; rfl⟩
  obtain ⟨block, hchain, hheight⟩ := hchain
  have hreplay : ∃ replayed,
      (acceptedBlocks events).foldlM applyTrustedBlockAt (genesis.withHorizon horizon)
        = .ok replayed ∧ Mirrored ledger replayed := by
    refine run.track (fun done ledger => done <+: events → ∃ replayed,
      (acceptedBlocks done).foldlM applyTrustedBlockAt (genesis.withHorizon horizon) = .ok replayed
        ∧ Mirrored ledger replayed) ?_ ?_ List.prefix_rfl
    · intro done before event after hdone step hdonePrefix
      obtain ⟨replayed, hrun, mirrored⟩ := hdone ((List.prefix_append done [event]).trans hdonePrefix)
      rw [acceptedBlocks_append, acceptedBlocks_singleton, List.foldlM_append]
      simp only [Outcome.bind_eq_ok]
      cases event with
      | accepted block =>
        obtain ⟨replayed', happlied, mirrored'⟩ := mirrored.step step
        exact ⟨replayed', ⟨replayed, hrun, by simpa [Event.acceptedBlock] using happlied⟩,
          mirrored'⟩
      | known block =>
        rw [step_known step]
        exact ⟨replayed, ⟨replayed, hrun, rfl⟩, mirrored⟩
      | poolsChanged pools =>
        cases step
        exact ⟨replayed, ⟨replayed, hrun, rfl⟩, { mirrored with }⟩
      | historyPruned recentLimit =>
        cases step
        have hwindow := window recentLimit (List.IsPrefix.subset hdonePrefix (by simp))
        exact ⟨replayed, ⟨replayed, hrun, rfl⟩, mirrored.retain hwindow⟩
    · intro _
      refine ⟨genesis.withHorizon horizon, rfl, ?_⟩
      have hunobserved : Unobserved genesis.chain := by
        rw [hchain]
        exact .singleton block
      refine { lineageState := rfl, hybridLegacyOwners := rfl, tickets := rfl
               minedTransactionIds := rfl, mineDifficultyWindows := rfl, vdfRounds := rfl
               vdfRetargetObservations := rfl, objectiveFinalityCheckpoint := rfl
               compactBlockContext := rfl, launchProfile := rfl, genesis := rfl
               genesisHeight := ?_, tip := rfl, recentBlocks := rfl
               unobserved := fun _ => ⟨hunobserved, hunobserved⟩ }
      simp only [Ledger.genesis, hchain, List.head_cons, hheight]
  obtain ⟨replayed, hrun, hmirrored⟩ := hreplay
  refine ⟨replayed, ?_, hmirrored.toSameDerived⟩
  rw [fromLocallyVerifiedSnapshot, hgenesis]
  have htail : (genesis.snapshotWith (acceptedBlocks events)).blocks.tail
      = acceptedBlocks events := by
    simp only [snapshotWith, hchain, List.singleton_append, List.tail_cons]
  rw [htail]
  exact hrun

end Ledger

end Iuna

namespace Iuna.Toy

attribute [local instance] crypto

set_option maxRecDepth 10000 in
lemma genesisAllocations_nonempty : genesisAllocations.isEmpty = false := by decide +kernel

/-- The chain with the burn of the allocation. -/
theorem trusted_replay_events :
    ∃ replayed, Ledger.fromLocallyVerifiedSnapshot
        (genesis.snapshotWith (Ledger.acceptedBlocks events)) = .ok replayed
      ∧ Ledger.SameDerived ledger replayed :=
  Ledger.trusted_replay (.launch genesisAllocations_nonempty genesis_launched) events_run
    (fun recentLimit hpruned => by simp [events] at hpruned)

set_option maxRecDepth 10000 in
lemma bareGenesis_default :
    bareGenesis.compactBlockContext = CompactBlockContext.default := by decide +kernel

set_option maxRecDepth 10000 in
lemma bareGenesis_replays :
    (Ledger.fromLocallyVerifiedSnapshot (bareGenesis.snapshotWith [])).toOption.map
      (fun replayed => decide (replayed.compactBlockContext = CompactBlockContext.default))
        = some false := by decide +kernel

/-- **A launch without allocations.** Its tables start empty, those of the replayed ledger contain
the genesis block: with no block accepted yet, the two differ. -/
theorem bare_replay_differs :
    Ledger.Initial bareGenesis ∧ Runs.Run Ledger.Step bareGenesis [] bareGenesis
      ∧ ¬ ∃ replayed, Ledger.fromLocallyVerifiedSnapshot
          (bareGenesis.snapshotWith (Ledger.acceptedBlocks [])) = .ok replayed
        ∧ Ledger.SameDerived bareGenesis replayed := by
  refine ⟨bareGenesis_initial, .nil bareGenesis, ?_⟩
  rintro ⟨replayed, hreplayed, hsame⟩
  have hreplays := bareGenesis_replays
  rw [Ledger.acceptedBlocks_nil] at hreplayed
  rw [hreplayed] at hreplays
  simp [Except.toOption, ← hsame.compactBlockContext, bareGenesis_default] at hreplays

end Iuna.Toy
