import Iuna.Properties.Launch
import Mathlib.Data.List.TakeWhile

/-!
# The limit of mine actions for an anchor

The mempool admits a mine action only while the blocks of the chain and the pools hold fewer than
two for its anchor (`mineAnchorCountBeforeHeight`).  The validation of a block counts within the
block alone.  So the limit holds along the whole chain exactly when every accepted block keeps
within what the mempool's count leaves of it (`anchor_limit_iff`); two blocks may otherwise each
use the whole allowance (`anchor_exceeded`).
-/

namespace Iuna

open Runs

/-- The mine actions of some blocks for an anchor. -/
def mineActionsFor (anchor : Str) (blocks : List Block) : ℕ :=
  (blocks.map fun block =>
    block.transactions.countP fun transaction => mineAnchor transaction = some anchor).sum

@[simp] lemma mineActionsFor_nil (anchor : Str) : mineActionsFor anchor [] = 0 := rfl

@[simp] lemma mineActionsFor_append (anchor : Str) (blocks blocks' : List Block) :
    mineActionsFor anchor (blocks ++ blocks')
      = mineActionsFor anchor blocks + mineActionsFor anchor blocks' := by
  simp [mineActionsFor]

@[simp] lemma mineActionsFor_singleton (anchor : Str) (block : Block) :
    mineActionsFor anchor [block]
      = block.transactions.countP fun transaction => mineAnchor transaction = some anchor := by
  simp [mineActionsFor]

/-- The count of the mempool is the count of the whole chain, if no block is above the height. -/
lemma mineAnchorCountBeforeHeight_eq {chain : List Block} {height : ℕ}
    (below : ∀ block ∈ chain, block.height ≤ height) (anchor : Str) :
    mineAnchorCountBeforeHeight chain anchor height = mineActionsFor anchor chain := by
  have hall : chain.takeWhile (fun block => block.height ≤ height) = chain := by
    rw [List.takeWhile_eq_self_iff]
    simpa using below
  rw [mineAnchorCountBeforeHeight, hall, mineActionsFor]

namespace Ledger

variable [Crypto]

/-- A block keeps within what a chain leaves of the limit: for each of its anchors, the count of
the mempool and the actions of the block together. -/
def KeepsAnchorLimit (chain : List Block) (height : ℕ) (block : Block) : Prop :=
  ∀ anchor, mineActionsFor anchor [block] ≠ 0 →
    mineAnchorCountBeforeHeight chain anchor height + mineActionsFor anchor [block]
      ≤ mineActionsPerAnchorLimit

/-- A genesis block has no mine actions, and it is the only block of the chain, at height zero. -/
lemma initial_chain {genesis : Ledger} (initial : Initial genesis) :
    (∀ block ∈ genesis.chain, block.height ≤ genesis.tip.height)
      ∧ ∀ anchor, mineActionsFor anchor genesis.chain = 0 := by
  obtain ⟨_, block, utxos, _, _, _, _, _, -, hblock, hutxos, -, rfl⟩ := initial_eq initial
  have hburns : ∀ transaction ∈ block.transactions, mineAnchor transaction = none := by
    simp only [utxosAfterGenesis, Outcome.bind_eq_ok] at hutxos
    obtain ⟨⟨_, burned⟩, hburned, -⟩ := hutxos
    have hrun := Mutate.forM_run.mp (Mutate.outcome_eq_ok.mp hburned)
    intro transaction htransaction
    obtain ⟨_, _, happlied⟩ := hrun.step_of_mem htransaction
    cases transaction with
    | burn => rfl
    | transfer => rfl
    | mine => simp [applyGenesisTransaction] at happlied
  refine ⟨?_, fun anchor => ?_⟩
  · show ∀ other ∈ [block], other.height ≤ block.height
    simp
  · show mineActionsFor anchor [block] = 0
    rw [mineActionsFor_singleton, List.countP_eq_zero]
    intro transaction htransaction
    simp [hburns transaction htransaction]

/-- No block of the chain is above the tip. -/
lemma run_heights {genesis ledger : Ledger} {events : List Event} (initial : Initial genesis)
    (run : Run Step genesis events ledger) :
    ∀ block ∈ genesis.chain ++ acceptedBlocks events, block.height ≤ ledger.tip.height := by
  refine run_track (fun blocks ledger =>
    ∀ block ∈ genesis.chain ++ blocks, block.height ≤ ledger.tip.height) run ?_ ?_ ?_ ?_
  · rw [List.append_nil]
    exact (initial_chain initial).1
  · intro blocks ledger block effects ledger' hbelow accepts other hother
    have hnew := accepts.tip_height
    have htip : ledger'.tip = block := accepts.tip
    rw [← List.append_assoc, List.mem_append, List.mem_singleton] at hother
    rcases hother with hother | rfl
    · have hold := hbelow other hother
      omega
    · rw [htip]
  · intro blocks ledger pools hbelow
    exact hbelow
  · intro blocks ledger recentLimit hbelow
    rw [retainRecentChainBlocks_tip]
    exact hbelow

/-- **The limit along a chain.** At most two mine actions of a chain are anchored to the same block
if and only if every accepted block keeps within what the chain before it leaves of the limit. -/
theorem anchor_limit_iff {genesis ledger : Ledger} {events : List Event}
    (initial : Initial genesis) (run : Run Step genesis events ledger) :
    (∀ anchor, mineActionsFor anchor (genesis.chain ++ acceptedBlocks events)
        ≤ mineActionsPerAnchorLimit) ↔
      ∀ before block after middle, events = before ++ .accepted block :: after →
        Run Step genesis before middle →
        KeepsAnchorLimit (genesis.chain ++ acceptedBlocks before) middle.height block := by
  constructor
  · rintro limit before block after middle rfl first anchor -
    have htotal := limit anchor
    have hcount := mineAnchorCountBeforeHeight_eq (run_heights initial first) anchor
    have hblocks : acceptedBlocks (before ++ .accepted block :: after)
        = acceptedBlocks before ++ ([block] ++ acceptedBlocks after) := by
      rw [acceptedBlocks_append]
      rfl
    show mineAnchorCountBeforeHeight _ anchor middle.tip.height + _ ≤ _
    rw [hcount]
    rw [hblocks] at htotal
    simp only [mineActionsFor_append] at htotal ⊢
    omega
  · intro keeps anchor
    -- along the run every prefix of the chain keeps the limit
    have htrack := run.track (fun done middle => done <+: events → Run Step genesis done middle ∧
      mineActionsFor anchor (genesis.chain ++ acceptedBlocks done)
        ≤ mineActionsPerAnchorLimit) ?_ ?_
    · exact (htrack List.prefix_rfl).2
    · intro done middle event middle' hdone step hprior
      have hshorter : done <+: events := (List.prefix_append done [event]).trans hprior
      obtain ⟨first, hlimit⟩ := hdone hshorter
      refine ⟨first.snoc step, ?_⟩
      rw [acceptedBlocks_append, acceptedBlocks_singleton]
      cases event with
      | accepted block =>
        obtain ⟨after, hevents⟩ := hprior
        have hkeeps := keeps done block after middle (by rw [← hevents]; simp) first anchor
        have hcount := mineAnchorCountBeforeHeight_eq (run_heights initial first) anchor
        change _ → mineAnchorCountBeforeHeight _ anchor middle.tip.height + _ ≤ _ at hkeeps
        rw [hcount] at hkeeps
        simp only [Event.acceptedBlock, Option.toList_some, mineActionsFor_append] at hlimit hkeeps ⊢
        by_cases hnone : mineActionsFor anchor [block] = 0
        · omega
        · have hkept := hkeeps hnone
          omega
      | known block => simpa [Event.acceptedBlock] using hlimit
      | poolsChanged pools => simpa [Event.acceptedBlock] using hlimit
      | historyPruned recentLimit => simpa [Event.acceptedBlock] using hlimit
    · intro _
      refine ⟨.nil genesis, ?_⟩
      rw [acceptedBlocks_nil, List.append_nil, (initial_chain initial).2]
      exact Nat.zero_le _

end Ledger

end Iuna

namespace Iuna.Toy

open Runs

attribute [local instance] crypto

/-- The limit along the chain of two blocks with mine actions. -/
theorem anchor_limit_iff_coins :
    (∀ anchor, mineActionsFor anchor (genesis.chain
        ++ Ledger.acceptedBlocks (coinBlocks.map .accepted)) ≤ mineActionsPerAnchorLimit) ↔
      ∀ before block' after middle, coinBlocks.map .accepted = before ++ .accepted block' :: after →
        Run Ledger.Step genesis before middle →
        Ledger.KeepsAnchorLimit (genesis.chain ++ Ledger.acceptedBlocks before) middle.height
          block' :=
  Ledger.anchor_limit_iff genesis_initial coins_run

set_option maxRecDepth 10000 in
lemma coins_counted : coins.toOption.map (fun mined => mineActionsFor genesis.genesisHash
    (genesis.chain ++ mined.1)) = some 3 := by
  decide +kernel

/-- **An anchor beyond its limit.** Two blocks are accepted with three actions on the genesis block
between them. -/
theorem anchor_exceeded :
    Ledger.Initial genesis ∧ ∃ events mined, Run Ledger.Step genesis events mined
      ∧ ¬ ∀ anchor, mineActionsFor anchor (genesis.chain ++ Ledger.acceptedBlocks events)
        ≤ mineActionsPerAnchorLimit := by
  refine ⟨genesis_initial, ?_⟩
  have hcounted := coins_counted
  cases hcoins : coins with
  | error failure =>
    rw [hcoins] at hcounted
    cases hcounted
  | ok mined =>
    obtain ⟨blocks, last⟩ := mined
    rw [hcoins] at hcounted
    have hthree : mineActionsFor genesis.genesisHash (genesis.chain ++ blocks) = 3 :=
      Option.some.inj hcounted
    refine ⟨_, last, Ledger.run_of_acceptEach hcoins, fun limit => ?_⟩
    have hlimit := limit genesis.genesisHash
    rw [Ledger.acceptedBlocks_map_accepted, hthree] at hlimit
    exact absurd hlimit (by decide)

end Iuna.Toy
