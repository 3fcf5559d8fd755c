import Iuna.Properties.Atomicity

/-!
# Times along a chain

The timestamps of a chain increase from the genesis block on, a ticket block waits for the slot of
its rank, and a recovery block for the recovery delay (`Timed`).  The retarget code subtracts
timestamps without checking the order, over pairs of the resident chain and over the tip and its
child; along a run these subtractions are exact and the products of the slot and retarget code fit
their types (`TimesFit`).
-/

namespace Iuna

/-! ## Slots -/

/-- How long after its parent a ticket block of a rank may be published. -/
def slotDelayMs (rank : ℕ) : ℕ := if rank = 0 then 1 else vdfTargetBlockMs * 2 * rank

/-- The slot of a rank fits: a rank is a `u32`, and the delay a small multiple of it. -/
lemma slotDelay_le {rank : ℕ} (h : rank ≤ u32Max) : vdfTargetBlockMs * 2 * rank ≤ u64Max := by
  have hproduct := Nat.mul_le_mul_left (vdfTargetBlockMs * 2) h
  exact hproduct.trans (by decide)

lemma finalizerRankSlotDelayMs_eq_ok {rank : ℕ} (h : rank ≤ u32Max) :
    finalizerRankSlotDelayMs rank = .ok (vdfTargetBlockMs * 2 * rank) := by
  have hbase : checkedMul vdfTargetBlockMs 2 = some (vdfTargetBlockMs * 2) := by decide
  unfold finalizerRankSlotDelayMs
  rw [hbase, Option.bind_some, checkedMul, if_pos (slotDelay_le h)]
  rfl

/-- The minimal timestamp of a ticket block, where it fits, is the end of the delay of its rank. -/
lemma ticketBlockMinTimestamp_eq_ok {parent : Block} {rank minTimestamp : ℕ} (h : rank ≤ u32Max) :
    ticketBlockMinTimestamp parent rank = .ok minTimestamp ↔
      parent.timestampMs + slotDelayMs rank = minTimestamp ∧ minTimestamp ≤ u64Max := by
  unfold ticketBlockMinTimestamp slotDelayMs
  by_cases hzero : rank = 0
  · simp [hzero]
  · rw [if_neg hzero, if_neg hzero, Outcome.bind_eq_ok]
    simp [finalizerRankSlotDelayMs_eq_ok h]

section Ranks

variable [Crypto]

lemma length_drawRanked_le (parentRandomness : Str) (targetHeight fuel rank : ℕ)
    (remaining : List BurnTicket) :
    (drawRanked parentRandomness targetHeight fuel rank remaining).length ≤ fuel := by
  induction fuel generalizing rank remaining with
  | zero => simp [drawRanked]
  | succ fuel ih =>
    unfold drawRanked
    split
    · simp
    · rename_i index _
      have htail := ih (rank + 1) (remaining.eraseIdx index)
      have hhead : (remaining[index]?).toList.length ≤ 1 := by
        cases remaining[index]? <;> simp
      rw [List.length_append]
      omega

end Ranks

/-! ## Accepted blocks -/

/-- The rounds of a block of a rank fit a `u64` with room to spare, and so does the rank. -/
lemma vdfRoundsForFinalizerRank_eq_ok {baseRounds rank rounds : ℕ}
    (h : vdfRoundsForFinalizerRank baseRounds rank = .ok rounds) :
    rank < u32Max ∧ rounds = baseRounds * (rank + 1) ∧ rounds ≤ maxVdfRounds := by
  simp only [vdfRoundsForFinalizerRank, Outcome.bind_eq_ok, Outcome.bailIf_eq_ok,
    Outcome.ofOption_eq_ok, Outcome.pure_eq_ok, not_lt, checkedMul] at h
  obtain ⟨_, hrank, product, hproduct, _, hrounds, rfl⟩ := h
  split at hproduct
  · cases hproduct
    exact ⟨by omega, rfl, hrounds⟩
  · cases hproduct

namespace Ledger

open Runs

variable {ledger ledger' : Ledger} {block : Block}

/-- The time rules of a block over its parent. -/
structure Timed [Crypto] (ledger : Ledger) (block : Block) : Prop where
  increases : ledger.tip.timestampMs < block.timestampMs
  exceedsMedian : ledger.medianTimePast < block.timestampMs
  rankEligible : block.finalizerMode = .ticket → block.finalizerRank <
    (ledger.tickets.filter fun ticket => ticketIsEligibleForHeight ticket block.height).length
  afterSlot : block.finalizerMode = .ticket →
    ledger.tip.timestampMs + slotDelayMs block.finalizerRank ≤ block.timestampMs
  afterRecoveryDelay : block.finalizerMode = .recovery →
    saturatingAdd ledger.tip.timestampMs recoveryBlockDelayMs ≤ block.timestampMs

/-- The arithmetic on the times of a block and its parent stays within the integers of the source:
`u64` for times and delays, and `u128` for the product of the retarget. -/
structure TimesFit (ledger : Ledger) (block : Block) : Prop where
  timestamp : block.timestampMs ≤ u64Max
  /-- `child.timestamp_ms - parent.timestamp_ms` of `vdf_retarget_observed_block_ms` -/
  observation : (UInt64.ofNat block.timestampMs - UInt64.ofNat ledger.tip.timestampMs).toNat
    = block.timestampMs - ledger.tip.timestampMs
  /-- `VDF_TARGET_BLOCK_MS * 2 * rank` of `finalizer_rank_slot_delay_ms` -/
  slotDelay : finalizerRankSlotDelayMs block.finalizerRank
    = .ok (vdfTargetBlockMs * 2 * block.finalizerRank)
  minTimestamp : block.finalizerMode = .ticket →
    ticketBlockMinTimestamp ledger.tip block.finalizerRank
      = .ok (ledger.tip.timestampMs + slotDelayMs block.finalizerRank)
  /-- `current * target` of `retarget_vdf_rounds`, after the block -/
  retarget : baseVdfRoundsForFinalizerRank block.vdfRounds block.finalizerRank * vdfTargetBlockMs
    ≤ u128Max

/-- Subtraction of `u64` is exact on ordered times. -/
lemma sub_exact {earlier later : ℕ} (ordered : earlier ≤ later) (fits : later ≤ u64Max) :
    (UInt64.ofNat later - UInt64.ofNat earlier).toNat = later - earlier := by
  have hlater : (UInt64.ofNat later).toNat = later := by
    rw [UInt64.toNat_ofNat']
    exact Nat.mod_eq_of_lt (by unfold u64Max at fits; omega)
  have hearlier : (UInt64.ofNat earlier).toNat = earlier := by
    rw [UInt64.toNat_ofNat']
    exact Nat.mod_eq_of_lt (by unfold u64Max at fits; omega)
  rw [UInt64.toNat_sub_of_le, hlater, hearlier]
  rw [UInt64.le_iff_toNat_le, hlater, hearlier]
  exact ordered

variable [Crypto]

omit [Crypto] in
/-- What the timestamp check of a block says. -/
lemma checkTimestamp_eq_ok {nowMs : ℕ} (h : ledger.checkTimestamp block nowMs = .ok ()) :
    ledger.tip.timestampMs < block.timestampMs ∧
      (block.finalizerMode = .ticket → ∃ minTimestamp,
        ticketBlockMinTimestamp ledger.tip block.finalizerRank = .ok minTimestamp ∧
          minTimestamp ≤ block.timestampMs) ∧
      ledger.medianTimePast < block.timestampMs ∧ block.timestampMs ≤ u64Max := by
  have hlate (hlate : (do
        bailIf (block.timestampMs ≤ ledger.medianTimePast)
          "block timestamp must exceed median time past"
        if saturatingAdd nowMs maxBlockTimestampFutureDriftMs < block.timestampMs then
          Except.error (Error.validation .blockTimestampTooFarInFuture)) = Except.ok ()) :
      ledger.medianTimePast < block.timestampMs ∧ block.timestampMs ≤ u64Max := by
    obtain ⟨_, hmedian, hfuture⟩ := Outcome.bind_eq_ok.mp hlate
    refine ⟨not_le.mp (Outcome.bailIf_eq_ok.mp hmedian), ?_⟩
    split at hfuture
    · cases hfuture
    · rename_i hdrift
      exact (not_lt.mp hdrift).trans (Nat.min_le_right _ _)
  unfold checkTimestamp at h
  obtain ⟨_, hincreases, h⟩ := Outcome.bind_eq_ok.mp h
  refine ⟨not_le.mp (Outcome.bailIf_eq_ok.mp hincreases), ?_⟩
  by_cases hmode : block.finalizerMode = .ticket
  · rw [if_pos hmode] at h
    obtain ⟨minTimestamp, hmin, h⟩ := Outcome.bind_eq_ok.mp h
    split at h
    · cases h
    · rename_i hslot
      exact ⟨fun _ => ⟨minTimestamp, hmin, not_lt.mp hslot⟩, hlate h⟩
  · rw [if_neg hmode] at h
    exact ⟨fun hticket => absurd hticket hmode, hlate h⟩

/-- The rank of an accepted block is a `u32`, and its rounds are within the limit. -/
lemma Prechecked.rounds {nowMs : ℕ} (checked : ledger.Prechecked block nowMs) :
    block.finalizerRank ≤ u32Max ∧ block.vdfRounds ≤ maxVdfRounds := by
  have hrounds := checked.vdfRounds
  have hfinalizer := checked.finalizer
  unfold expectedVdfRoundsForBlock at hrounds
  unfold checkFinalizer at hfinalizer
  cases hmode : block.finalizerMode with
  | ticket =>
    rw [hmode] at hrounds
    obtain ⟨hrank, -, hlimit⟩ := vdfRoundsForFinalizerRank_eq_ok hrounds
    exact ⟨hrank.le, hlimit⟩
  | recovery =>
    rw [hmode] at hrounds hfinalizer
    obtain ⟨-, -, hlimit⟩ := vdfRoundsForFinalizerRank_eq_ok hrounds
    simp only [ensureValidRecoveryBlock, Outcome.bind_eq_ok, Outcome.bailIf_eq_ok, not_not]
      at hfinalizer
    obtain ⟨_, hrank, -⟩ := hfinalizer
    rw [hrank]
    exact ⟨Nat.zero_le _, hlimit⟩

/-- A block that passes the precheck keeps the time rules. -/
lemma Prechecked.timed {nowMs : ℕ} (checked : ledger.Prechecked block nowMs) :
    ledger.Timed block := by
  obtain ⟨hincreases, hslot, hmedian, -⟩ := checkTimestamp_eq_ok checked.timestamp
  have hfinalizer := checked.finalizer
  unfold checkFinalizer at hfinalizer
  refine ⟨hincreases, hmedian, ?_, ?_, ?_⟩
  · intro hmode
    rw [hmode] at hfinalizer
    simp only [Outcome.bind_eq_ok, Outcome.ofOption_eq_ok] at hfinalizer
    obtain ⟨ticket, hticket, -⟩ := hfinalizer
    unfold ticketForFinalizerRank at hticket
    obtain ⟨hrank, -⟩ := List.getElem?_eq_some_iff.mp hticket
    exact hrank.trans_le (length_drawRanked_le _ _ _ _ _)
  · intro hmode
    obtain ⟨minTimestamp, hmin, hafter⟩ := hslot hmode
    obtain ⟨rfl, -⟩ := (ticketBlockMinTimestamp_eq_ok checked.rounds.1).mp hmin
    exact hafter
  · intro hmode
    rw [hmode] at hfinalizer
    simp only [ensureValidRecoveryBlock, Outcome.bind_eq_ok, Outcome.bailIf_eq_ok, not_lt]
      at hfinalizer
    obtain ⟨_, -, _, -, _, hafter, -⟩ := hfinalizer
    exact hafter

/-- A block that passes the precheck keeps the arithmetic on times within its types. -/
lemma Prechecked.timesFit {nowMs : ℕ} (checked : ledger.Prechecked block nowMs) :
    ledger.TimesFit block := by
  obtain ⟨hincreases, hslot, -, hfits⟩ := checkTimestamp_eq_ok checked.timestamp
  obtain ⟨hrank, hrounds⟩ := checked.rounds
  refine ⟨hfits, sub_exact hincreases.le hfits, finalizerRankSlotDelayMs_eq_ok hrank, ?_, ?_⟩
  · intro hmode
    obtain ⟨minTimestamp, hmin, -⟩ := hslot hmode
    obtain ⟨rfl, -⟩ := (ticketBlockMinTimestamp_eq_ok hrank).mp hmin
    exact hmin
  · have hbase : baseVdfRoundsForFinalizerRank block.vdfRounds block.finalizerRank
        ≤ maxVdfRounds := (Nat.div_le_self _ _).trans hrounds
    exact (Nat.mul_le_mul_right vdfTargetBlockMs hbase).trans (by decide)

/-! ## Chains -/

/-- The whole chain of a run increases, and the resident blocks are a part of it that ends with the
newest one. -/
lemma run_times {genesis : Ledger} {events : List Event} (initial : Initial genesis)
    (run : Run Step genesis events ledger) :
    (genesis.tip :: acceptedBlocks events).Pairwise
        (fun older newer => older.timestampMs < newer.timestampMs) ∧
      ledger.chain.Sublist (genesis.tip :: acceptedBlocks events) ∧
      ∀ earlier ∈ genesis.tip :: acceptedBlocks events,
        earlier.timestampMs ≤ ledger.tip.timestampMs := by
  refine run_track (fun blocks ledger =>
    (genesis.tip :: blocks).Pairwise (fun older newer => older.timestampMs < newer.timestampMs) ∧
      ledger.chain.Sublist (genesis.tip :: blocks) ∧
      ∀ earlier ∈ genesis.tip :: blocks, earlier.timestampMs ≤ ledger.tip.timestampMs)
    run ?_ ?_ ?_ ?_
  · obtain ⟨_, block, _, _, _, _, _, _, -, -, -, -, rfl⟩ := initial_eq initial
    simp [atGenesis, Ledger.tip]
  · intro blocks ledger block effects ledger' htrack accepts
    obtain ⟨hincreases, hsublist, hbound⟩ := htrack
    obtain ⟨nowMs, checked⟩ := accepts.prechecked
    have hnewer := checked.timed.increases
    rw [← List.cons_append, accepts.chain, accepts.tip, List.pairwise_append]
    refine ⟨⟨hincreases, List.pairwise_singleton _ _, ?_⟩, hsublist.append_right [block], ?_⟩
    · intro older holder newer hmem
      rw [List.mem_singleton.mp hmem]
      exact (hbound older holder).trans_lt hnewer
    · intro earlier hearlier
      rcases List.mem_append.mp hearlier with hearlier | hearlier
      · exact (hbound earlier hearlier).trans hnewer.le
      · rw [List.mem_singleton.mp hearlier]
  · intro blocks ledger pools htrack
    exact htrack
  · intro blocks ledger recentLimit htrack
    obtain ⟨hincreases, hsublist, hbound⟩ := htrack
    refine ⟨hincreases, (retainRecentChainBlocks_sublist ledger recentLimit).trans hsublist, ?_⟩
    rw [retainRecentChainBlocks_tip]
    exact hbound

omit [Crypto] in
/-- Neighbours in a chain are in the order of the chain. -/
lemma lt_of_mem_zip_tail {chain : List Block}
    (increases : chain.Pairwise fun older newer => older.timestampMs < newer.timestampMs)
    {pair : Block × Block} (mem : pair ∈ chain.zip chain.tail) :
    pair.1.timestampMs < pair.2.timestampMs := by
  induction increases with
  | nil => simp at mem
  | @cons older rest hfirst _ ih =>
    cases rest with
    | nil => simp at mem
    | cons newer rest =>
      rw [List.tail_cons, List.zip_cons_cons] at mem
      rcases List.mem_cons.mp mem with rfl | mem
      · exact hfirst newer List.mem_cons_self
      · exact ih mem

/-- Along every run the timestamps of the chain increase, the subtractions over its resident part
are those of ordered times, and every block that is accepted next keeps the time rules and the
arithmetic on times within its types. -/
theorem times_along_chain {genesis : Ledger} {events : List Event} (initial : Initial genesis)
    (run : Run Step genesis events ledger) :
    (genesis.tip :: acceptedBlocks events).Pairwise
        (fun older newer => older.timestampMs < newer.timestampMs) ∧
      (∀ pair ∈ ledger.chain.zip ledger.chain.tail, pair.1.timestampMs < pair.2.timestampMs) ∧
      ∀ block ledger', Step ledger (.accepted block) ledger' →
        (∀ earlier ∈ genesis.tip :: acceptedBlocks events,
          earlier.timestampMs < block.timestampMs) ∧
        ledger.Timed block ∧ ledger.TimesFit block := by
  obtain ⟨hincreases, hsublist, hbound⟩ := run_times initial run
  refine ⟨hincreases, fun pair mem => lt_of_mem_zip_tail (hincreases.sublist hsublist) mem, ?_⟩
  intro block ledger' step
  obtain ⟨effects, accepts⟩ := step_accepted step
  obtain ⟨nowMs, checked⟩ := accepts.prechecked
  refine ⟨fun earlier hearlier => ?_, checked.timed, checked.timesFit⟩
  exact (hbound earlier hearlier).trans_lt checked.timed.increases

end Ledger

end Iuna

namespace Iuna.Toy

attribute [local instance] crypto

/-- The times of two blocks and of any next one. -/
theorem times_along_chain_coins :
    (genesis.tip :: Ledger.acceptedBlocks (coinBlocks.map .accepted)).Pairwise
        (fun older newer => older.timestampMs < newer.timestampMs) ∧
      (∀ pair ∈ coinLedger.chain.zip coinLedger.chain.tail,
        pair.1.timestampMs < pair.2.timestampMs) ∧
      ∀ block ledger', Ledger.Step coinLedger (.accepted block) ledger' →
        (∀ earlier ∈ genesis.tip :: Ledger.acceptedBlocks (coinBlocks.map .accepted),
          earlier.timestampMs < block.timestampMs) ∧
        coinLedger.Timed block ∧ coinLedger.TimesFit block :=
  Ledger.times_along_chain genesis_initial coins_run

end Iuna.Toy
