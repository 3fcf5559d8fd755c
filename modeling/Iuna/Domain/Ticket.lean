import Iuna.Domain.Block

/-!
# Burn tickets

A burn creates a ticket, and a ticket that is eligible at a height may finalize the block of that
height.  The eligible tickets are ranked by a weighted draw seeded with the randomness of the
parent block; the rank decides how many VDF rounds the block needs and from which time on it may
be published.  A ticket block consumes its ticket (and, from a height on, the tickets of the
owners it skipped); a recovery block removes every ticket that was eligible.  This module is
`ticket.rs`.
-/

namespace Iuna

def missedFallbackTicketInvalidationHeight : ℕ := 300

/-- `BurnTicket`. -/
structure BurnTicket where
  id : Str
  owner : Str
  amount : Amount
  eligibleFromHeight : ℕ
  eligibleUntilHeight : ℕ
  deriving DecidableEq

/-- `ticket_is_eligible_for_height`. -/
def ticketIsEligibleForHeight (ticket : BurnTicket) (height : ℕ) : Bool :=
  ticket.eligibleFromHeight ≤ height ∧ height ≤ ticket.eligibleUntilHeight

/-! ## The weighted draw -/

/-- The sum of `u64` weights in a `u128`, `try_fold` with `checked_add`. -/
def checkedTotalWeight (weights : List ℕ) : Option ℕ :=
  weights.foldlM (fun total weight =>
    if total + weight ≤ u128Max then some (total + weight) else none) 0

/-- The first index at which the cumulative weight exceeds the draw. -/
def indexOfDraw (draw : ℕ) : ℕ → List ℕ → Option ℕ
  | _, [] => none
  | cumulative, weight :: weights =>
    if u128Max < cumulative + weight then none
    else if draw < cumulative + weight then some 0
    else (indexOfDraw draw (cumulative + weight) weights).map (· + 1)

section Draw

variable [Crypto]

/-- The first sixteen bytes of a digest as a `u128`, reduced modulo the total weight. -/
def drawBelow (seed : Str) (totalWeight : ℕ) : ℕ :=
  Wire.ofBigEndian ((Crypto.sha256 (utf8 seed)).val.take 16) % totalWeight

/-- The draw that tickets and lineage roots share: nothing is drawn from weights that sum to
zero. -/
def selectWeightedIndex (seed : Str) (weights : List ℕ) : Option ℕ :=
  match checkedTotalWeight weights with
  | none => none
  | some 0 => none
  | some totalWeight => indexOfDraw (drawBelow seed totalWeight) 0 weights

/-- `ticket_draw_seed_from_randomness`. -/
def ticketDrawSeedFromRandomness (parentRandomness : Str) (targetHeight rank : ℕ) : Str :=
  if rank = 0 then colons [str "iuna-ticket-draw", decimal targetHeight, parentRandomness]
  else colons [str "iuna-ticket-draw-rank", decimal targetHeight, decimal rank, parentRandomness]

/-- `select_weighted_ticket_index`. -/
def selectWeightedTicketIndex (parentRandomness : Str) (targetHeight rank : ℕ)
    (tickets : List BurnTicket) : Option ℕ :=
  selectWeightedIndex (ticketDrawSeedFromRandomness parentRandomness targetHeight rank)
    (tickets.map BurnTicket.amount)

/-- The loop of `ranked_tickets_for_parent_randomness`: draw, remove, and draw again with the next
rank until nothing can be drawn. -/
def drawRanked (parentRandomness : Str) (targetHeight : ℕ) :
    ℕ → ℕ → List BurnTicket → List BurnTicket
  | 0, _, _ => []
  | fuel + 1, rank, remaining =>
    match selectWeightedTicketIndex parentRandomness targetHeight rank remaining with
    | none => []
    | some index =>
      (remaining[index]?).toList
        ++ drawRanked parentRandomness targetHeight fuel (rank + 1) (remaining.eraseIdx index)

/-- `ranked_tickets_for_parent_randomness`.  Every draw removes a ticket, so as many draws as
there are tickets suffice. -/
def rankedTicketsForParentRandomness (parentRandomness : Str) (targetHeight : ℕ)
    (tickets : List BurnTicket) : List BurnTicket :=
  let remaining := tickets.filter fun ticket => ticketIsEligibleForHeight ticket targetHeight
  drawRanked parentRandomness targetHeight remaining.length 0 remaining

/-- `draw_parent_randomness`. -/
def drawParentRandomness (parent : Block) (targetHeight : ℕ) : Str :=
  if grindingResistanceActivationHeight ≤ targetHeight then
    colons [parent.vdfSeed, parent.vdfOutput]
  else colons [parent.hash, parent.vdfOutput]

/-- `ranked_tickets_for_height`. -/
def rankedTicketsForHeight (parent : Block) (targetHeight : ℕ) (tickets : List BurnTicket) :
    List BurnTicket :=
  rankedTicketsForParentRandomness (drawParentRandomness parent targetHeight) targetHeight tickets

lemma drawRanked_subset {parentRandomness : Str} {targetHeight fuel rank : ℕ}
    {remaining : List BurnTicket} {ticket : BurnTicket}
    (h : ticket ∈ drawRanked parentRandomness targetHeight fuel rank remaining) :
    ticket ∈ remaining := by
  induction fuel generalizing rank remaining with
  | zero => simp [drawRanked] at h
  | succ fuel ih =>
    unfold drawRanked at h
    split at h
    · simp at h
    · rename_i index _
      rcases List.mem_append.mp h with h | h
      · exact List.mem_of_getElem? (Option.mem_toList.mp h)
      · exact List.mem_of_mem_eraseIdx (ih h)

/-- A ranked ticket is a ticket of the pool that is eligible at the height. -/
lemma mem_rankedTicketsForHeight {parent : Block} {targetHeight : ℕ} {tickets : List BurnTicket}
    {ticket : BurnTicket} (h : ticket ∈ rankedTicketsForHeight parent targetHeight tickets) :
    ticket ∈ tickets ∧ ticketIsEligibleForHeight ticket targetHeight = true := by
  simpa using drawRanked_subset h

end Draw

/-! ## Ranks, rounds and times -/

/-- `vdf_rounds_for_finalizer_rank`. -/
def vdfRoundsForFinalizerRank (baseRounds rank : ℕ) : Result ℕ := do
  bailIf (u32Max < rank + 1) "finalizer rank overflows"
  let rounds ← orError "finalizer rank VDF rounds overflow" (checkedMul baseRounds (rank + 1))
  bailIf (maxVdfRounds < rounds) "finalizer rank VDF rounds exceed maximum"
  pure rounds

/-- `finalizer_rank_slot_delay_ms`. -/
def finalizerRankSlotDelayMs (rank : ℕ) : Result ℕ :=
  orError "finalizer rank time slot overflow"
    ((checkedMul vdfTargetBlockMs 2).bind fun slot => checkedMul slot rank)

/-- `ticket_block_min_timestamp`. -/
def ticketBlockMinTimestamp (parent : Block) (rank : ℕ) : Result ℕ :=
  if rank = 0 then
    orError "finalizer rank minimum timestamp overflow" (checkedAdd parent.timestampMs 1)
  else do
    let delay ← finalizerRankSlotDelayMs rank
    orError "finalizer rank minimum timestamp overflow" (checkedAdd parent.timestampMs delay)

/-- `base_vdf_rounds_for_finalizer_rank`. -/
def baseVdfRoundsForFinalizerRank (vdfRounds rank : ℕ) : ℕ :=
  vdfRounds / max (min (rank + 1) u32Max) 1

/-! ## Tickets created by a block -/

/-- The heights at which a ticket burned at a height is eligible. -/
def ticketWindow (blockHeight : ℕ) (profile : LaunchProfile) : Result (ℕ × ℕ) := do
  let targetHeight ← orError s!"ticket target height overflow at block {blockHeight}"
    (checkedAdd blockHeight profile.ticketMaturityDelayHeights)
  let eligibleUntilHeight ← orError s!"ticket expiry height overflow at block {blockHeight}"
    (checkedAdd targetHeight (profile.ticketExpiryWindowHeights - 1))
  pure (targetHeight, eligibleUntilHeight)

/-- One round of `tickets_created_by_transactions`: a burn with an input and a positive amount
creates a ticket, everything else is passed over. -/
def ticketOfTransaction (blockHeight : ℕ) (profile : LaunchProfile) :
    Transaction → Result (Option BurnTicket)
  | .burn (input :: _) _ amount _ _ signature =>
    if amount = 0 then pure none
    else do
      let (targetHeight, eligibleUntilHeight) ← ticketWindow blockHeight profile
      pure (some { id := signature, owner := input.owner, amount := amount,
                   eligibleFromHeight := targetHeight, eligibleUntilHeight := eligibleUntilHeight })
  | _ => pure none

/-- `tickets_created_by_transactions`. -/
def ticketsCreatedByTransactions (blockHeight : ℕ) (transactions : List Transaction)
    (profile : LaunchProfile) : Result (List BurnTicket) := do
  bailIf (profile.ticketExpiryWindowHeights = 0)
    "ticket expiry window must be at least one height"
  let tickets ← transactions.mapM (ticketOfTransaction blockHeight profile)
  pure (tickets.filterMap id)

section Creation

variable [Crypto]

/-- One round of the envelope loop of `tickets_created_by_block`. -/
def ticketOfEnvelope (blockHeight : ℕ) (profile : LaunchProfile) (envelope : Str) :
    Result (Option BurnTicket) := do
  let encoded ← withContext "transaction v2 envelope is not hexadecimal" (decodeHex envelope)
  let (domain, transaction) ← TransactionV2.decode encoded
  if transaction.isBurn = false then pure none
  else do
    let legacyOwner ← transaction.burnLegacyOwner
    let owner ← orError "transaction v2 burn owner is missing" legacyOwner
    let (targetHeight, eligibleUntilHeight) ← ticketWindow blockHeight profile
    let id ← transaction.transactionId domain
    pure (some { id := hexEncode id.val, owner := owner, amount := transaction.amount,
                 eligibleFromHeight := targetHeight, eligibleUntilHeight := eligibleUntilHeight })

/-- `tickets_created_by_block`. -/
def ticketsCreatedByBlock (block : Block) (profile : LaunchProfile) : Result (List BurnTicket) := do
  let tickets ← ticketsCreatedByTransactions block.height block.transactions profile
  let ticketsV2 ← block.transactionsV2.mapM (ticketOfEnvelope block.height profile)
  pure (tickets ++ ticketsV2.filterMap id)

/-- The owner, amount and id of the ticket that a genesis burn stands for. -/
def genesisBurnTicket : Transaction → Option (Str × Amount × Str)
  | .burn (input :: _) _ amount _ _ signature =>
    if 0 < amount then some (input.owner, amount, signature) else none
  | _ => none

/-- `genesis_bootstrap_tickets`: a ticket for each height up to the maturity delay. -/
def genesisBootstrapTickets (sourceTickets : List (Str × Amount × Str)) (profile : LaunchProfile)
    (genesis : Block) : List BurnTicket :=
  (List.range profile.ticketMaturityDelayHeights).flatMap fun index =>
    let height := index + 1
    sourceTickets.map fun source =>
      { id := hexHash (colons [str "iuna-genesis-bootstrap-ticket", genesis.hash, source.2.2,
          decimal height])
        owner := source.1
        amount := source.2.1
        eligibleFromHeight := height
        eligibleUntilHeight := height }

/-- `genesis_tickets`. -/
def genesisTickets (genesisAllocations : BTreeMap Str Amount) (genesis : Block)
    (profile : LaunchProfile) : Result (List BurnTicket) :=
  if profile.ticketMaturityDelayHeights = 0 then ticketsCreatedByBlock genesis profile
  else
    let burnTickets := genesis.transactions.filterMap genesisBurnTicket
    if burnTickets ≠ [] then pure (genesisBootstrapTickets burnTickets profile genesis)
    else match genesisAllocations.toList.reverse.find? fun entry => 0 < entry.2 with
      | none => pure []
      | some (owner, amount) =>
        pure (genesisBootstrapTickets [(owner, 1, hexHash (colons [str "iuna-genesis-ticket", owner,
          decimal amount, genesis.hash]))] profile genesis)

end Creation

/-! ## Effects of a finalized block -/

section Effects

variable [Crypto]

/-- `invalidated_ticket_ids`. -/
def invalidatedTicketIds (parent block : Block) (tickets : List BurnTicket) (leaderTicketId : Str) :
    List Str :=
  let rankedTickets := rankedTicketsForHeight parent block.height tickets
  match rankedTickets.findIdx? fun ticket => ticket.id = leaderTicketId with
  | none => [leaderTicketId]
  | some finalizerIndex =>
    if block.height < missedFallbackTicketInvalidationHeight ∨ finalizerIndex = 0 then
      [leaderTicketId]
    else
      let missedAndFinalizerOwners := (rankedTickets.take (finalizerIndex + 1)).map BurnTicket.owner
      (tickets.filter fun ticket => ticketIsEligibleForHeight ticket block.height
        ∧ ticket.owner ∈ missedAndFinalizerOwners).map BurnTicket.id

/-- `consume_leader_ticket`. -/
def consumeLeaderTicket (parent block : Block) (tickets : List BurnTicket) :
    Result (List BurnTicket) := do
  let proof ← orError "block is missing leader proof" block.leaderProof
  bailIf (¬ tickets.any fun ticket => ticket.id = proof.ticketId
      ∧ ticketIsEligibleForHeight ticket block.height)
    s!"leader ticket is not pending for block {block.height}"
  let invalidated := invalidatedTicketIds parent block tickets proof.ticketId
  pure (tickets.filter fun ticket =>
    ticket.id ∉ invalidated ∧ block.height < ticket.eligibleUntilHeight)

/-- `apply_finalizer_ticket_effects`. -/
def applyFinalizerTicketEffects (parent block : Block) (tickets : List BurnTicket) :
    Result (List BurnTicket) :=
  match block.finalizerMode with
  | .ticket => consumeLeaderTicket parent block tickets
  | .recovery => pure (tickets.filter fun ticket =>
      ¬ ticketIsEligibleForHeight ticket block.height ∧ block.height < ticket.eligibleUntilHeight)

end Effects

/-- `mine_action_count`. -/
def mineActionCount (block : Block) : ℕ := block.transactions.countP Transaction.isMine

end Iuna
