import Iuna.Properties.NoReplay

/-!
# The ticket pool keeps a ticket for the next block

A pool that sustains the next blocks holds, for each of the heights up to the maturity delay, a
ticket that becomes eligible there and whose id is shared by no ticket that is eligible earlier
(`Sustains`).  The block at the next height removes tickets by the ids of tickets that are
eligible at its height, so it leaves the later ones alone; and it has to add one for the height
that comes into view.  It does so when one of its burns creates a ticket under an id that is not
pending (`Replenishes`).  That a block contains a burn is not enough: a legacy burn of the amount
zero creates no ticket.
-/

namespace Iuna

open Runs

namespace Ledger

variable [Crypto] {ledger ledger' : Ledger} {block : Block} {effects : BlockEffects}

/-- An id under which a block may create a ticket that no earlier ticket takes with it.  From the
activation of the replay protection on every new id is one. -/
def FreshTicketId (ledger : Ledger) (block : Block) (id : Str) : Prop :=
  block.height < transactionReplayProtectionActivationHeight →
    ∀ ticket ∈ ledger.tickets, ticket.id ≠ id

/-- A block contains a burn that creates a ticket under a fresh id: a legacy burn of a positive
amount, or any v2 burn. -/
def Replenishes (ledger : Ledger) (block : Block) : Prop :=
  (∃ transaction ∈ block.transactions, transaction.isBurn = true ∧ transaction.burned ≠ 0
      ∧ ledger.FreshTicketId block transaction.signature) ∨
    ∃ domain transaction id, ledger.transactionV2Domain = .ok domain ∧
      ∃ envelope ∈ block.transactionsV2, openEnvelope domain envelope = some (transaction, id)
        ∧ transaction.isBurn = true ∧ ledger.FreshTicketId block (hexEncode id.val)

/-- A ticket for a height: it is eligible from there on, it can be drawn, and no ticket that is
eligible earlier shares its id. -/
structure TicketFor (tickets : List BurnTicket) (height : ℕ) (ticket : BurnTicket) : Prop where
  mem : ticket ∈ tickets
  eligibleFrom : ticket.eligibleFromHeight = height
  eligibleUntil : height ≤ ticket.eligibleUntilHeight
  amount_pos : 0 < ticket.amount
  own_id : ∀ other ∈ tickets, other.id = ticket.id → height ≤ other.eligibleFromHeight

/-- The pool has a ticket for every height up to the maturity delay after the tip. -/
def Sustains (ledger : Ledger) : Prop :=
  ∀ k, 0 < k → k ≤ ledger.launchProfile.ticketMaturityDelayHeights →
    ∃ ticket, TicketFor ledger.tickets (ledger.tip.height + k) ticket

/-! ## What a block keeps -/

/-- An invalidated id is the id of a ticket that is eligible at the height of the block, the leader
ticket included. -/
lemma eligible_of_mem_invalidatedTicketIds {parent : Block} {tickets : List BurnTicket}
    {leaderTicketId id : Str} (h : id ∈ invalidatedTicketIds parent block tickets leaderTicketId) :
    id = leaderTicketId ∨ ∃ ticket ∈ tickets, ticket.id = id
      ∧ ticketIsEligibleForHeight ticket block.height = true := by
  unfold invalidatedTicketIds at h
  dsimp only at h
  split at h
  · exact .inl (List.mem_singleton.mp h)
  · split at h
    · exact .inl (List.mem_singleton.mp h)
    · obtain ⟨ticket, hticket, rfl⟩ := List.mem_map.mp h
      obtain ⟨hmem, hkeep⟩ := List.mem_filter.mp hticket
      simp only [decide_eq_true_eq] at hkeep
      exact .inr ⟨ticket, hmem, rfl, hkeep.1⟩

/-- A ticket that becomes eligible after a block outlives it, unless it shares its id with a ticket
that is eligible already. -/
lemma future_kept {nowMs : ℕ} {kept : List BurnTicket} (prechecked : ledger.Prechecked block nowMs)
    (h : applyFinalizerTicketEffects ledger.tip block ledger.tickets = .ok kept)
    {height : ℕ} (future : block.height < height) {ticket : BurnTicket}
    (ticketFor : TicketFor ledger.tickets height ticket) : ticket ∈ kept := by
  have hfrom := ticketFor.eligibleFrom
  have huntil := ticketFor.eligibleUntil
  have hnotShared {other : BurnTicket} (hmem : other ∈ ledger.tickets)
      (heligible : ticketIsEligibleForHeight other block.height = true) : other.id ≠ ticket.id := by
    intro heq
    have hlater := ticketFor.own_id other hmem heq
    simp only [ticketIsEligibleForHeight, decide_eq_true_eq] at heligible
    omega
  unfold applyFinalizerTicketEffects at h
  split at h
  · rename_i hmode
    simp only [consumeLeaderTicket, Outcome.bind_eq_ok, Outcome.ofOption_eq_ok,
      Outcome.pure_eq_ok] at h
    obtain ⟨proof, hproof, _, -, rfl⟩ := h
    refine List.mem_filter.mpr ⟨ticketFor.mem, ?_⟩
    simp only [decide_eq_true_eq]
    refine ⟨fun hinvalidated => ?_, by omega⟩
    rcases eligible_of_mem_invalidatedTicketIds hinvalidated with hleader | ⟨other, hmem, heq, helig⟩
    · have hfinalizer := prechecked.finalizer
      simp only [checkFinalizer, hmode, Outcome.bind_eq_ok, Outcome.ofOption_eq_ok,
        Outcome.bailIf_eq_ok, not_not] at hfinalizer
      obtain ⟨selected, hselected, _, -, _, hnamed, -⟩ := hfinalizer
      obtain ⟨hmem, heligible⟩ := mem_rankedTicketsForHeight (List.mem_of_getElem? hselected)
      refine hnotShared hmem heligible ?_
      rw [hproof, Option.map_some, Option.some.injEq] at hnamed
      rw [hleader, hnamed]
    · exact hnotShared hmem helig heq
  · obtain rfl := Outcome.pure_eq_ok.mp h
    refine List.mem_filter.mpr ⟨ticketFor.mem, ?_⟩
    simp only [ticketIsEligibleForHeight, decide_eq_true_eq]
    refine ⟨?_, by omega⟩
    omega

/-! ## What a block adds -/

/-- A decoded v2 burn burns something. -/
lemma burnV2_amount_pos {domain : TransactionV2Domain} {envelope : Str}
    {transaction : TransactionV2} {id : FixedBytes 32}
    (opened : openEnvelope domain envelope = some (transaction, id))
    (isBurn : transaction.isBurn = true) : 0 < transaction.amount := by
  obtain ⟨-, hid⟩ := openEnvelope_eq_some.mp opened
  simp only [TransactionV2.transactionId, TransactionV2.encode, TransactionV2.validateShape,
    Outcome.bind_eq_ok] at hid
  obtain ⟨_, ⟨_, ⟨_, hshape, -⟩, -⟩, -⟩ := hid
  cases transaction with
  | burn inputs change amount fee anchor authorizations =>
    simp only [TransactionV2.validateUnsignedShape, Outcome.bind_eq_ok, Outcome.bailIf_eq_ok,
      not_or] at hshape
    obtain ⟨_, -, _, -, _, -, _, ⟨-, hamount⟩, -⟩ := hshape
    exact Nat.pos_of_ne_zero hamount
  | migration => cases isBurn
  | transfer => cases isBurn
  | mine => cases isBurn

/-- A block that replenishes the pool creates a ticket for the end of the maturity delay, under a
fresh id. -/
lemma replenishes_created {seen : List Str} {middle last : LineageState}
    {domain : TransactionV2Domain} {created : List BurnTicket}
    (staged : ledger.Staged block effects seen middle last domain)
    (h : ticketsCreatedByBlock block ledger.launchProfile = .ok created)
    (replenishes : ledger.Replenishes block) :
    ∃ ticket ∈ created,
      ticket.eligibleFromHeight = block.height + ledger.launchProfile.ticketMaturityDelayHeights
        ∧ ticket.eligibleFromHeight ≤ ticket.eligibleUntilHeight ∧ 0 < ticket.amount
        ∧ ledger.FreshTicketId block ticket.id := by
  have hcreates := h
  simp only [ticketsCreatedByBlock, ticketsCreatedByTransactions, Outcome.bind_eq_ok,
    Outcome.mapM_eq_ok] at hcreates
  obtain ⟨_, ⟨_, _, tickets, htickets, -⟩, ticketsV2, hticketsV2, -⟩ := hcreates
  rcases replenishes with ⟨transaction, htransaction, hburn, hamount, hfresh⟩ |
    ⟨domain', transaction, id, hdomain, envelope, henvelope, hopen, hburn, hfresh⟩
  · obtain ⟨result, -, hresult⟩ := Outcome.exists_image htickets htransaction
    obtain ⟨_, _, hround⟩ := staged.transactions.step_of_mem htransaction
    obtain ⟨-, -, -, happlied, -⟩ := applyBlockTransaction_eq_ok.mp hround
    obtain ⟨-, hsingle, -⟩ := applyTransactionWithLineage_eq_ok.mp happlied
    cases transaction with
    | mine => cases hburn
    | transfer => cases hburn
    | burn inputs change amount fee anchor signature =>
      cases inputs with
      | nil => simp [ensureSingleInputOwner, ensureSingleInputOwnerForInputs, Transaction.inputs]
          at hsingle
      | cons input inputs =>
        have hpositive : amount ≠ 0 := hamount
        rw [ticketOfTransaction, if_neg hpositive] at hresult
        simp only [Outcome.bind_eq_ok, Outcome.pure_eq_ok, Prod.exists] at hresult
        obtain ⟨target, expiry, hwindow, -⟩ := hresult
        obtain ⟨hle, -⟩ := ticketWindow_eq_ok.mp hwindow
        refine ⟨burnTicketAt block.height ledger.launchProfile signature input.owner amount, ?_,
          rfl, Nat.le_add_right _ _, Nat.pos_of_ne_zero hpositive, hfresh⟩
        refine (mem_ticketsCreatedByBlock h).mpr (.inl ⟨_, htransaction, ?_⟩)
        exact ticketOfTransaction_eq_some.mpr ⟨hle, input, inputs, change, amount, fee, anchor,
          signature, rfl, hpositive, rfl⟩
  · obtain ⟨result, -, hresult⟩ := Outcome.exists_image hticketsV2 henvelope
    cases result with
    | none =>
      obtain ⟨hdecoded, -⟩ := openEnvelope_eq_some.mp hopen
      obtain ⟨bytes, hbytes, -, hdecode, -⟩ := decodeCanonicalTransactionV2Envelope_eq_ok.mp hdecoded
      have hdecodeHex : withContext "transaction v2 envelope is not hexadecimal"
          (decodeHex envelope) = .ok bytes := Outcome.mapErr_eq_ok.mpr hbytes
      simp [ticketOfEnvelope, hdecodeHex, hdecode, hburn] at hresult
    | some ticket =>
      obtain ⟨-, -, owner, -, rfl⟩ := (ticketOfEnvelope_eq_some hopen).mp hresult
      exact ⟨_, (mem_ticketsCreatedByBlock h).mpr (.inr ⟨envelope, henvelope, hresult⟩), rfl,
        Nat.le_add_right _ _, burnV2_amount_pos hopen hburn, hfresh⟩

/-! ## The invariant -/

/-- The ids of the pending tickets are mined, once the genesis tickets have expired. -/
def TicketsMined (ledger : Ledger) : Prop :=
  transactionReplayProtectionActivationHeight ≤ ledger.tip.height + 1 →
    ∀ ticket ∈ ledger.tickets, ticket.id ∈ ledger.minedTransactionIds

/-- **One block.** A block that replenishes the pool leaves it with a ticket for each of the next
heights. -/
theorem accepts_sustains (accepts : ledger.Accepts block effects ledger')
    (mined : ledger.TicketsMined) (sustains : ledger.Sustains)
    (replenishes : ledger.Replenishes block) : ledger'.Sustains := by
  obtain ⟨nowMs, prechecked⟩ := accepts.prechecked
  obtain ⟨seen, middle, last, domain, staged⟩ := stageBlock_eq_ok.mp accepts.staged
  obtain ⟨kept, created, hkept, hcreated, htickets⟩ := ticketsAfterBlock_eq_ok.mp staged.tickets
  have hpool : ledger'.tickets = kept ++ created := by rw [accepts.tickets, htickets]
  have hheight := prechecked.height
  have hopened := envelopes_open staged.envelopes
  intro k hpos hle
  rw [accepts.launchProfile] at hle
  rw [accepts.tip, hpool]
  by_cases hlast : k = ledger.launchProfile.ticketMaturityDelayHeights
  · -- the height that comes into view gets the ticket of one of the block's burns
    obtain ⟨ticket, hmem, hfrom, huntil, hamount, hfresh⟩ :=
      replenishes_created staged hcreated replenishes
    refine ⟨ticket, List.mem_append_right _ hmem, by omega, by omega, hamount, ?_⟩
    intro other hother heq
    rcases List.mem_append.mp hother with hother | hother
    · exfalso
      obtain ⟨hold, -⟩ := mem_kept hkept hother
      by_cases hactive : block.height < transactionReplayProtectionActivationHeight
      · exact hfresh hactive other hold heq
      · obtain ⟨-, -, hid⟩ := mem_created staged.transactionV2Domain hopened hcreated hmem
        refine prechecked_ids_new prechecked (not_lt.mp hactive) hid ?_
        rw [← heq]
        exact mined (by omega) other hold
    · have hnew := (mem_created staged.transactionV2Domain hopened hcreated hother).1
      omega
  · -- the others were in view before, one height further away
    obtain ⟨ticket, ticketFor⟩ := sustains (k + 1) (Nat.succ_pos k) (by omega)
    have hkeep := future_kept prechecked hkept (by omega) ticketFor
    obtain ⟨-, hfrom, huntil, hamount, hown⟩ := ticketFor
    refine ⟨ticket, List.mem_append_left _ hkeep, by omega, by omega, hamount, ?_⟩
    intro other hother heq
    rcases List.mem_append.mp hother with hother | hother
    · have hlater := hown other (mem_kept hkept hother).1 heq
      omega
    · have hnew := (mem_created staged.transactionV2Domain hopened hcreated hother).1
      omega

/-- No ticket of a block's pool has expired. -/
lemma accepts_unexpired (accepts : ledger.Accepts block effects ledger')
    (delay : 0 < ledger.launchProfile.ticketMaturityDelayHeights) :
    ∀ ticket ∈ ledger'.tickets, ledger'.tip.height < ticket.eligibleUntilHeight := by
  obtain ⟨seen, middle, last, domain, staged⟩ := stageBlock_eq_ok.mp accepts.staged
  obtain ⟨kept, created, hkept, hcreated, htickets⟩ := ticketsAfterBlock_eq_ok.mp staged.tickets
  intro ticket hticket
  rw [accepts.tickets, htickets, List.mem_append] at hticket
  rw [accepts.tip]
  rcases hticket with hticket | hticket
  · exact (mem_kept hkept hticket).2.1
  · obtain ⟨hfrom, huntil, -⟩ := mem_created staged.transactionV2Domain
      (envelopes_open staged.envelopes) hcreated hticket
    omega

/-- Along a run the pending tickets have not expired, and neither the maturity delay nor the window
of the genesis tickets changes. -/
lemma run_unexpired {genesis ledger : Ledger} {events : List Event} (initial : Initial genesis)
    (delay : 0 < genesis.launchProfile.ticketMaturityDelayHeights)
    (run : Run Step genesis events ledger) :
    ledger.launchProfile = genesis.launchProfile
      ∧ ∀ ticket ∈ ledger.tickets, ledger.tip.height < ticket.eligibleUntilHeight := by
  refine run_track (fun _ ledger => ledger.launchProfile = genesis.launchProfile
    ∧ ∀ ticket ∈ ledger.tickets, ledger.tip.height < ticket.eligibleUntilHeight) run ?_ ?_
    (fun _ _ _ h => h) ?_
  · refine ⟨rfl, ?_⟩
    obtain ⟨htickets, hheight, -⟩ := initial_tickets initial
    obtain ⟨sources, -, hpool⟩ := genesisTickets_bootstrap delay htickets
    intro ticket hticket
    rw [hpool] at hticket
    obtain ⟨index, -, source, -, rfl⟩ := mem_genesisBootstrapTickets.mp hticket
    rw [hheight]
    exact Nat.succ_pos index
  · rintro _ ledger block effects ledger' ⟨hprofile, -⟩ accepts
    exact ⟨accepts.launchProfile.trans hprofile, accepts_unexpired accepts (hprofile ▸ delay)⟩
  · rintro _ ledger recentLimit ⟨hprofile, hunexpired⟩
    exact ⟨by simpa using hprofile, by simpa using hunexpired⟩

/-- From the activation of the replay protection on, the ids of the pending tickets are mined. -/
lemma run_ticketsMined {genesis ledger : Ledger} {events : List Event} (initial : Initial genesis)
    (delay : 0 < genesis.launchProfile.ticketMaturityDelayHeights)
    (short : genesis.launchProfile.ticketMaturityDelayHeights
      < transactionReplayProtectionActivationHeight)
    (run : Run Step genesis events ledger) : ledger.TicketsMined := by
  intro hactive ticket hticket
  rcases run_tickets_mined run ticket hticket with hgenesis | hmined
  · exfalso
    have hunexpired := (run_unexpired initial delay run).2 ticket hticket
    obtain ⟨htickets, -, -⟩ := initial_tickets initial
    obtain ⟨sources, -, hpool⟩ := genesisTickets_bootstrap delay htickets
    rw [hpool] at hgenesis
    obtain ⟨index, hindex, source, -, rfl⟩ := mem_genesisBootstrapTickets.mp hgenesis
    dsimp only at hunexpired
    omega
  · exact hmined

/-- The genesis tickets sustain the first heights, if those of different heights have different
ids. -/
lemma initial_sustains {genesis : Ledger} (initial : Initial genesis)
    (delay : 0 < genesis.launchProfile.ticketMaturityDelayHeights)
    (tickets : genesis.tickets ≠ [])
    (distinct : ∀ ticket ∈ genesis.tickets, ∀ other ∈ genesis.tickets, ticket.id = other.id →
      ticket.eligibleFromHeight = other.eligibleFromHeight) : genesis.Sustains := by
  intro k hpos hle
  obtain ⟨htickets, hheight, -⟩ := initial_tickets initial
  obtain ⟨sources, hsources, hpool⟩ := genesisTickets_bootstrap delay htickets
  rw [hpool] at tickets distinct
  rw [hpool, hheight, Nat.zero_add]
  obtain ⟨ticket, hticket⟩ := List.exists_mem_of_ne_nil _ tickets
  obtain ⟨-, -, source, hsource, -⟩ := mem_genesisBootstrapTickets.mp hticket
  obtain ⟨ticket, hmem, hfrom, huntil, hamount⟩ : ∃ ticket ∈ genesisBootstrapTickets sources
      genesis.launchProfile genesis.tip, ticket.eligibleFromHeight = k
        ∧ ticket.eligibleUntilHeight = k ∧ ticket.amount = source.2.1 := by
    refine ⟨_, mem_genesisBootstrapTickets.mpr ⟨k - 1, by omega, source, hsource, rfl⟩, ?_, ?_, rfl⟩
    · exact Nat.sub_add_cancel hpos
    · exact Nat.sub_add_cancel hpos
  refine ⟨ticket, hmem, hfrom, huntil.ge, hamount ▸ hsources source hsource, ?_⟩
  intro other hother heq
  rw [← hfrom, distinct other hother ticket hmem heq]

/-- **The ticket pool never runs dry.** From a genesis ledger with tickets under the default launch
profile, whose tickets for different heights have different ids, along every run in which each
accepted block replenishes the pool, some ticket is eligible at the next height and can be
drawn. -/
theorem ticket_available {genesis ledger : Ledger} {events : List Event}
    (initial : Initial genesis) (default : genesis.launchProfile = .default)
    (tickets : genesis.tickets ≠ [])
    (distinct : ∀ ticket ∈ genesis.tickets, ∀ other ∈ genesis.tickets, ticket.id = other.id →
      ticket.eligibleFromHeight = other.eligibleFromHeight)
    (run : Run (fun before event after => Step before event after
      ∧ ∀ block, event = .accepted block → before.Replenishes block) genesis events ledger) :
    ∃ ticket ∈ ledger.tickets,
      ticketIsEligibleForHeight ticket (ledger.tip.height + 1) = true ∧ 0 < ticket.amount := by
  have hdelay : 0 < genesis.launchProfile.ticketMaturityDelayHeights := by
    rw [default]
    decide
  have hshort : genesis.launchProfile.ticketMaturityDelayHeights
      < transactionReplayProtectionActivationHeight := by
    rw [default]
    decide
  have htrack := run.track (fun done ledger => Run Step genesis done ledger ∧ ledger.Sustains) ?_
    ⟨.nil _, initial_sustains initial hdelay tickets distinct⟩
  · obtain ⟨hrun, hsustains⟩ := htrack
    obtain ⟨hprofile, -⟩ := run_unexpired initial hdelay hrun
    obtain ⟨ticket, hmem, hfrom, huntil, hamount, -⟩ :=
      hsustains 1 Nat.one_pos (by rw [hprofile]; exact hdelay)
    refine ⟨ticket, hmem, ?_, hamount⟩
    simp only [ticketIsEligibleForHeight, decide_eq_true_eq]
    exact ⟨hfrom.le, huntil⟩
  · rintro done ledger event ledger' ⟨hrun, hsustains⟩ ⟨step, hreplenishes⟩
    refine ⟨hrun.snoc step, ?_⟩
    cases event with
    | accepted block =>
      obtain ⟨effects, accepts⟩ := step_accepted step
      exact accepts_sustains accepts (run_ticketsMined initial hdelay hshort hrun) hsustains
        (hreplenishes block rfl)
    | known block => rwa [step_known step]
    | poolsChanged pools =>
      cases step
      exact hsustains
    | historyPruned recentLimit =>
      cases step
      intro k hpos hle
      simpa using hsustains k hpos (by simpa using hle)

end Ledger

end Iuna

namespace Iuna.Toy

open Runs

attribute [local instance] crypto

set_option maxRecDepth 10000 in
lemma genesis_tickets : genesis.launchProfile = .default ∧ genesis.tickets ≠ []
    ∧ (∀ ticket ∈ genesis.tickets, ∀ other ∈ genesis.tickets, ticket.id = other.id →
      ticket.eligibleFromHeight = other.eligibleFromHeight)
    ∧ (burnAllocation microIuna 1).burned ≠ 0
    ∧ ∀ ticket ∈ genesis.tickets, ticket.id ≠ (burnAllocation microIuna 1).signature := by
  decide +kernel

lemma block_replenishes : genesis.Replenishes block :=
  .inl ⟨burnAllocation microIuna 1, List.mem_cons_self, rfl, genesis_tickets.2.2.2.1,
    fun _ => genesis_tickets.2.2.2.2⟩

/-- The burn of the allocation keeps the pool alive. -/
theorem ticket_available_ledger :
    ∃ ticket ∈ ledger.tickets,
      ticketIsEligibleForHeight ticket (ledger.tip.height + 1) = true ∧ 0 < ticket.amount := by
  refine Ledger.ticket_available genesis_initial genesis_tickets.1 genesis_tickets.2.1
    genesis_tickets.2.2.1 (.cons (a := .accepted block) ⟨block_accepted, ?_⟩ (.nil ledger))
  rintro _ ⟨⟩
  exact block_replenishes

/-- Burns of nothing, each with the change of the one before. -/
def emptyBurn : ℕ → Transaction
  | 0 => burnAllocation 0 1
  | n + 1 => signedBurn [⟨(emptyBurn n).signature, 0⟩] [⟨owner, allocation - (n + 2)⟩] 0 1

def emptyBurnBlock (ledger : Ledger) : Block :=
  ledger.recoveryBlock owner [emptyBurn ledger.tip.height] 1

def drain : Result (List Block × Ledger) :=
  Ledger.acceptEach [emptyBurnBlock, emptyBurnBlock, emptyBurnBlock] genesis

set_option maxRecDepth 10000 in
lemma drain_tickets : drain.toOption.map (fun drained => drained.2.tickets) = some [] := by
  decide +kernel

/-- **A pool that runs dry.** Three blocks are accepted, each with a burn of nothing, and no ticket
is left. -/
theorem pool_drained :
    Ledger.Initial genesis ∧ genesis.launchProfile = .default ∧ genesis.tickets ≠ []
      ∧ ∃ events drained, Run Ledger.Step genesis events drained ∧ ¬ ∃ ticket ∈ drained.tickets,
        ticketIsEligibleForHeight ticket (drained.tip.height + 1) = true := by
  refine ⟨genesis_initial, genesis_tickets.1, genesis_tickets.2.1, ?_⟩
  have htickets := drain_tickets
  cases hdrain : drain with
  | error failure =>
    rw [hdrain] at htickets
    cases htickets
  | ok drained =>
    obtain ⟨blocks, last⟩ := drained
    rw [hdrain] at htickets
    refine ⟨_, last, Ledger.run_of_acceptEach hdrain, ?_⟩
    rw [show last.tickets = [] from Option.some.inj htickets]
    rintro ⟨_, ⟨⟩, -⟩

end Iuna.Toy
