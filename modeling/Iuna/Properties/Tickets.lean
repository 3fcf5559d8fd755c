import Iuna.Properties.Effects

/-!
# The ticket pool after a block

`ticketsAfterBlock_eq_ok` splits the pool after a block into the tickets that were kept and those
that the burns of the block created.  A ticket that was kept is one of the old ones and does not
have the id of the leader ticket (`mem_kept`); a created one is eligible from the maturity delay
after the block on, and its id is the id of a burn of the block (`mem_created`).
-/

namespace Iuna

/-! ## Created tickets -/

/-- The signatures of the legacy transactions of a block. -/
def Block.signatures (block : Block) : List Str := block.transactions.map Transaction.signature

lemma ticketWindow_eq_ok {blockHeight : ℕ} {profile : LaunchProfile} {window : ℕ × ℕ} :
    ticketWindow blockHeight profile = .ok window ↔
      blockHeight + profile.ticketMaturityDelayHeights
          + (profile.ticketExpiryWindowHeights - 1) ≤ u64Max
        ∧ window = (blockHeight + profile.ticketMaturityDelayHeights,
          blockHeight + profile.ticketMaturityDelayHeights
            + (profile.ticketExpiryWindowHeights - 1)) := by
  simp only [ticketWindow, Outcome.bind_eq_ok, Outcome.ofOption_eq_ok, checkedAdd_eq_some,
    Outcome.pure_eq_ok]
  constructor
  · rintro ⟨_, ⟨rfl, -⟩, _, ⟨rfl, hle⟩, rfl⟩
    exact ⟨hle, rfl⟩
  · rintro ⟨hle, rfl⟩
    exact ⟨_, ⟨rfl, (Nat.le_add_right _ _).trans hle⟩, _, ⟨rfl, hle⟩, rfl⟩

/-- The ticket of a burn at a height, when its window does not overflow. -/
def burnTicketAt (blockHeight : ℕ) (profile : LaunchProfile) (id owner : Str) (amount : Amount) :
    BurnTicket where
  id := id
  owner := owner
  amount := amount
  eligibleFromHeight := blockHeight + profile.ticketMaturityDelayHeights
  eligibleUntilHeight := blockHeight + profile.ticketMaturityDelayHeights
    + (profile.ticketExpiryWindowHeights - 1)

/-- Of the legacy transactions exactly the burns of a positive amount with an input create a
ticket. -/
lemma ticketOfTransaction_eq_some {blockHeight : ℕ} {profile : LaunchProfile}
    {transaction : Transaction} {ticket : BurnTicket} :
    ticketOfTransaction blockHeight profile transaction = .ok (some ticket) ↔
      blockHeight + profile.ticketMaturityDelayHeights
          + (profile.ticketExpiryWindowHeights - 1) ≤ u64Max ∧
      ∃ input inputs change amount fee anchor signature,
        transaction = .burn (input :: inputs) change amount fee anchor signature ∧ amount ≠ 0
          ∧ ticket = burnTicketAt blockHeight profile signature input.owner amount := by
  constructor
  · intro h
    unfold ticketOfTransaction at h
    split at h
    · rename_i input inputs change amount fee anchor signature
      split at h
      · simp at h
      · rename_i hamount
        simp only [Outcome.bind_eq_ok, Outcome.pure_eq_ok, Option.some.injEq] at h
        obtain ⟨window, hwindow, rfl⟩ := h
        obtain ⟨hle, rfl⟩ := ticketWindow_eq_ok.mp hwindow
        exact ⟨hle, input, inputs, change, amount, fee, anchor, signature, rfl, hamount, rfl⟩
    · simp at h
  · rintro ⟨hle, input, inputs, change, amount, fee, anchor, signature, rfl, hamount, rfl⟩
    simp only [ticketOfTransaction, hamount, if_false, Outcome.bind_eq_ok, Outcome.pure_eq_ok]
    exact ⟨_, ticketWindow_eq_ok.mpr ⟨hle, rfl⟩, rfl⟩

variable [Crypto]

omit [Crypto] in
lemma decodeCanonicalTransactionV2Envelope_eq_ok {envelope : Str} {domain : TransactionV2Domain}
    {transaction : TransactionV2} :
    decodeCanonicalTransactionV2Envelope envelope domain = .ok transaction ↔
      ∃ bytes, decodeHex envelope = .ok bytes ∧ hexEncode bytes = envelope
        ∧ TransactionV2.decode bytes = .ok (domain, transaction)
        ∧ transaction.encode domain = .ok bytes := by
  simp only [decodeCanonicalTransactionV2Envelope, withContext, Outcome.bind_eq_ok,
    Outcome.mapErr_eq_ok, Outcome.bailIf_eq_ok, not_not, exists_const, Outcome.pure_eq_ok,
    Prod.exists]
  constructor
  · rintro ⟨bytes, hbytes, hcanonical, domain', transaction', hdecode, rfl, encoded, hencode, rfl,
      rfl⟩
    exact ⟨_, hbytes, hcanonical, hdecode, hencode⟩
  · rintro ⟨bytes, hbytes, hcanonical, hdecode, hencode⟩
    exact ⟨bytes, hbytes, hcanonical, domain, transaction, hdecode, rfl, bytes, hencode, rfl, rfl⟩

/-- Of the v2 transactions exactly the burns create a ticket. -/
lemma ticketOfEnvelope_eq_some {blockHeight : ℕ} {profile : LaunchProfile} {envelope : Str}
    {domain : TransactionV2Domain} {transaction : TransactionV2} {id : FixedBytes 32}
    {ticket : BurnTicket} (opened : openEnvelope domain envelope = some (transaction, id)) :
    ticketOfEnvelope blockHeight profile envelope = .ok (some ticket) ↔
      blockHeight + profile.ticketMaturityDelayHeights
          + (profile.ticketExpiryWindowHeights - 1) ≤ u64Max ∧
      transaction.isBurn = true ∧ ∃ owner, transaction.burnLegacyOwner = .ok (some owner)
        ∧ ticket = burnTicketAt blockHeight profile (hexEncode id.val) owner
          transaction.amount := by
  obtain ⟨hdecoded, hid⟩ := openEnvelope_eq_some.mp opened
  obtain ⟨bytes, hbytes, -, hdecode, -⟩ := decodeCanonicalTransactionV2Envelope_eq_ok.mp hdecoded
  have hdecodeHex : withContext "transaction v2 envelope is not hexadecimal" (decodeHex envelope)
      = .ok bytes := Outcome.mapErr_eq_ok.mpr hbytes
  simp only [ticketOfEnvelope, hdecodeHex, hdecode, Outcome.bind_eq_ok, Except.ok.injEq,
    exists_eq_left']
  by_cases hburn : transaction.isBurn = false
  · simp [hburn]
  · rw [if_neg hburn]
    simp only [hid, Outcome.bind_eq_ok, Outcome.ofOption_eq_ok, Outcome.pure_eq_ok,
      Except.ok.injEq, exists_eq_left', Option.some.injEq, ticketWindow_eq_ok]
    constructor
    · rintro ⟨_, howner, owner, rfl, window, ⟨hle, rfl⟩, rfl⟩
      exact ⟨hle, by simpa using hburn, owner, howner, rfl⟩
    · rintro ⟨hle, -, owner, howner, rfl⟩
      exact ⟨_, howner, owner, rfl, _, ⟨hle, rfl⟩, rfl⟩

/-- What a block creates comes from one of its transactions. -/
lemma mem_ticketsCreatedByBlock {block : Block} {profile : LaunchProfile}
    {created : List BurnTicket} (h : ticketsCreatedByBlock block profile = .ok created)
    {ticket : BurnTicket} :
    ticket ∈ created ↔
      (∃ transaction ∈ block.transactions,
        ticketOfTransaction block.height profile transaction = .ok (some ticket)) ∨
      ∃ envelope ∈ block.transactionsV2,
        ticketOfEnvelope block.height profile envelope = .ok (some ticket) := by
  have hcollect {α : Type} {f : α → Result (Option BurnTicket)} {xs : List α}
      {ys : List (Option BurnTicket)} (hys : List.Forall₂ (fun x y => f x = .ok y) xs ys) :
      ticket ∈ ys.filterMap id ↔ ∃ x ∈ xs, f x = .ok (some ticket) := by
    induction hys with
    | nil => simp
    | @cons _ found _ _ head _ ih =>
      rw [List.exists_mem_cons_iff, head, ← ih]
      cases found with
      | none => simp
      | some found => simp [eq_comm]
  simp only [ticketsCreatedByBlock, ticketsCreatedByTransactions, Outcome.bind_eq_ok,
    Outcome.pure_eq_ok, Outcome.mapM_eq_ok] at h
  obtain ⟨_, ⟨_, _, tickets, htickets, rfl⟩, ticketsV2, hticketsV2, rfl⟩ := h
  rw [List.mem_append, hcollect htickets, hcollect hticketsV2]

/-- A bootstrap ticket stands for one of the heights up to the maturity delay. -/
lemma mem_genesisBootstrapTickets {sourceTickets : List (Str × Amount × Str)}
    {profile : LaunchProfile} {genesis : Block} {ticket : BurnTicket} :
    ticket ∈ genesisBootstrapTickets sourceTickets profile genesis ↔
      ∃ index < profile.ticketMaturityDelayHeights, ∃ source ∈ sourceTickets,
        ticket = {
          id := hexHash (colons [str "iuna-genesis-bootstrap-ticket", genesis.hash, source.2.2,
            decimal (index + 1)])
          owner := source.1
          amount := source.2.1
          eligibleFromHeight := index + 1
          eligibleUntilHeight := index + 1 } := by
  simp only [genesisBootstrapTickets, List.mem_flatMap, List.mem_range, List.mem_map, eq_comm]

/-- With a positive maturity delay the genesis tickets are bootstrap tickets, of positive
amounts. -/
lemma genesisTickets_bootstrap {genesisAllocations : BTreeMap Str Amount} {genesis : Block}
    {profile : LaunchProfile} {tickets : List BurnTicket}
    (delay : 0 < profile.ticketMaturityDelayHeights)
    (h : genesisTickets genesisAllocations genesis profile = .ok tickets) :
    ∃ sources, (∀ source ∈ sources, 0 < source.2.1)
      ∧ tickets = genesisBootstrapTickets sources profile genesis := by
  rw [genesisTickets, if_neg (Nat.ne_of_gt delay)] at h
  dsimp only at h
  split at h
  · obtain rfl := Outcome.pure_eq_ok.mp h
    refine ⟨_, fun source hsource => ?_, rfl⟩
    obtain ⟨transaction, -, hburn⟩ := List.mem_filterMap.mp hsource
    unfold genesisBurnTicket at hburn
    split at hburn
    · split at hburn
      · rename_i hpos
        obtain rfl := Option.some.inj hburn
        exact hpos
      · cases hburn
    · cases hburn
  · split at h
    · obtain rfl := Outcome.pure_eq_ok.mp h
      refine ⟨[], by simp, ?_⟩
      simp [genesisBootstrapTickets]
    · obtain rfl := Outcome.pure_eq_ok.mp h
      exact ⟨_, by simp, rfl⟩

/-- A genesis ticket is eligible by the end of the maturity delay. -/
lemma genesisTickets_eligibleFrom {genesisAllocations : BTreeMap Str Amount} {genesis : Block}
    {profile : LaunchProfile} {tickets : List BurnTicket} (hheight : genesis.height = 0)
    (hnoV2 : genesis.transactionsV2 = [])
    (h : genesisTickets genesisAllocations genesis profile = .ok tickets) :
    ∀ ticket ∈ tickets, ticket.eligibleFromHeight ≤ profile.ticketMaturityDelayHeights := by
  intro ticket hticket
  have hall := h
  unfold genesisTickets at h
  split at h
  · rcases (mem_ticketsCreatedByBlock h).mp hticket with ⟨_, _, hcreated⟩ | ⟨_, henvelope, _⟩
    · obtain ⟨-, _, _, _, _, _, _, _, _, _, rfl⟩ := ticketOfTransaction_eq_some.mp hcreated
      rw [burnTicketAt, hheight, Nat.zero_add]
    · rw [hnoV2] at henvelope
      cases henvelope
  · rename_i hdelay
    rw [← ne_eq, ← Nat.pos_iff_ne_zero] at hdelay
    obtain ⟨sources, -, rfl⟩ := genesisTickets_bootstrap hdelay hall
    obtain ⟨index, hindex, source, -, rfl⟩ := mem_genesisBootstrapTickets.mp hticket
    exact hindex

namespace Ledger

variable {ledger : Ledger} {block : Block} {tickets : List BurnTicket}

/-- The ids of the v2 transactions of a block, in the domain of the ledger. -/
def transactionV2Ids (ledger : Ledger) (block : Block) : List Str :=
  match ledger.transactionV2Domain with
  | .error _ => []
  | .ok domain => block.transactionsV2.filterMap fun envelope =>
    (openEnvelope domain envelope).map fun opened => hexEncode opened.2.val

/-- The pool of a genesis ledger is that of its one block, which has the height zero and no v2
transactions. -/
lemma initial_tickets (initial : Initial ledger) :
    genesisTickets ledger.genesisAllocations ledger.tip ledger.launchProfile = .ok ledger.tickets
      ∧ ledger.tip.height = 0 ∧ ledger.tip.transactionsV2 = [] := by
  obtain ⟨allocations, genesis, _, _, _, _, _, _, _, hgenesis, _, htickets, rfl⟩ :=
    initial_eq initial
  refine ⟨htickets, ?_, ?_⟩
  · exact (congrArg Block.height hgenesis).trans rfl
  · exact (congrArg Block.transactionsV2 hgenesis).trans rfl

lemma ticketsAfterBlock_eq_ok :
    ledger.ticketsAfterBlock block = .ok tickets ↔
      ∃ kept created, applyFinalizerTicketEffects ledger.tip block ledger.tickets = .ok kept
        ∧ ticketsCreatedByBlock block ledger.launchProfile = .ok created
        ∧ tickets = kept ++ created := by
  simp only [ticketsAfterBlock, Outcome.bind_eq_ok, Outcome.pure_eq_ok]
  constructor
  · rintro ⟨kept, hkept, created, hcreated, rfl⟩
    exact ⟨kept, created, hkept, hcreated, rfl⟩
  · rintro ⟨kept, created, hkept, hcreated, rfl⟩
    exact ⟨kept, hkept, created, hcreated, rfl⟩

/-- A ticket that a block creates is eligible from the maturity delay on, and is named by a burn of
the block. -/
lemma mem_created {domain : TransactionV2Domain} {created : List BurnTicket}
    (hdomain : ledger.transactionV2Domain = .ok domain)
    (opened : ∀ envelope ∈ block.transactionsV2, ∃ transaction id,
      openEnvelope domain envelope = some (transaction, id))
    (h : ticketsCreatedByBlock block ledger.launchProfile = .ok created) {ticket : BurnTicket}
    (hticket : ticket ∈ created) :
    ticket.eligibleFromHeight = block.height + ledger.launchProfile.ticketMaturityDelayHeights
      ∧ ticket.eligibleFromHeight ≤ ticket.eligibleUntilHeight
      ∧ ticket.id ∈ block.signatures ++ ledger.transactionV2Ids block := by
  rw [List.mem_append]
  rcases (mem_ticketsCreatedByBlock h).mp hticket with
    ⟨transaction, htransaction, hcreated⟩ | ⟨envelope, henvelope, hcreated⟩
  · obtain ⟨-, input, inputs, change, amount, fee, anchor, signature, rfl, -, rfl⟩ :=
      ticketOfTransaction_eq_some.mp hcreated
    exact ⟨rfl, Nat.le_add_right _ _, .inl (List.mem_map_of_mem (f := Transaction.signature) htransaction)⟩
  · obtain ⟨transaction, id, hopen⟩ := opened envelope henvelope
    obtain ⟨-, -, owner, -, rfl⟩ := (ticketOfEnvelope_eq_some hopen).mp hcreated
    refine ⟨rfl, Nat.le_add_right _ _, .inr ?_⟩
    rw [transactionV2Ids, hdomain]
    exact List.mem_filterMap.mpr ⟨envelope, henvelope, by rw [hopen]; rfl⟩

/-! ## The leader ticket -/

/-- The ticket that finalizes a block, the one that was drawn for its rank. -/
def leaderTicket (ledger : Ledger) (block : Block) : Option BurnTicket :=
  match block.finalizerMode with
  | .ticket => ledger.ticketForFinalizerRank block.height block.finalizerRank
  | .recovery => none

/-- The leader ticket of a checked block is in the pool, it is eligible, and the proof of the block
names it. -/
lemma leaderTicket_eq_some {nowMs : ℕ} (prechecked : ledger.Prechecked block nowMs)
    {ticket : BurnTicket} (h : ledger.leaderTicket block = some ticket) :
    block.finalizerMode = .ticket ∧ ticket ∈ ledger.tickets
      ∧ ticketIsEligibleForHeight ticket block.height = true
      ∧ block.leaderProof.map LeaderProof.ticketId = some ticket.id := by
  unfold leaderTicket at h
  split at h
  · rename_i hmode
    obtain ⟨hmem, heligible⟩ := mem_rankedTicketsForHeight (List.mem_of_getElem? h)
    have hfinalizer := prechecked.finalizer
    simp only [checkFinalizer, hmode, h, Outcome.bind_eq_ok, Outcome.ofOption_eq_ok,
      Outcome.bailIf_eq_ok, not_not, Option.some.injEq, exists_eq_left'] at hfinalizer
    obtain ⟨_, _, _, hproof, _⟩ := hfinalizer
    exact ⟨hmode, hmem, heligible, hproof⟩
  · cases h

/-- The id of the leader ticket is among those that a ticket block invalidates. -/
lemma mem_invalidatedTicketIds (parent block : Block) (tickets : List BurnTicket)
    (leaderTicketId : Str) :
    leaderTicketId ∈ invalidatedTicketIds parent block tickets leaderTicketId := by
  unfold invalidatedTicketIds
  dsimp only
  split
  · exact List.mem_singleton_self _
  · rename_i finalizerIndex hindex
    split
    · exact List.mem_singleton_self _
    · obtain ⟨hlt, hid, -⟩ := List.findIdx?_eq_some_iff_getElem.mp hindex
      have hid : (rankedTicketsForHeight parent block.height tickets)[finalizerIndex].id
          = leaderTicketId := by simpa using hid
      obtain ⟨hmem, heligible⟩ := mem_rankedTicketsForHeight (List.getElem_mem hlt)
      refine List.mem_map.mpr ⟨_, List.mem_filter.mpr ⟨hmem, ?_⟩, hid⟩
      simp only [heligible, decide_eq_true_eq, true_and]
      exact List.mem_map_of_mem (List.mem_take_iff_getElem.mpr ⟨finalizerIndex, by omega, rfl⟩)

/-- A ticket that a block keeps was in the pool, it has not expired, and it is not named like the
leader ticket. -/
lemma mem_kept {kept : List BurnTicket}
    (h : applyFinalizerTicketEffects ledger.tip block ledger.tickets = .ok kept)
    {ticket : BurnTicket} (hticket : ticket ∈ kept) :
    ticket ∈ ledger.tickets ∧ block.height < ticket.eligibleUntilHeight
      ∧ (block.finalizerMode = .ticket →
        block.leaderProof.map LeaderProof.ticketId ≠ some ticket.id) := by
  unfold applyFinalizerTicketEffects at h
  split at h
  · simp only [consumeLeaderTicket, Outcome.bind_eq_ok, Outcome.ofOption_eq_ok,
      Outcome.pure_eq_ok] at h
    obtain ⟨proof, hproof, _, -, rfl⟩ := h
    obtain ⟨hmem, hkeep⟩ := List.mem_filter.mp hticket
    simp only [decide_eq_true_eq] at hkeep
    refine ⟨hmem, hkeep.2, fun _ heq => hkeep.1 ?_⟩
    obtain hid : proof.ticketId = ticket.id := by simpa [hproof] using heq
    rw [← hid]
    exact mem_invalidatedTicketIds _ _ _ _
  · rename_i hmode
    obtain rfl := Outcome.pure_eq_ok.mp h
    obtain ⟨hmem, hkeep⟩ := List.mem_filter.mp hticket
    simp only [decide_eq_true_eq] at hkeep
    refine ⟨hmem, hkeep.2, fun hticketMode => ?_⟩
    rw [hmode] at hticketMode
    cases hticketMode

end Ledger

end Iuna
