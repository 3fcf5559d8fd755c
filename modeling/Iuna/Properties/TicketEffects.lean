import Iuna.Properties.TicketPool
import Mathlib.Algebra.Order.BigOperators.Group.List

/-!
# Ranks and the effects of a block on the tickets

The ranking draws until no weight is left, so it orders exactly the eligible tickets of positive
weight (`rankedTickets_perm`).  A ticket block consumes its winning ticket and, as a fallback from
the activation on, the eligible tickets of all owners ranked up to it, its own included; what is
consumed is named by ids (`Consumed`), and under distinct ids these are the tickets themselves
(`consumed_iff`).  The rest of the pool stays as it is, and the burns of the block add one ticket
each.
-/

namespace Iuna

variable [Crypto]

/-! ## The ranking -/

omit [Crypto] in
lemma checkedTotalWeight_eq {weights : List ℕ} (fits : weights.sum ≤ u128Max) :
    checkedTotalWeight weights = some weights.sum := by
  have hfold (weights : List ℕ) (start : ℕ) (fits : start + weights.sum ≤ u128Max) :
      weights.foldlM (fun total weight =>
        if total + weight ≤ u128Max then some (total + weight) else none) start
        = some (start + weights.sum) := by
    induction weights generalizing start with
    | nil => rfl
    | cons weight weights ih =>
      rw [List.sum_cons] at fits ⊢
      rw [List.foldlM_cons, if_pos (by omega), Option.bind_eq_bind, Option.bind_some,
        ih _ (by omega), Nat.add_assoc]
  rw [checkedTotalWeight, hfold weights 0 (by omega), Nat.zero_add]

omit [Crypto] in
/-- A draw below the total weight hits a position of positive weight. -/
lemma indexOfDraw_of_lt {draw cumulative : ℕ} {weights : List ℕ}
    (fits : cumulative + weights.sum ≤ u128Max) (after : cumulative ≤ draw)
    (below : draw < cumulative + weights.sum) :
    ∃ index weight, indexOfDraw draw cumulative weights = some index
      ∧ weights[index]? = some weight ∧ 0 < weight := by
  induction weights generalizing cumulative with
  | nil => simp at below; omega
  | cons weight weights ih =>
    rw [List.sum_cons] at fits below
    rw [indexOfDraw, if_neg (by omega)]
    by_cases hhit : draw < cumulative + weight
    · exact ⟨0, weight, if_pos hhit, rfl, by omega⟩
    · obtain ⟨index, found, hindex, hfound, hpos⟩ := ih (by omega) (not_lt.mp hhit) (by omega)
      exact ⟨index + 1, found, by rw [if_neg hhit, hindex]; rfl, hfound, hpos⟩

/-- The draw fails exactly when there is no weight, and hits a positive one otherwise. -/
lemma selectWeightedIndex_cases (seed : Str) {weights : List ℕ} (fits : weights.sum ≤ u128Max) :
    (weights.sum = 0 ∧ selectWeightedIndex seed weights = none) ∨
      ∃ index weight, selectWeightedIndex seed weights = some index
        ∧ weights[index]? = some weight ∧ 0 < weight := by
  unfold selectWeightedIndex
  rw [checkedTotalWeight_eq fits]
  cases htotal : weights.sum with
  | zero => exact .inl ⟨rfl, rfl⟩
  | succ total =>
    have hbelow : drawBelow seed (total + 1) < 0 + weights.sum := by
      rw [htotal, Nat.zero_add]
      exact Nat.mod_lt _ (Nat.succ_pos _)
    exact .inr (indexOfDraw_of_lt (by omega) (Nat.zero_le _) hbelow)

/-- The draws order the tickets of positive weight. -/
lemma drawRanked_perm (parentRandomness : Str) (targetHeight rank : ℕ)
    (remaining : List BurnTicket)
    (fits : (remaining.map BurnTicket.amount).sum ≤ u128Max) :
    (drawRanked parentRandomness targetHeight remaining.length rank remaining).Perm
      (remaining.filter fun ticket => 0 < ticket.amount) := by
  induction hlength : remaining.length generalizing rank remaining with
  | zero =>
    obtain rfl := List.length_eq_zero_iff.mp hlength
    exact .refl _
  | succ n ih =>
    unfold drawRanked
    rcases selectWeightedIndex_cases
        (ticketDrawSeedFromRandomness parentRandomness targetHeight rank) fits with
      ⟨hzero, hnone⟩ | ⟨index, weight, hindex, hweight, hpos⟩
    · have hfilter : (remaining.filter fun ticket => 0 < ticket.amount) = [] := by
        rw [List.filter_eq_nil_iff]
        intro ticket hticket
        have := (List.sum_eq_zero_iff_forall_eq_nat.mp hzero) _ (List.mem_map_of_mem hticket)
        simp [this]
      rw [selectWeightedTicketIndex, hnone, hfilter]
    · rw [List.getElem?_map, Option.map_eq_some_iff] at hweight
      obtain ⟨ticket, hticket, rfl⟩ := hweight
      obtain ⟨hlt, hget⟩ := List.getElem?_eq_some_iff.mp hticket
      have hperm : (ticket :: remaining.eraseIdx index).Perm remaining := by
        rw [← hget]
        exact List.getElem_cons_eraseIdx_perm hlt
      have hsum : ((remaining.eraseIdx index).map BurnTicket.amount).sum ≤ u128Max := by
        have heq := (hperm.map BurnTicket.amount).sum_eq
        rw [List.map_cons, List.sum_cons] at heq
        exact (Nat.le_add_left _ _).trans (heq.le.trans fits)
      have hrest := ih (rank + 1) (remaining.eraseIdx index) hsum (by
        rw [List.length_eraseIdx_of_lt hlt, hlength]
        rfl)
      rw [selectWeightedTicketIndex, hindex]
      dsimp only
      rw [hticket, Option.toList_some, List.singleton_append]
      refine (hrest.cons ticket).trans (.trans ?_ (hperm.filter _))
      rw [List.filter_cons_of_pos (by simpa using hpos)]

/-- **The ranking** orders exactly the eligible tickets of positive weight. -/
theorem rankedTickets_perm (parentRandomness : Str) (targetHeight : ℕ) {tickets : List BurnTicket}
    (fits : (tickets.map BurnTicket.amount).sum ≤ u128Max) :
    (rankedTicketsForParentRandomness parentRandomness targetHeight tickets).Perm
      (tickets.filter fun ticket =>
        ticketIsEligibleForHeight ticket targetHeight ∧ 0 < ticket.amount) := by
  have hsub : (tickets.filter fun ticket => ticketIsEligibleForHeight ticket targetHeight).Sublist
      tickets := List.filter_sublist
  have hperm := drawRanked_perm parentRandomness targetHeight 0 _
    ((hsub.map BurnTicket.amount).sum_le_sum (fun _ _ => Nat.zero_le _) |>.trans fits)
  rw [List.filter_filter] at hperm
  have hswap : (tickets.filter fun ticket => decide (0 < ticket.amount)
        && ticketIsEligibleForHeight ticket targetHeight)
      = tickets.filter fun ticket =>
        ticketIsEligibleForHeight ticket targetHeight ∧ 0 < ticket.amount := by
    refine List.filter_congr fun ticket _ => ?_
    simp [Bool.and_comm]
  rw [← hswap]
  exact hperm

/-! ## What a block consumes -/

/-- The rank of an id: the first position in the ranking that has it. -/
def rankOfId (parent block : Block) (tickets : List BurnTicket) (id : Str) : Option ℕ :=
  (rankedTicketsForHeight parent block.height tickets).findIdx? fun ticket => ticket.id = id

/-- The owners of the tickets ranked up to a rank, this rank included. -/
def ownersUpTo (parent block : Block) (tickets : List BurnTicket) (rank : ℕ) : List Str :=
  ((rankedTicketsForHeight parent block.height tickets).take (rank + 1)).map BurnTicket.owner

/-- The ids that a ticket block with a leader ticket consumes. -/
inductive Consumed (parent block : Block) (tickets : List BurnTicket) (leaderId : Str) : Str → Prop
  | winner : Consumed parent block tickets leaderId leaderId
  | missed {rank : ℕ} {ticket : BurnTicket}
      (active : missedFallbackTicketInvalidationHeight ≤ block.height)
      (ranked : rankOfId parent block tickets leaderId = some rank) (fallback : 0 < rank)
      (mem : ticket ∈ tickets) (eligible : ticketIsEligibleForHeight ticket block.height = true)
      (owned : ticket.owner ∈ ownersUpTo parent block tickets rank) :
      Consumed parent block tickets leaderId ticket.id

variable {parent block : Block} {tickets : List BurnTicket}

/-- The ids that the code collects are the consumed ones. -/
lemma mem_invalidated_iff {leaderId id : Str} :
    id ∈ invalidatedTicketIds parent block tickets leaderId ↔
      Consumed parent block tickets leaderId id := by
  constructor
  · intro hid
    unfold invalidatedTicketIds at hid
    dsimp only at hid
    split at hid
    · rw [List.mem_singleton.mp hid]
      exact .winner
    · rename_i rank hrank
      split at hid
      · rw [List.mem_singleton.mp hid]
        exact .winner
      · rename_i hfallback
        obtain ⟨ticket, hticket, rfl⟩ := List.mem_map.mp hid
        simp only [List.mem_filter, decide_eq_true_eq] at hticket
        exact .missed (by omega) hrank (by omega) hticket.1 hticket.2.1 hticket.2.2
  · intro hconsumed
    cases hconsumed with
    | winner => exact Ledger.mem_invalidatedTicketIds _ _ _ _
    | @missed rank ticket active ranked fallback mem eligible owned =>
      unfold invalidatedTicketIds
      rw [rankOfId] at ranked
      dsimp only
      rw [ranked]
      dsimp only
      rw [if_neg (by omega)]
      exact List.mem_map_of_mem (List.mem_filter.mpr ⟨mem, decide_eq_true ⟨eligible, owned⟩⟩)

/-- The ranking has no ticket of the pool more often than the pool. -/
lemma rankedTickets_ids_nodup (fits : (tickets.map BurnTicket.amount).sum ≤ u128Max)
    (distinct : (tickets.map BurnTicket.id).Nodup) :
    ((rankedTicketsForHeight parent block.height tickets).map BurnTicket.id).Nodup := by
  have hperm := rankedTickets_perm (drawParentRandomness parent block.height) block.height fits
  exact (hperm.map BurnTicket.id).nodup_iff.mpr
    (distinct.sublist ((List.filter_sublist).map BurnTicket.id))

omit [Crypto] in
lemma eq_of_id {ticket ticket' : BurnTicket} (distinct : (tickets.map BurnTicket.id).Nodup)
    (mem : ticket ∈ tickets) (mem' : ticket' ∈ tickets) (same : ticket.id = ticket'.id) :
    ticket = ticket' :=
  List.inj_on_of_nodup_map distinct mem mem' same

/-- Under distinct ids the id of the ticket of a rank has this rank. -/
lemma rankOfId_eq (fits : (tickets.map BurnTicket.amount).sum ≤ u128Max)
    (distinct : (tickets.map BurnTicket.id).Nodup) {rank : ℕ} {winner : BurnTicket}
    (selected : (rankedTicketsForHeight parent block.height tickets)[rank]? = some winner) :
    rankOfId parent block tickets winner.id = some rank := by
  obtain ⟨hlt, hget⟩ := List.getElem?_eq_some_iff.mp selected
  refine List.findIdx?_eq_some_iff_getElem.mpr ⟨hlt, by simp [hget], ?_⟩
  intro earlier hearlier hsame
  have hnodup : ((rankedTicketsForHeight parent block.height tickets).map BurnTicket.id).Nodup :=
    rankedTickets_ids_nodup fits distinct
  have hids : ((rankedTicketsForHeight parent block.height tickets).map BurnTicket.id)[earlier]?
      = ((rankedTicketsForHeight parent block.height tickets).map BurnTicket.id)[rank]? := by
    rw [List.getElem?_map, List.getElem?_map, selected, List.getElem?_eq_getElem (by omega)]
    simpa using hsame
  have := (List.getElem?_inj (by rw [List.length_map]; omega) hnodup).mp hids
  omega

/-- Under distinct ids what a fallback consumes are the eligible tickets of the owners ranked up to
the finalizer, and what a block of rank zero consumes is its winning ticket. -/
lemma consumed_iff (fits : (tickets.map BurnTicket.amount).sum ≤ u128Max)
    (distinct : (tickets.map BurnTicket.id).Nodup) {rank : ℕ} {winner ticket : BurnTicket}
    (selected : (rankedTicketsForHeight parent block.height tickets)[rank]? = some winner)
    (mem : ticket ∈ tickets) :
    Consumed parent block tickets winner.id ticket.id ↔ ticket = winner ∨
      missedFallbackTicketInvalidationHeight ≤ block.height ∧ 0 < rank ∧
        ticketIsEligibleForHeight ticket block.height = true ∧
        ticket.owner ∈ ownersUpTo parent block tickets rank := by
  have hwinner : winner ∈ tickets := (mem_rankedTicketsForHeight (List.mem_of_getElem? selected)).1
  have hrank := rankOfId_eq fits distinct selected
  constructor
  · intro hconsumed
    generalize hid : ticket.id = id at hconsumed
    cases hconsumed with
    | winner => exact .inl (eq_of_id distinct mem hwinner hid)
    | @missed rank' ticket' active ranked fallback mem' eligible owned =>
      obtain rfl := eq_of_id distinct mem mem' hid
      obtain rfl : rank' = rank := Option.some.inj (ranked.symm.trans hrank)
      exact .inr ⟨active, fallback, eligible, owned⟩
  · rintro (rfl | ⟨active, fallback, eligible, owned⟩)
    · exact .winner
    · exact .missed active hrank fallback mem eligible owned

/-! ## What a block creates -/

/-- The ticket of a legacy transaction of a block: that of a burn of a positive amount. -/
def burnTicketOf (block : Block) (profile : LaunchProfile) : Transaction → Option BurnTicket
  | .burn (input :: _) _ amount _ _ signature =>
    if amount = 0 then none
    else some (burnTicketAt block.height profile signature input.owner amount)
  | _ => none

/-- The ticket of an envelope of a block: that of a burn with a legacy owner. -/
def envelopeTicketOf (block : Block) (profile : LaunchProfile) (envelope : Str) :
    Option BurnTicket := do
  let encoded ← (decodeHex envelope).toOption
  let (domain, transaction) ← (TransactionV2.decode encoded).toOption
  if transaction.isBurn = false then none
  else do
    let owner ← (transaction.burnLegacyOwner).toOption.join
    let id ← (transaction.transactionId domain).toOption
    pure (burnTicketAt block.height profile (hexEncode id.val) owner transaction.amount)

omit [Crypto] in
lemma ticketOfTransaction_eq_ok {profile : LaunchProfile} {transaction : Transaction}
    {created : Option BurnTicket}
    (h : ticketOfTransaction block.height profile transaction = .ok created) :
    created = burnTicketOf block profile transaction := by
  cases transaction with
  | transfer => exact (Outcome.pure_eq_ok.mp h).symm
  | mine => exact (Outcome.pure_eq_ok.mp h).symm
  | burn inputs change amount fee anchor signature =>
    cases inputs with
    | nil => exact (Outcome.pure_eq_ok.mp h).symm
    | cons input inputs =>
      rw [ticketOfTransaction] at h
      rw [burnTicketOf]
      by_cases hzero : amount = 0
      · rw [if_pos hzero] at h ⊢
        exact (Outcome.pure_eq_ok.mp h).symm
      · rw [if_neg hzero] at h ⊢
        obtain ⟨window, hwindow, h⟩ := Outcome.bind_eq_ok.mp h
        obtain ⟨-, rfl⟩ := ticketWindow_eq_ok.mp hwindow
        exact (Outcome.pure_eq_ok.mp h).symm

lemma ticketOfEnvelope_eq_ok {profile : LaunchProfile} {envelope : Str}
    {created : Option BurnTicket}
    (h : ticketOfEnvelope block.height profile envelope = .ok created) :
    created = envelopeTicketOf block profile envelope := by
  simp only [ticketOfEnvelope, withContext, Outcome.bind_eq_ok, Outcome.mapErr_eq_ok] at h
  obtain ⟨encoded, hencoded, ⟨domain, transaction⟩, hdecoded, h⟩ := h
  simp only [envelopeTicketOf, hencoded, hdecoded, Except.toOption, Option.bind_eq_bind,
    Option.bind_some]
  by_cases hburn : transaction.isBurn = false
  · rw [if_pos hburn] at h ⊢
    exact (Outcome.pure_eq_ok.mp h).symm
  · rw [if_neg hburn] at h ⊢
    simp only [Outcome.bind_eq_ok, Outcome.ofOption_eq_ok, Outcome.pure_eq_ok] at h
    obtain ⟨_, howner, owner, rfl, window, hwindow, id, hid, rfl⟩ := h
    obtain ⟨-, rfl⟩ := ticketWindow_eq_ok.mp hwindow
    simp only [howner, hid, Option.join_some, Option.bind_some]
    rfl

omit [Crypto] in
/-- A list of results collected one by one is the list of what each of them is. -/
lemma filterMap_of_mapM {α : Type} {f : α → Result (Option BurnTicket)} {g : α → Option BurnTicket}
    {xs : List α} {ys : List (Option BurnTicket)} (h : xs.mapM f = .ok ys)
    (each : ∀ x y, f x = .ok y → y = g x) : ys.filterMap id = xs.filterMap g := by
  have hall := Outcome.mapM_eq_ok.mp h
  clear h
  induction hall with
  | nil => rfl
  | @cons x y xs ys head _ ih =>
    obtain rfl := each x y head
    rw [List.filterMap_cons, List.filterMap_cons, ih]
    rfl

/-- **Created tickets.** The burns of a block add one ticket each, in the order of the block. -/
lemma ticketsCreatedByBlock_eq_ok {profile : LaunchProfile} {created : List BurnTicket}
    (h : ticketsCreatedByBlock block profile = .ok created) :
    created = block.transactions.filterMap (burnTicketOf block profile)
      ++ block.transactionsV2.filterMap (envelopeTicketOf block profile) := by
  simp only [ticketsCreatedByBlock, ticketsCreatedByTransactions, Outcome.bind_eq_ok,
    Outcome.pure_eq_ok] at h
  obtain ⟨_, ⟨_, _, tickets, htickets, rfl⟩, ticketsV2, hticketsV2, rfl⟩ := h
  rw [filterMap_of_mapM htickets fun _ _ => ticketOfTransaction_eq_ok,
    filterMap_of_mapM hticketsV2 fun _ _ => ticketOfEnvelope_eq_ok]

omit [Crypto] in
lemma exists_of_mapM {α β : Type} {f : α → Result β} {xs : List α} {ys : List β}
    (h : xs.mapM f = .ok ys) {x : α} (mem : x ∈ xs) : ∃ y, f x = .ok y := by
  have hall := Outcome.mapM_eq_ok.mp h
  clear h
  induction hall with
  | nil => cases mem
  | @cons _ y _ _ head _ ih =>
    rcases List.mem_cons.mp mem with rfl | mem
    · exact ⟨y, head⟩
    · exact ih mem

/-- Every burn in an envelope of an applied block has a ticket. -/
lemma envelopeTicketOf_isSome {profile : LaunchProfile} {created : List BurnTicket}
    (h : ticketsCreatedByBlock block profile = .ok created) {envelope : Str}
    (mem : envelope ∈ block.transactionsV2) {transaction : TransactionV2}
    (decoded : decodedEnvelope envelope = some transaction) (burn : transaction.isBurn = true) :
    (envelopeTicketOf block profile envelope).isSome := by
  simp only [ticketsCreatedByBlock, Outcome.bind_eq_ok] at h
  obtain ⟨_, _, _, henvelopes, -⟩ := h
  obtain ⟨ticket, hticket⟩ := exists_of_mapM henvelopes mem
  rw [← ticketOfEnvelope_eq_ok hticket]
  simp only [ticketOfEnvelope, withContext, Outcome.bind_eq_ok, Outcome.mapErr_eq_ok] at hticket
  obtain ⟨encoded, hencoded, ⟨domain, found⟩, hdecoded, hticket⟩ := hticket
  obtain rfl : found = transaction := by
    simpa [decodedEnvelope, hencoded, hdecoded] using decoded
  rw [if_neg (by simp [burn])] at hticket
  simp only [Outcome.bind_eq_ok, Outcome.ofOption_eq_ok, Outcome.pure_eq_ok] at hticket
  obtain ⟨_, -, owner, -, window, -, id, -, rfl⟩ := hticket
  rfl

/-! ## The tickets after a block -/

/-- Weights and their number are `u64`. -/
structure WeightsFit (tickets : List BurnTicket) : Prop where
  amounts : ∀ ticket ∈ tickets, ticket.amount ≤ u64Max
  count : tickets.length ≤ u64Max

omit [Crypto] in
lemma WeightsFit.sum_le (fit : WeightsFit tickets) :
    (tickets.map BurnTicket.amount).sum ≤ u128Max := by
  have hsum := List.sum_le_card_nsmul (tickets.map BurnTicket.amount) u64Max (by
    intro amount hamount
    obtain ⟨ticket, hticket, rfl⟩ := List.mem_map.mp hamount
    exact fit.amounts ticket hticket)
  rw [List.length_map] at hsum
  exact (hsum.trans (Nat.mul_le_mul_right u64Max fit.count)).trans (by decide)

/-- What a block does to a pool of tickets. -/
structure TicketEffects (parent block : Block) (profile : LaunchProfile)
    (tickets after : List BurnTicket) : Prop where
  /-- A ticket block removes what its leader ticket consumes and what has expired, and leaves the
  other tickets as they are. -/
  ticket : block.finalizerMode = .ticket → ∃ proof keeps, block.leaderProof = some proof ∧
    after = tickets.filter keeps
      ++ (block.transactions.filterMap (burnTicketOf block profile)
        ++ block.transactionsV2.filterMap (envelopeTicketOf block profile)) ∧
    ∀ ticket ∈ tickets, keeps ticket = true ↔
      ¬ Consumed parent block tickets proof.ticketId ticket.id
        ∧ block.height < ticket.eligibleUntilHeight
  /-- A recovery block removes the eligible tickets and what has expired. -/
  recovery : block.finalizerMode = .recovery → ∃ keeps,
    after = tickets.filter keeps
      ++ (block.transactions.filterMap (burnTicketOf block profile)
        ++ block.transactionsV2.filterMap (envelopeTicketOf block profile)) ∧
    ∀ ticket ∈ tickets, keeps ticket = true ↔
      ticketIsEligibleForHeight ticket block.height = false
        ∧ block.height < ticket.eligibleUntilHeight
  /-- Every burn in an envelope has a ticket. -/
  envelopes : ∀ envelope ∈ block.transactionsV2, ∀ transaction,
    decodedEnvelope envelope = some transaction → transaction.isBurn = true →
      (envelopeTicketOf block profile envelope).isSome

namespace Ledger

variable {ledger : Ledger} {after : List BurnTicket}

lemma ticketsAfterBlock_effects (h : ledger.ticketsAfterBlock block = .ok after) :
    TicketEffects ledger.tip block ledger.launchProfile ledger.tickets after := by
  obtain ⟨kept, created, hkept, hcreated, rfl⟩ := ticketsAfterBlock_eq_ok.mp h
  rw [ticketsCreatedByBlock_eq_ok hcreated]
  refine ⟨?_, ?_, fun envelope henvelope transaction => envelopeTicketOf_isSome hcreated henvelope⟩
  · intro hmode
    rw [applyFinalizerTicketEffects, hmode] at hkept
    simp only [consumeLeaderTicket, Outcome.bind_eq_ok, Outcome.ofOption_eq_ok,
      Outcome.pure_eq_ok] at hkept
    obtain ⟨proof, hproof, _, -, rfl⟩ := hkept
    refine ⟨proof, _, hproof, rfl, fun ticket _ => ?_⟩
    rw [decide_eq_true_eq, mem_invalidated_iff]
  · intro hmode
    rw [applyFinalizerTicketEffects, hmode] at hkept
    obtain rfl := Outcome.pure_eq_ok.mp hkept
    exact ⟨_, rfl, fun ticket _ => by simp⟩

/-- **Ranks and effects.** In every pool the ranking orders exactly the eligible tickets of
positive weight; a block has the effects of its finalizer on the pool and adds the tickets of its
burns; and under distinct ids a ticket block of a rank consumes exactly its winning ticket and, as
a fallback from the activation on, the eligible tickets of the owners up to its rank. -/
theorem ticket_effects (ledger : Ledger) (fit : WeightsFit ledger.tickets) :
    (∀ parentRandomness height,
      (rankedTicketsForParentRandomness parentRandomness height ledger.tickets).Perm
        (ledger.tickets.filter fun ticket =>
          ticketIsEligibleForHeight ticket height ∧ 0 < ticket.amount)) ∧
    (∀ block after, ledger.ticketsAfterBlock block = .ok after →
      TicketEffects ledger.tip block ledger.launchProfile ledger.tickets after) ∧
    ((ledger.tickets.map BurnTicket.id).Nodup → ∀ block winner,
      ledger.ticketForFinalizerRank block.height block.finalizerRank = some winner →
        ∀ ticket ∈ ledger.tickets,
          Consumed ledger.tip block ledger.tickets winner.id ticket.id ↔ ticket = winner ∨
            missedFallbackTicketInvalidationHeight ≤ block.height ∧ 0 < block.finalizerRank ∧
              ticketIsEligibleForHeight ticket block.height = true ∧
              ticket.owner ∈ ownersUpTo ledger.tip block ledger.tickets block.finalizerRank) :=
  ⟨fun parentRandomness height => rankedTickets_perm parentRandomness height fit.sum_le,
    fun _ _ => ticketsAfterBlock_effects,
    fun distinct _ _ selected _ mem => consumed_iff fit.sum_le distinct selected mem⟩

end Ledger

end Iuna

/-! ## A finalizer with two tickets -/

namespace Iuna.Toy

attribute [local instance] crypto

def poolTicket (id owner : Char) : BurnTicket :=
  { id := [id], owner := [owner], amount := 1, eligibleFromHeight := 300,
    eligibleUntilHeight := 302 }

def poolOfTwoOwners : List BurnTicket :=
  [poolTicket 'p' 'x', poolTicket 'q' 'y', poolTicket 'r' 'x', poolTicket 's' 'y']

/-- The genesis ledger with this pool. -/
def pooledLedger : Ledger := { genesis with tickets := poolOfTwoOwners }

/-- A ticket block of the second rank, finalized with the first ticket of `y`. -/
def fallbackBlock : Block :=
  { genesis.recoveryBlock owner [] 1 with
    height := 300
    finalizerMode := .ticket
    finalizerRank := 1
    leaderProof := some { ticketId := ['q'], publicKey := [], signature := [] } }

set_option maxRecDepth 10000 in
lemma fallback_effects :
    pooledLedger.ticketsAfterBlock fallbackBlock = .ok [] ∧
      rankedTicketsForHeight pooledLedger.tip 300 pooledLedger.tickets = poolOfTwoOwners ∧
      (pooledLedger.tickets.map BurnTicket.id).Nodup := by
  decide +kernel

/-- The witness of the effects: the pool of the example, its ranking and its fallback block. -/
theorem ticket_effects_fallback :
    (rankedTicketsForParentRandomness (str "randomness") 300 poolOfTwoOwners).Perm
        (poolOfTwoOwners.filter fun ticket =>
          ticketIsEligibleForHeight ticket 300 ∧ 0 < ticket.amount) ∧
      TicketEffects pooledLedger.tip fallbackBlock pooledLedger.launchProfile
        pooledLedger.tickets [] ∧
      (Consumed pooledLedger.tip fallbackBlock pooledLedger.tickets ['q'] ['s'] ↔
        poolTicket 's' 'y' = poolTicket 'q' 'y' ∨
          missedFallbackTicketInvalidationHeight ≤ fallbackBlock.height ∧
            0 < fallbackBlock.finalizerRank ∧
            ticketIsEligibleForHeight (poolTicket 's' 'y') fallbackBlock.height = true ∧
            ['y'] ∈ ownersUpTo pooledLedger.tip fallbackBlock pooledLedger.tickets
              fallbackBlock.finalizerRank) := by
  obtain ⟨hafter, hranked, hdistinct⟩ := fallback_effects
  have hfit : WeightsFit pooledLedger.tickets := ⟨by decide, by decide⟩
  obtain ⟨hperm, heffects, hconsumed⟩ := Ledger.ticket_effects pooledLedger hfit
  have hselected : pooledLedger.ticketForFinalizerRank fallbackBlock.height
      fallbackBlock.finalizerRank = some (poolTicket 'q' 'y') := by
    change (rankedTicketsForHeight pooledLedger.tip 300 pooledLedger.tickets)[1]? = _
    rw [hranked]
    rfl
  exact ⟨hperm _ _, heffects _ _ hafter,
    hconsumed hdistinct fallbackBlock _ hselected (poolTicket 's' 'y') (by decide)⟩

/-- **The second ticket of the finalizer.** The owner of the winning ticket is not ranked before
it, and still loses its other eligible ticket. -/
theorem finalizer_loses_tickets :
    ¬ ∀ (ledger : Ledger) (block : Block) (winner : BurnTicket) (after : List BurnTicket),
      (ledger.tickets.map BurnTicket.id).Nodup →
      missedFallbackTicketInvalidationHeight ≤ block.height → block.finalizerMode = .ticket →
      ledger.ticketForFinalizerRank block.height block.finalizerRank = some winner →
      block.leaderProof.map LeaderProof.ticketId = some winner.id →
      ledger.ticketsAfterBlock block = .ok after →
        ∀ ticket ∈ ledger.tickets, ticket ∈ after ↔ ¬ (ticket = winner ∨
          ticketIsEligibleForHeight ticket block.height = true ∧
            ticket.owner ∈ ((rankedTicketsForHeight ledger.tip block.height ledger.tickets).take
              block.finalizerRank).map BurnTicket.owner ∨
          ticket.eligibleUntilHeight ≤ block.height) := by
  intro claimed
  obtain ⟨hafter, hranked, hdistinct⟩ := fallback_effects
  have hselected : pooledLedger.ticketForFinalizerRank fallbackBlock.height
      fallbackBlock.finalizerRank = some (poolTicket 'q' 'y') := by
    change (rankedTicketsForHeight pooledLedger.tip 300 pooledLedger.tickets)[1]? = _
    rw [hranked]
    rfl
  have hkept := (claimed pooledLedger fallbackBlock (poolTicket 'q' 'y') [] hdistinct (by decide)
    rfl hselected rfl hafter (poolTicket 's' 'y') (by decide)).mpr
  change ¬ (_ ∨ _ ∧ ['y'] ∈ ((rankedTicketsForHeight pooledLedger.tip 300
    pooledLedger.tickets).take 1).map BurnTicket.owner ∨ _) → _ at hkept
  rw [hranked] at hkept
  exact absurd (hkept (by decide)) List.not_mem_nil

end Iuna.Toy
