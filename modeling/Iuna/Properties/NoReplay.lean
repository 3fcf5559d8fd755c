import Mathlib.Data.List.Nodup
import Iuna.Properties.Supply
import Iuna.Properties.Tickets

/-!
# Nothing happens twice

Three histories are kept free of repetitions by three different means.  The ids of transactions
are compared with the set of mined ids, which along a run contains every id of the chain
(`run_mined`).  An outpoint is consumed by taking it out of the unspent outputs, so the actions on
it alternate (`logged_run`).  A ticket that has finalized a block leaves the pool with all tickets
of its id, and the tickets created later are eligible later than it was (`Retired`).
-/

namespace Iuna

open Resource Runs

/-! ## Ids within a block -/

/-- Ids that are collected one by one, each of them new, are collected without repetition. -/
lemma nodup_reverse_append {α : Type} {xs ys : List α} (distinct : (xs.reverse ++ ys).Nodup) :
    xs.Nodup := by
  exact List.nodup_reverse.mp (List.nodup_append.mp distinct).1

variable [Crypto]

namespace Ledger

variable {ledger ledger' : Ledger} {block : Block} {effects : BlockEffects}

/-- The legacy loop of a block has seen its signatures, each of them once. -/
lemma transactions_seen {start finish : List Str × LineageState} {transactions : List Transaction}
    (run : Run (ledger.TransactionRound block) start transactions finish)
    (distinct : start.1.Nodup) :
    finish.1 = (transactions.map Transaction.signature).reverse ++ start.1 ∧ finish.1.Nodup := by
  induction run with
  | nil => exact ⟨rfl, distinct⟩
  | cons head _ ih =>
    obtain ⟨hnew, -, -, -, hseen⟩ := applyBlockTransaction_eq_ok.mp head
    rw [hseen] at ih
    obtain ⟨hfinish, hdistinct⟩ := ih (List.nodup_cons.mpr ⟨hnew, distinct⟩)
    refine ⟨?_, hdistinct⟩
    rw [hfinish, List.map_cons, List.reverse_cons, List.append_assoc, List.singleton_append]

/-- The envelope loop of a block has seen the ids of its v2 transactions, each of them once. -/
lemma envelopes_seen {domain : TransactionV2Domain} {start finish : EnvelopeState × LineageState}
    {envelopes : List Str} (run : Run (ledger.EnvelopeRound block domain) start envelopes finish)
    (distinct : start.1.transactionV2Ids.Nodup) :
    finish.1.transactionV2Ids = (envelopes.filterMap fun envelope =>
        (openEnvelope domain envelope).map fun opened => hexEncode opened.2.val).reverse
          ++ start.1.transactionV2Ids
      ∧ finish.1.transactionV2Ids.Nodup := by
  induction run with
  | nil => exact ⟨rfl, distinct⟩
  | cons head _ ih =>
    obtain ⟨transaction, id, bindings, hdecode, -, -, hid, hnew, -, -, hmiddle⟩ :=
      applyBlockEnvelope_eq_ok.mp head
    rw [hmiddle] at ih
    obtain ⟨hfinish, hdistinct⟩ := ih (List.nodup_cons.mpr ⟨hnew, distinct⟩)
    refine ⟨?_, hdistinct⟩
    rw [hfinish, List.filterMap_cons, openEnvelope_eq_some.mpr ⟨hdecode, hid⟩, Option.map_some,
      List.reverse_cons, List.append_assoc, List.singleton_append]

/-- The transactions of an accepted block have different ids. -/
lemma accepts_ids_nodup (accepts : ledger.Accepts block effects ledger') :
    block.signatures.Nodup ∧ (ledger.transactionV2Ids block).Nodup
      ∧ effects.envelopes.transactionV2Ids = (ledger.transactionV2Ids block).reverse := by
  obtain ⟨seen, middle, last, domain, staged⟩ := stageBlock_eq_ok.mp accepts.staged
  obtain ⟨hseen, hdistinct⟩ := transactions_seen staged.transactions List.nodup_nil
  obtain ⟨hids, hdistinctIds⟩ := envelopes_seen staged.envelopes List.nodup_nil
  dsimp only at hseen hdistinct hids hdistinctIds
  have heq : ledger.transactionV2Ids block = block.transactionsV2.filterMap fun envelope =>
      (openEnvelope domain envelope).map fun opened => hexEncode opened.2.val := by
    rw [transactionV2Ids, staged.transactionV2Domain]
  rw [hseen] at hdistinct
  rw [hids] at hdistinctIds
  refine ⟨nodup_reverse_append hdistinct, ?_, ?_⟩
  · rw [heq]
    exact nodup_reverse_append hdistinctIds
  · rw [hids, heq, List.append_nil]

/-! ## Ids across blocks -/

omit [Crypto] in
lemma mem_insertIds {ids : BTreeSet Str} {newIds : List Str} {id : Str} :
    id ∈ insertIds ids newIds ↔ id ∈ newIds ∨ id ∈ ids := by
  induction newIds generalizing ids with
  | nil => simp [insertIds]
  | cons newId newIds ih =>
    have hstep : insertIds ids (newId :: newIds) = insertIds (ids.insert newId ()) newIds := rfl
    rw [hstep, ih, Std.ExtTreeMap.mem_insert, Std.LawfulEqCmp.compare_eq_iff_eq, List.mem_cons,
      eq_comm]
    tauto

/-- The ids of the transactions of a block. -/
def transactionIds (ledger : Ledger) (block : Block) : List Str :=
  block.signatures ++ ledger.transactionV2Ids block

lemma transactionIds_congr (hgenesis : ledger'.genesis = ledger.genesis)
    (hprofile : ledger'.launchProfile = ledger.launchProfile) :
    ledger'.transactionIds block = ledger.transactionIds block := by
  rw [transactionIds, transactionIds, transactionV2Ids, transactionV2Ids,
    transactionV2Domain_congr hgenesis hprofile]

/-- The ids of an accepted block are mined after it. -/
lemma accepts_mined (accepts : ledger.Accepts block effects ledger') {id : Str} :
    id ∈ ledger'.minedTransactionIds ↔
      id ∈ ledger.transactionIds block ∨ id ∈ ledger.minedTransactionIds := by
  obtain ⟨-, -, hids⟩ := accepts_ids_nodup accepts
  rw [accepts.minedTransactionIds, hids, mem_insertIds, mem_insertIds, List.mem_reverse,
    transactionIds, List.mem_append, Block.signatures]
  tauto

/-- From the activation of the replay protection on, no id of an accepted block was mined before
it. -/
lemma prechecked_ids_new {nowMs : ℕ} (prechecked : ledger.Prechecked block nowMs)
    (active : transactionReplayProtectionActivationHeight ≤ block.height) {id : Str}
    (h : id ∈ ledger.transactionIds block) : id ∉ ledger.minedTransactionIds := by
  have hcheck := prechecked.noReplay
  rw [ensureBlockTransactionsAreNotReplays, if_neg (not_lt.mpr active)] at hcheck
  simp only [Outcome.bind_eq_ok, Outcome.bailIf_eq_ok, List.any_eq_true, decide_eq_true_eq,
    not_exists, not_and] at hcheck
  obtain ⟨_, hsignatures, domain, hdomain, seen, hseen, -⟩ := hcheck
  rcases List.mem_append.mp h with hsignature | hid
  · obtain ⟨transaction, htransaction, rfl⟩ := List.mem_map.mp hsignature
    exact hsignatures transaction htransaction
  · rw [transactionV2Ids, hdomain] at hid
    obtain ⟨envelope, henvelope, hopened⟩ := List.mem_filterMap.mp hid
    obtain ⟨⟨transaction, id'⟩, hopen, rfl⟩ := Option.map_eq_some_iff.mp hopened
    obtain ⟨hdecode, hid'⟩ := openEnvelope_eq_some.mp hopen
    -- the round of the check for this envelope has compared its id with the mined ones
    have hchecked := Outcome.foldlM_prefix (fun done _ => ∀ other ∈ done, other = envelope →
      hexEncode id'.val ∉ ledger.minedTransactionIds) (by simp) ?_ hseen
    · exact hchecked envelope henvelope rfl
    · intro done other before after _ hdone hround other' hother' heq
      rcases List.mem_append.mp hother' with hother' | hother'
      · exact hdone other' hother' heq
      · obtain rfl : other' = other := by simpa using hother'
        rw [heq] at hround
        simp only [checkEnvelopeReplay, hdecode, hid', Outcome.bind_eq_ok, Except.ok.injEq,
          exists_eq_left', Outcome.bailIf_eq_ok] at hround
        exact hround.choose_spec.2.choose_spec.1

/-- Along a run the mined ids contain the ids of the genesis block and of all accepted blocks, and
only the genesis block and the launch profile decide how they are computed. -/
lemma run_mined {genesis ledger : Ledger} {events : List Event} (initial : Initial genesis)
    (run : Run Step genesis events ledger) :
    ledger.genesis = genesis.genesis ∧ ledger.launchProfile = genesis.launchProfile
      ∧ ∀ old ∈ genesis.genesis :: acceptedBlocks events,
          ∀ id ∈ genesis.transactionIds old, id ∈ ledger.minedTransactionIds := by
  refine run_track (fun blocks ledger => ledger.genesis = genesis.genesis
    ∧ ledger.launchProfile = genesis.launchProfile ∧ ∀ old ∈ genesis.genesis :: blocks,
      ∀ id ∈ genesis.transactionIds old, id ∈ ledger.minedTransactionIds) run ?_ ?_ ?_ ?_
  · refine ⟨rfl, rfl, ?_⟩
    intro old hold id hid
    obtain rfl := List.mem_singleton.mp hold
    obtain ⟨_, block, _, _, _, _, _, _, _, hblock, _, _, hledger⟩ := initial_eq initial
    have hgenesis : genesis.genesis = block := by rw [hledger]; rfl
    have hmined : genesis.minedTransactionIds = insertIds ∅ block.signatures := by
      rw [hledger]
      rfl
    have hnoV2 : block.transactionsV2 = [] := by
      rw [hblock]
      rfl
    have hids : genesis.transactionV2Ids block = [] := by
      unfold transactionV2Ids
      rw [hnoV2]
      split <;> rfl
    rw [hgenesis, transactionIds, hids, List.append_nil] at hid
    rw [hmined, mem_insertIds]
    exact .inl hid
  · rintro blocks ledger block effects ledger' ⟨hgenesis, hprofile, hmined⟩ accepts
    refine ⟨accepts.genesis.trans hgenesis, accepts.launchProfile.trans hprofile, ?_⟩
    intro old hold id hid
    rw [accepts_mined accepts]
    rw [← List.cons_append, List.mem_append, List.mem_singleton] at hold
    rcases hold with hold | rfl
    · exact .inr (hmined old hold id hid)
    · rw [← transactionIds_congr hgenesis hprofile] at hid
      exact .inl hid
  · rintro blocks ledger pools h
    exact h
  · rintro blocks ledger recentLimit ⟨hgenesis, hprofile, hmined⟩
    exact ⟨by simpa using hgenesis, by simpa using hprofile, by simpa using hmined⟩

/-! ## Burn-bundle sections -/

/-- A section attests burns of the block itself, each of them once. -/
structure Attested (ledger : Ledger) (block : Block) : Prop where
  burns : ∀ masked ∈ block.burnBundleSection.burns, ∃ transaction ∈ block.transactions,
    transaction.isBurn = true ∧ transaction.signature = masked.burn.signature
      ∧ transaction.canonical = masked.burn.canonical
  burns_nodup : (block.burnBundleSection.burns.map fun masked => masked.burn.signature).Nodup
  burnsV2 : ∀ masked ∈ block.burnBundleSection.burnsV2, masked.envelope ∈ block.transactionsV2
  burnsV2_nodup : (block.burnBundleSection.burnsV2.map MaskedBurnV2.envelope).Nodup

/-- The section of a checked block attests burns of the block. -/
lemma prechecked_attested {nowMs : ℕ} (prechecked : ledger.Prechecked block nowMs) :
    ledger.Attested block := by
  have hsection := prechecked.burnBundleSection
  simp only [validateBurnBundleSectionForBlock, Outcome.bind_eq_ok] at hsection
  obtain ⟨_, _, _, _, seen, _, _, _, _, hburns, domain, _, _, hburnsV2, _⟩ := hsection
  have hlegacy := Outcome.foldlM_prefix (fun done seen =>
    (∀ masked ∈ done, ∃ transaction ∈ block.transactions,
      transaction.isBurn = true ∧ transaction.signature = masked.burn.signature
        ∧ transaction.canonical = masked.burn.canonical)
    ∧ seen.1 = (done.map fun masked => masked.burn.signature).reverse ∧ seen.1.Nodup) (by simp)
    ?_ hburns
  have hv2 := Outcome.foldlM_prefix (fun done seen =>
    (∀ masked ∈ done, masked.envelope ∈ block.transactionsV2)
    ∧ (done.map MaskedBurnV2.envelope).Nodup
    ∧ ∀ masked ∈ done, ∀ transaction id,
      openEnvelope domain masked.envelope = some (transaction, id) → hexEncode id.val ∈ seen)
    (by simp) ?_ hburnsV2
  · exact ⟨hlegacy.1, List.nodup_reverse.mp (hlegacy.2.1 ▸ hlegacy.2.2), hv2.1, hv2.2.1⟩
  · rintro done masked before after - ⟨hincluded, hdistinct, hseen⟩ hround
    simp only [checkMaskedBurnV2, Outcome.bind_eq_ok, Outcome.bailIf_eq_ok, not_not,
      Outcome.pure_eq_ok] at hround
    obtain ⟨_, _, _, _, burn, hburn, _, _, id, hid, _, hnew, _, hmem, _, _, rfl⟩ := hround
    have hopen := openEnvelope_eq_some.mpr ⟨hburn, hid⟩
    refine ⟨?_, ?_, ?_⟩
    · intro other hother
      rcases List.mem_append.mp hother with hother | hother
      · exact hincluded other hother
      · rw [List.mem_singleton.mp hother]
        exact hmem
    · rw [List.map_append, List.map_singleton, List.nodup_append]
      refine ⟨hdistinct, List.nodup_singleton _, ?_⟩
      intro envelope henvelope envelope' henvelope' heq
      obtain ⟨other, hother, rfl⟩ := List.mem_map.mp henvelope
      obtain rfl := List.mem_singleton.mp henvelope'
      exact hnew (hseen other hother burn id (heq ▸ hopen))
    · intro other hother transaction otherId hotherOpen
      rcases List.mem_append.mp hother with hother | hother
      · exact List.mem_cons_of_mem _ (hseen other hother transaction otherId hotherOpen)
      · rw [List.mem_singleton.mp hother, hopen] at hotherOpen
        cases hotherOpen
        exact List.mem_cons_self
  · rintro done masked before after - ⟨hincluded, hseen, hdistinct⟩ hround
    simp only [checkMaskedBurn, Outcome.bind_eq_ok, Outcome.bailIf_eq_ok, Outcome.pure_eq_ok] at hround
    obtain ⟨_, _, _, _, _, hnew, _, _, _, hmatch, _, _, _, _, rfl⟩ := hround
    refine ⟨?_, ?_, List.nodup_cons.mpr ⟨hnew, hdistinct⟩⟩
    · intro other hother
      rcases List.mem_append.mp hother with hother | hother
      · exact hincluded other hother
      · rw [List.mem_singleton.mp hother]
        rw [Option.isNone_iff_eq_none, ← ne_eq, Option.ne_none_iff_exists'] at hmatch
        obtain ⟨transaction, hfound⟩ := hmatch
        have hproperty := List.find?_some hfound
        exact ⟨transaction, List.mem_of_find?_eq_some hfound, by simpa using hproperty⟩
    · rw [hseen]
      simp

/-! ## Outpoints -/

/-- The actions on outputs that the accepted blocks of a run have taken, oldest first. -/
inductive Logged (genesis : Ledger) : List Event → List (Action OutPoint) → Ledger → Prop
  | start : Logged genesis [] [] genesis
  | accepted {events : List Event} {log : List (Action OutPoint)} {ledger ledger' : Ledger}
      {block : Block} (logged : Logged genesis events log ledger)
      (step : Step ledger (.accepted block) ledger') :
      Logged genesis (events ++ [.accepted block]) (log ++ ledger.blockActions block) ledger'
  | other {events : List Event} {log : List (Action OutPoint)} {ledger ledger' : Ledger}
      {event : Event} (logged : Logged genesis events log ledger)
      (noBlock : event.acceptedBlock = none) (step : Step ledger event ledger') :
      Logged genesis (events ++ [event]) log ledger'

lemma step_utxos {event : Event} (noBlock : event.acceptedBlock = none)
    (step : Step ledger event ledger') : ledger'.utxos = ledger.utxos := by
  cases event with
  | accepted block => cases noBlock
  | known block => rw [step_known step]
  | poolsChanged pools =>
    cases step
    rfl
  | historyPruned recentLimit =>
    cases step
    rw [retainRecentChainBlocks_toLineageState]

/-- Every run has a log. -/
lemma run_logged {genesis ledger : Ledger} {events : List Event}
    (run : Run Step genesis events ledger) : ∃ log, Logged genesis events log ledger := by
  refine run.track (fun done ledger => ∃ log, Logged genesis done log ledger) ?_ ⟨[], .start⟩
  rintro done ledger event ledger' ⟨log, logged⟩ step
  cases event with
  | accepted block => exact ⟨_, .accepted logged step⟩
  | known block => exact ⟨_, .other logged rfl step⟩
  | poolsChanged pools => exact ⟨_, .other logged rfl step⟩
  | historyPruned recentLimit => exact ⟨_, .other logged rfl step⟩

/-- The unspent outputs run through the actions of the log. -/
theorem logged_run {genesis ledger : Ledger} {events : List Event} {log : List (Action OutPoint)}
    (logged : Logged genesis events log ledger) :
    ∃ es, Run WriteStep genesis.utxos es ledger.utxos ∧ es.map Effect.action = log := by
  induction logged with
  | start => exact ⟨[], .nil _, rfl⟩
  | accepted _ step ih =>
    obtain ⟨es, hrun, hlog⟩ := ih
    obtain ⟨effects, accepts⟩ := step_accepted step
    obtain ⟨es', hrun', hactions, -⟩ := accepts_effects accepts
    exact ⟨es ++ es', hrun.append hrun', by rw [List.map_append, hlog, hactions]⟩
  | other _ noBlock step ih =>
    obtain ⟨es, hrun, hlog⟩ := ih
    exact ⟨es, step_utxos noBlock step ▸ hrun, hlog⟩

/-! ## Leader tickets -/

/-- What is left of a ticket that has finalized a block: it is not in the pool and cannot come
back, since new tickets are eligible later than it was; and once its id is mined, only tickets of
blocks below the activation of the replay protection have it. -/
structure Retired (ticket : BurnTicket) (mined : Prop) (ledger : Ledger) : Prop where
  absent : ticket ∉ ledger.tickets
  past : ticket.eligibleFromHeight
    ≤ ledger.tip.height + ledger.launchProfile.ticketMaturityDelayHeights
  mined_id : mined → ticket.id ∈ ledger.minedTransactionIds
  recent : mined → ∀ other ∈ ledger.tickets, other.id = ticket.id →
    other.eligibleFromHeight < transactionReplayProtectionActivationHeight
      + ledger.launchProfile.ticketMaturityDelayHeights

/-- The pool after an accepted block: every ticket was there before it, not under the id of the
leader ticket, or it is new. -/
lemma accepts_tickets (accepts : ledger.Accepts block effects ledger') {ticket : BurnTicket}
    (h : ticket ∈ ledger'.tickets) :
    (ticket ∈ ledger.tickets
        ∧ ∀ leader, ledger.leaderTicket block = some leader → ticket.id ≠ leader.id) ∨
      (ticket.eligibleFromHeight
          = ledger.tip.height + 1 + ledger.launchProfile.ticketMaturityDelayHeights
        ∧ ticket.id ∈ ledger.transactionIds block) := by
  obtain ⟨nowMs, prechecked⟩ := accepts.prechecked
  obtain ⟨seen, middle, last, domain, staged⟩ := stageBlock_eq_ok.mp accepts.staged
  obtain ⟨kept, created, hkept, hcreated, htickets⟩ := ticketsAfterBlock_eq_ok.mp staged.tickets
  rw [accepts.tickets, htickets, List.mem_append] at h
  rcases h with h | h
  · obtain ⟨hmem, -, hother⟩ := mem_kept hkept h
    refine .inl ⟨hmem, fun leader hleader heq => ?_⟩
    obtain ⟨hmode, -, -, hproof⟩ := leaderTicket_eq_some prechecked hleader
    exact hother hmode (by rw [hproof, heq])
  · rw [← prechecked.height]
    obtain ⟨hfrom, -, hid⟩ :=
      mem_created staged.transactionV2Domain (envelopes_open staged.envelopes) hcreated h
    exact .inr ⟨hfrom, hid⟩

/-- A block with mined ids creates no ticket under one of them from the activation on. -/
lemma accepts_tickets_recent (accepts : ledger.Accepts block effects ledger') {id : Str}
    (mined : id ∈ ledger.minedTransactionIds)
    (old : ∀ other ∈ ledger.tickets, other.id = id →
      (∀ leader, ledger.leaderTicket block = some leader → other.id ≠ leader.id) →
      other.eligibleFromHeight < transactionReplayProtectionActivationHeight
        + ledger.launchProfile.ticketMaturityDelayHeights) :
    ∀ other ∈ ledger'.tickets, other.id = id →
      other.eligibleFromHeight < transactionReplayProtectionActivationHeight
        + ledger'.launchProfile.ticketMaturityDelayHeights := by
  obtain ⟨nowMs, prechecked⟩ := accepts.prechecked
  intro other hother heq
  rw [accepts.launchProfile]
  rcases accepts_tickets accepts hother with ⟨hmem, hleader⟩ | ⟨hfrom, hid⟩
  · exact old other hmem heq hleader
  · have hbelow : block.height < transactionReplayProtectionActivationHeight := by
      by_contra hactive
      exact prechecked_ids_new prechecked (not_lt.mp hactive) (heq ▸ hid) mined
    have hheight := prechecked.height
    omega

/-- No ticket of a reachable ledger is eligible later than one burned in its newest block. -/
lemma run_tickets_past {genesis ledger : Ledger} {events : List Event} (initial : Initial genesis)
    (run : Run Step genesis events ledger) :
    ∀ ticket ∈ ledger.tickets, ticket.eligibleFromHeight
      ≤ ledger.tip.height + ledger.launchProfile.ticketMaturityDelayHeights := by
  refine run_track (fun _ ledger => ∀ ticket ∈ ledger.tickets, ticket.eligibleFromHeight
    ≤ ledger.tip.height + ledger.launchProfile.ticketMaturityDelayHeights) run ?_ ?_
    (fun _ _ _ h => h) ?_
  · obtain ⟨htickets, hheight, hnoV2⟩ := initial_tickets initial
    intro ticket hticket
    exact (genesisTickets_eligibleFrom hheight hnoV2 htickets ticket hticket).trans
      (Nat.le_add_left _ _)
  · intro _ ledger block effects ledger' ih accepts ticket hticket
    rw [accepts.tip_height, accepts.launchProfile]
    rcases accepts_tickets accepts hticket with ⟨hmem, -⟩ | ⟨hfrom, -⟩
    · have hpast := ih ticket hmem
      omega
    · omega
  · intro _ ledger recentLimit ih
    simpa using ih

/-- The leader ticket of an accepted block retires. -/
lemma accepts_retires (accepts : ledger.Accepts block effects ledger') {ticket : BurnTicket}
    (past : ticket.eligibleFromHeight
      ≤ ledger.tip.height + ledger.launchProfile.ticketMaturityDelayHeights)
    (leads : ledger.leaderTicket block = some ticket) :
    Retired ticket (ticket.id ∈ ledger.minedTransactionIds) ledger' := by
  refine ⟨fun hpool => ?_, ?_, fun hmined => (accepts_mined accepts).mpr (.inr hmined),
    fun hmined => accepts_tickets_recent accepts hmined ?_⟩
  · rcases accepts_tickets accepts hpool with ⟨-, hother⟩ | ⟨hnew, -⟩
    · exact hother ticket leads rfl
    · omega
  · rw [accepts.tip_height, accepts.launchProfile]
    omega
  · intro other _ heq hother
    exact absurd heq (hother ticket leads)

/-- A retired ticket stays retired. -/
lemma run_retired {events : List Event} {ticket : BurnTicket} {mined : Prop}
    (run : Run Step ledger events ledger') (retired : Retired ticket mined ledger) :
    Retired ticket mined ledger' := by
  refine run_track (fun _ ledger => Retired ticket mined ledger) run retired ?_ ?_ ?_
  · intro _ ledger block effects ledger' retired accepts
    refine ⟨fun hpool => ?_, ?_,
      fun hmined => (accepts_mined accepts).mpr (.inr (retired.mined_id hmined)),
      fun hmined => accepts_tickets_recent accepts (retired.mined_id hmined)
        fun other hother heq _ => retired.recent hmined other hother heq⟩
    · rcases accepts_tickets accepts hpool with ⟨hmem, -⟩ | ⟨hnew, -⟩
      · exact retired.absent hmem
      · have hpast := retired.past
        omega
    · have hpast := retired.past
      rw [accepts.tip_height, accepts.launchProfile]
      omega
  · intro _ ledger pools retired
    exact ⟨retired.absent, retired.past, retired.mined_id, retired.recent⟩
  · intro _ ledger recentLimit retired
    exact ⟨by simpa using retired.absent, by simpa using retired.past,
      fun hmined => by simpa using retired.mined_id hmined,
      fun hmined => by simpa using retired.recent hmined⟩

/-- A ticket of a reachable ledger is one of the genesis block, or its id is mined. -/
lemma run_tickets_mined {genesis ledger : Ledger} {events : List Event}
    (run : Run Step genesis events ledger) :
    ∀ ticket ∈ ledger.tickets, ticket ∈ genesis.tickets ∨ ticket.id ∈ ledger.minedTransactionIds := by
  refine run_track (fun _ ledger => ∀ ticket ∈ ledger.tickets,
    ticket ∈ genesis.tickets ∨ ticket.id ∈ ledger.minedTransactionIds) run
    (fun _ h => .inl h) ?_ (fun _ _ _ h => h) ?_
  · intro _ ledger block effects ledger' ih accepts ticket hticket
    rw [accepts_mined accepts]
    rcases accepts_tickets accepts hticket with ⟨hmem, -⟩ | ⟨-, hid⟩
    · exact (ih ticket hmem).imp_right .inr
    · exact .inr (.inl hid)
  · intro _ ledger recentLimit ih
    simpa using ih

/-! ## The three together -/

/-- The ids of a block are its own: none occurs twice in it, its section attests burns of the block
and nothing else, and from the activation of the replay protection on none occurs in an earlier
block. -/
structure Unrepeated (ledger : Ledger) (earlier : List Block) (block : Block) : Prop where
  signatures_nodup : block.signatures.Nodup
  transactionV2Ids_nodup : (ledger.transactionV2Ids block).Nodup
  attested : ledger.Attested block
  fresh : transactionReplayProtectionActivationHeight ≤ block.height →
    ∀ id ∈ ledger.transactionIds block, ∀ old ∈ earlier, id ∉ ledger.transactionIds old

/-- **Ids.** Along every run the ids of an accepted block are not those of an earlier block. -/
lemma run_unrepeated {genesis middle ledger' : Ledger} {before : List Event} {block : Block}
    (initial : Initial genesis) (run : Run Step genesis before middle)
    (step : Step middle (.accepted block) ledger') :
    genesis.Unrepeated (genesis.genesis :: acceptedBlocks before) block := by
  obtain ⟨effects, accepts⟩ := step_accepted step
  obtain ⟨nowMs, prechecked⟩ := accepts.prechecked
  obtain ⟨hgenesis, hprofile, hmined⟩ := run_mined initial run
  obtain ⟨hsignatures, hids, -⟩ := accepts_ids_nodup accepts
  have hsame : middle.transactionV2Ids block = genesis.transactionV2Ids block := by
    rw [transactionV2Ids, transactionV2Ids, transactionV2Domain_congr hgenesis hprofile]
  refine ⟨hsignatures, hsame ▸ hids, ?_, ?_⟩
  · obtain ⟨hburns, hburnsNodup, hburnsV2, hburnsV2Nodup⟩ := prechecked_attested prechecked
    exact ⟨hburns, hburnsNodup, hburnsV2, hburnsV2Nodup⟩
  · intro hactive id hid old hold hmem
    rw [← transactionIds_congr hgenesis hprofile] at hid
    exact prechecked_ids_new prechecked hactive hid (hmined old hold id hmem)

/-- **Leaders.** Two accepted blocks of a run have different leader tickets; and the ids of the two
are different as well, unless the first is a genesis ticket or the second was burned below the
activation of the replay protection. -/
lemma run_leaders {genesis first first' second second' : Ledger} {before between : List Event}
    {block block' : Block} {ticket ticket' : BurnTicket} (initial : Initial genesis)
    (start : Run Step genesis before first)
    (step : Step first (.accepted block) first') (run : Run Step first' between second)
    (step' : Step second (.accepted block') second')
    (leads : first.leaderTicket block = some ticket)
    (leads' : second.leaderTicket block' = some ticket') :
    ticket ≠ ticket' ∧ (ticket ∉ genesis.tickets →
      transactionReplayProtectionActivationHeight
        + second.launchProfile.ticketMaturityDelayHeights ≤ ticket'.eligibleFromHeight →
      ticket.id ≠ ticket'.id) := by
  obtain ⟨effects, accepts⟩ := step_accepted step
  obtain ⟨effects', accepts'⟩ := step_accepted step'
  obtain ⟨nowMs, prechecked⟩ := accepts.prechecked
  obtain ⟨nowMs', prechecked'⟩ := accepts'.prechecked
  obtain ⟨-, hmem, -⟩ := leaderTicket_eq_some prechecked leads
  have retired := run_retired run
    (accepts_retires accepts (run_tickets_past initial start ticket hmem) leads)
  obtain ⟨-, hmem', -⟩ := leaderTicket_eq_some prechecked' leads'
  refine ⟨?_, fun hnotGenesis hlate heq => ?_⟩
  · rintro rfl
    exact retired.absent hmem'
  · have hmined := (run_tickets_mined start ticket hmem).resolve_left hnotGenesis
    exact not_lt.mpr hlate (retired.recent hmined ticket' hmem' heq.symm)

/-- **Nothing happens twice.** Along every run from a genesis ledger, the transactions of an
accepted block have ids that occur once in it and, from the activation of the replay protection
on, in no earlier block; no stretch of the run consumes an outpoint more than once more than it
creates it; and no two accepted blocks are finalized by the same ticket. -/
theorem nothing_twice {genesis : Ledger} (initial : Initial genesis) :
    (∀ before block middle next, Run Step genesis before middle →
        Step middle (.accepted block) next →
        genesis.Unrepeated (genesis.genesis :: acceptedBlocks before) block)
      ∧ (∀ events ledger, Run Step genesis events ledger →
        ∃ log, Logged genesis events log ledger)
      ∧ (∀ events log ledger, Logged genesis events log ledger → ∀ stretch, stretch <:+: log →
        ∀ outpoint, stretch.count (.take outpoint) ≤ stretch.count (.put outpoint) + 1)
      ∧ ∀ before block between block' first first' second second' ticket ticket',
        Run Step genesis before first → Step first (.accepted block) first' →
        Run Step first' between second → Step second (.accepted block') second' →
        first.leaderTicket block = some ticket → second.leaderTicket block' = some ticket' →
        ticket ≠ ticket' ∧ (ticket ∉ genesis.tickets →
          transactionReplayProtectionActivationHeight
            + second.launchProfile.ticketMaturityDelayHeights ≤ ticket'.eligibleFromHeight →
          ticket.id ≠ ticket'.id) := by
  refine ⟨?_, fun _ _ run => run_logged run, ?_, ?_⟩
  · intro before block middle next run step
    exact run_unrepeated initial run step
  · intro events log ledger logged stretch hstretch outpoint
    obtain ⟨es, hrun, rfl⟩ := logged_run logged
    exact takes_le_puts_infix hrun hstretch outpoint
  · intro _ _ _ _ _ _ _ _ _ _ start step between step' leads leads'
    exact run_leaders initial start step between step' leads leads'

end Ledger

end Iuna

namespace Iuna.Ledger

variable [Crypto]

lemma acceptEach_length {builds : List (Ledger → Block)} {ledger : Ledger}
    {result : List Block × Ledger} (h : acceptEach builds ledger = .ok result) :
    result.1.length = builds.length := by
  induction builds generalizing ledger result with
  | nil =>
    simp only [acceptEach, Outcome.pure_eq_ok] at h
    rw [← h]
    rfl
  | cons build builds ih =>
    simp only [acceptEach, Outcome.bind_eq_ok, Outcome.bailIf_eq_ok, Outcome.pure_eq_ok] at h
    obtain ⟨_, -, _, -, rest, hrest, rfl⟩ := h
    rw [List.length_cons, List.length_cons, ih hrest]

end Iuna.Ledger

namespace Iuna.Toy

open Runs

attribute [local instance] crypto

/-- The blocks of the two mined coins, one after the other. -/
lemma coins_steps : ∃ first second middle, Ledger.Step genesis (.accepted first) middle
    ∧ Ledger.Step middle (.accepted second) coinLedger := by
  have hrun := coins_run
  have hlength : coinBlocks.length = [firstCoins, nextCoin].length := by
    rw [coinBlocks]
    exact Ledger.acceptEach_length (Outcome.eq_ok_value coins coins_isOk)
  obtain ⟨first, second, hblocks⟩ := List.length_eq_two.mp hlength
  rw [hblocks] at hrun
  obtain ⟨middle, hfirst, hrest⟩ := run_cons_iff.mp hrun
  obtain ⟨last, hsecond, hend⟩ := run_cons_iff.mp hrest
  exact ⟨first, second, middle, hfirst, run_nil_iff.mp hend ▸ hsecond⟩

/-- The ids of the second of two blocks. -/
theorem nothing_twice_coins : ∃ first second middle, Ledger.Step genesis (.accepted first) middle
    ∧ Ledger.Step middle (.accepted second) coinLedger
    ∧ genesis.Unrepeated [genesis.genesis, first] second := by
  obtain ⟨first, second, middle, hfirst, hsecond⟩ := coins_steps
  refine ⟨first, second, middle, hfirst, hsecond, ?_⟩
  exact (Ledger.nothing_twice genesis_initial).1 [.accepted first] second middle coinLedger
    (.cons hfirst (.nil _)) hsecond

end Iuna.Toy
