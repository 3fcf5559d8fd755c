import Iuna.Adapters.Fetch
import Iuna.Library.Preserve
import Iuna.Properties.Launch

/-!
# Pool updates while a page of blocks is validated

A page is validated on a clone, and the import replaces the whole ledger of the node, its pools
included.  Whatever the validated ledger has pending comes from the clone: from its pools or from
blocks that the fork abandons (`validateBlocksExtension_known`).  A transaction that the node has
admitted in the meantime is therefore lost whenever the import is carried out and the chain has
not made it obsolete (`noUpdateLost_iff`).
-/

namespace Iuna

open Mutate

/-! ## Where pending transactions come from -/

/-- The pending transactions satisfy a predicate on legacy and one on v2 transactions. -/
structure Pools.Within (legacy : Transaction → Prop) (v2 : TransactionV2 → Prop)
    (pools : Pools) : Prop where
  pending : ∀ transaction ∈ pools.pending, legacy transaction
  orphans : ∀ transaction ∈ pools.orphans, legacy transaction
  pendingV2 : ∀ transaction ∈ pools.pendingV2, v2 transaction

variable {legacy : Transaction → Prop} {v2 : TransactionV2 → Prop}

lemma within_empty : Pools.empty.Within legacy v2 where
  pending := by simp [Pools.empty]
  orphans := by simp [Pools.empty]
  pendingV2 := by simp [Pools.empty]

lemma refreshPendingPoolByteCounters_within :
    Preserves (Pools.Within legacy v2) Ledger.refreshPendingPoolByteCounters := by
  refine preserves_get_bind fun pools within => ?_
  refine preserves_bind (preserves_lift _) (fun _ => ?_) pools within
  refine preserves_bind (preserves_modify fun _ h => ⟨h.pending, h.orphans, h.pendingV2⟩) fun _ => ?_
  refine preserves_bind (preserves_lift _) fun _ => ?_
  exact preserves_modify fun _ h => ⟨h.pending, h.orphans, h.pendingV2⟩

namespace Ledger

variable [Crypto] (ledger : Ledger)

lemma promoteOrphanRounds_within (rounds : ℕ) :
    Preserves (Pools.Within legacy v2) (ledger.promoteOrphanRounds rounds) := by
  induction rounds with
  | zero => exact preserves_pure _
  | succ rounds ih =>
    refine preserves_get_bind fun pools within => ?_
    refine preserves_ite (preserves_pure _) ?_ pools within
    refine preserves_bind (preserves_lift _) fun utxos => ?_
    refine preserves_bind (preserves_lift _) fun promoted => ?_
    cases promoted with
    | none => exact preserves_pure _
    | some promoted =>
      refine preserves_bind (preserves_modify fun current h => ?_) fun _ => ih
      have hpromoted : ∀ transaction ∈ (current.orphans[promoted.1]?).toList,
          legacy transaction := by
        intro transaction hmem
        rw [Option.mem_toList] at hmem
        exact h.orphans transaction (List.mem_of_getElem? hmem)
      exact {
        pending := List.forall_mem_append.mpr ⟨h.pending, hpromoted⟩
        orphans := fun transaction hmem => h.orphans _ (List.mem_of_mem_eraseIdx hmem)
        pendingV2 := h.pendingV2 }

lemma promoteOrphanTransactions_within :
    Preserves (Pools.Within legacy v2) ledger.promoteOrphanTransactions :=
  preserves_get_bind fun _ within => ledger.promoteOrphanRounds_within _ _ within

omit [Crypto] in
lemma filter_within {pools : Pools} (within : pools.Within legacy v2) (keepPending keepOrphan :
    Transaction → Bool) : Pools.Within legacy v2 { pools with
      pending := pools.pending.filter keepPending
      orphans := pools.orphans.filter keepOrphan } where
  pending := fun _ hmem => within.pending _ (List.mem_of_mem_filter hmem)
  orphans := fun _ hmem => within.orphans _ (List.mem_of_mem_filter hmem)
  pendingV2 := within.pendingV2

omit [Crypto] in
lemma makePendingRoom_within (candidate : Transaction) (candidateBytes : ℕ) :
    Preserves (Pools.Within legacy v2) (makePendingRoom candidate candidateBytes) := by
  refine preserves_get_bind fun pools within => ?_
  refine preserves_ite ?_ (preserves_pure _) pools within
  refine preserves_bind (preserves_lift _) fun evicted => ?_
  exact preserves_bind (preserves_modify fun _ h => filter_within h _ _) fun _ =>
    refreshPendingPoolByteCounters_within

lemma admitPending_within {transaction : Transaction} (known : legacy transaction)
    (signingDomain : TransactionSigningDomain) (candidateBytes : ℕ) :
    Preserves (Pools.Within legacy v2)
      (ledger.admitPending transaction signingDomain candidateBytes) := by
  refine preserves_bind (makePendingRoom_within _ _) fun _ => ?_
  refine preserves_get_bind fun pools within => ?_
  refine preserves_bind (preserves_lift _) (fun utxos => ?_) pools within
  refine preserves_bind (preserves_lift _) fun _ => ?_
  refine preserves_bind (preserves_lift _) fun _ => ?_
  refine preserves_bind (preserves_modify fun _ h => ?_) fun _ =>
    ledger.promoteOrphanTransactions_within
  exact {
    pending := List.forall_mem_append.mpr ⟨h.pending, by simpa using known⟩
    orphans := h.orphans
    pendingV2 := h.pendingV2 }

omit [Crypto] in
lemma restoringOnFailure_within {α : Type} {backup : Option Pools}
    (hbackup : ∀ pools, backup = some pools → pools.Within legacy v2)
    {x : Mutate Error Pools α} (preserves : Preserves (Pools.Within legacy v2) x) :
    Preserves (Pools.Within legacy v2) (restoringOnFailure backup x) := by
  intro pools within
  cases hx : x pools with
  | ok a left =>
    have hafter : after (restoringOnFailure backup x) pools = left := by
      simp only [after, restoringOnFailure, hx]
    rw [hafter]
    exact preserves.of_ok hx within
  | error e left =>
    have hleft := preserves.of_error hx within
    cases hback : backup with
    | none =>
      have hafter : after (restoringOnFailure none x) pools = left := by
        simp only [after, restoringOnFailure, hx]
      rw [hafter]
      exact hleft
    | some saved =>
      have hafter : after (restoringOnFailure (some saved) x) pools = { left with
          pending := saved.pending, orphans := saved.orphans,
          pendingBytes := saved.pendingBytes, orphanBytes := saved.orphanBytes } := by
        simp only [after, restoringOnFailure, hx]
      rw [hafter]
      have hsaved := hbackup saved hback
      exact ⟨hsaved.pending, hsaved.orphans, hleft.pendingV2⟩

/-- A submission adds at most the transaction that is submitted. -/
theorem submitTransactionWithOutcome_within {transaction : Transaction}
    (known : legacy transaction) : Preserves (Pools.Within legacy v2)
      (ledger.submitTransactionWithOutcome transaction) := by
  refine preserves_get_bind fun pools within => ?_
  refine preserves_ite (preserves_pure _) ?_ pools within
  refine preserves_bind (preserves_lift _) fun _ => ?_
  refine preserves_bind (preserves_lift _) fun _ => ?_
  refine preserves_bind (preserves_lift _) fun _ => ?_
  refine preserves_bind (preserves_lift _) fun _ => ?_
  refine preserves_bind (preserves_lift _) fun _ => ?_
  refine preserves_ite (preserves_pure _) ?_
  refine preserves_bind (preserves_lift _) fun utxos => ?_
  refine preserves_ite ?_ ?_
  · refine preserves_bind (preserves_lift _) fun _ => ?_
    refine preserves_bind (preserves_lift _) fun _ => ?_
    refine preserves_bind (preserves_lift _) fun _ => ?_
    refine preserves_bind (preserves_modify fun _ h => ?_) fun _ => preserves_pure _
    exact {
      pending := h.pending
      orphans := List.forall_mem_append.mpr ⟨h.orphans, by simpa using known⟩
      pendingV2 := h.pendingV2 }
  · refine preserves_bind (preserves_lift _) fun _ => ?_
    refine preserves_bind (restoringOnFailure_within ?_ (ledger.admitPending_within known _ _))
      fun _ => preserves_pure _
    intro saved hsaved
    split at hsaved
    · exact Option.some.inj hsaved ▸ within
    · cases hsaved

omit [Crypto] in
/-- The end of a v2 submission appends the transaction. -/
lemma appendV2_within {transaction : TransactionV2} (known : v2 transaction)
    (applied : Result (Unit × Utxos)) (length : ℕ) :
    Preserves (Pools.Within legacy v2) (do
      let (_, _) ← (liftM applied : Mutate Error Pools (Unit × Utxos))
      modify fun pools => { pools with
        pendingV2 := pools.pendingV2 ++ [transaction]
        pendingV2Bytes := saturatingAdd pools.pendingV2Bytes length }
      pure TransactionSubmitOutcome.added) := by
  refine preserves_bind (preserves_lift _) fun _ => ?_
  refine preserves_bind (preserves_modify fun _ h => ?_) fun _ => preserves_pure _
  exact {
    pending := h.pending
    orphans := h.orphans
    pendingV2 := List.forall_mem_append.mpr ⟨h.pendingV2, by simpa using known⟩ }

/-- A v2 submission adds at most the transaction that is submitted. -/
theorem submitTransactionV2_within {transaction : TransactionV2} (known : v2 transaction) :
    Preserves (Pools.Within legacy v2) (ledger.submitTransactionV2 transaction) := by
  refine preserves_get_bind fun pools within => ?_
  refine preserves_bind (preserves_lift _) (fun _ => ?_) pools within
  refine preserves_bind (preserves_lift _) fun _ => ?_
  refine preserves_bind (preserves_lift _) fun _ => ?_
  refine preserves_bind (preserves_lift _) fun domain => ?_
  refine preserves_bind (preserves_lift _) fun transactionId => ?_
  refine preserves_ite (preserves_pure _) ?_
  refine preserves_bind (preserves_lift _) fun _ => ?_
  refine preserves_bind (preserves_lift _) fun encoded => ?_
  refine preserves_bind (preserves_lift _) fun _ => ?_
  refine preserves_bind (preserves_lift _) fun _ => ?_
  refine preserves_bind (preserves_lift _) fun _ => ?_
  refine preserves_bind (preserves_lift _) fun utxos => ?_
  have hadd : Preserves (Pools.Within legacy v2) _ := appendV2_within known
    (outcome (applyTransactionV2ToUtxos transaction domain (ledger.withPools pools).network) utxos)
    encoded.length
  dsimp only
  split
  · split
    · exact preserves_bind (preserves_lift _) fun _ => hadd
    · exact hadd
  · exact hadd

lemma revalidatePendingV2Loop_within {domain : TransactionV2Domain} {height : ℕ}
    {transactions : List TransactionV2} (known : ∀ transaction ∈ transactions, v2 transaction)
    (utxos : Utxos) : Preserves (Pools.Within legacy v2)
      (ledger.revalidatePendingV2Loop domain height transactions utxos) := by
  induction transactions generalizing utxos with
  | nil => exact preserves_pure _
  | cons transaction rest ih =>
    rw [List.forall_mem_cons] at known
    refine preserves_bind (preserves_lift _) fun encoded => ?_
    refine preserves_ite ?_ (ih known.2 _)
    refine preserves_bind (preserves_modify fun _ h => ?_) fun _ => ih known.2 _
    exact {
      pending := h.pending
      orphans := h.orphans
      pendingV2 := List.forall_mem_append.mpr ⟨h.pendingV2, by simpa using known.1⟩ }

lemma revalidatePendingV2_within :
    Preserves (Pools.Within legacy v2) ledger.revalidatePendingV2 := by
  have hclear : Preserves (Pools.Within legacy v2) (modify fun pools : Pools =>
      { pools with pendingV2 := [], pendingV2Bytes := 0 } : Mutate Error Pools Unit) :=
    preserves_modify fun _ h => ⟨h.pending, h.orphans, by simp⟩
  refine preserves_ite hclear ?_
  refine preserves_bind (preserves_lift _) fun domain => ?_
  refine preserves_get_bind fun pools within => ?_
  exact preserves_bind hclear (fun _ => ledger.revalidatePendingV2Loop_within within.pendingV2 _)
    pools within

lemma refreshPools_within (minedSignatures : List Str) :
    Preserves (Pools.Within legacy v2) (ledger.refreshPools minedSignatures) := by
  refine preserves_bind (preserves_modify fun _ h => filter_within h _ _) fun _ => ?_
  refine preserves_bind refreshPendingPoolByteCounters_within fun _ => ?_
  exact preserves_bind ledger.promoteOrphanTransactions_within fun _ =>
    ledger.revalidatePendingV2_within

/-! ## What a validated ledger has pending -/

/-- The pending transactions of a ledger satisfy the predicates. -/
def PoolsWithin (legacy : Transaction → Prop) (v2 : TransactionV2 → Prop) (ledger : Ledger) :
    Prop := ledger.toPools.Within legacy v2

lemma applyBlockWithVdfPolicy_within (block : Block) (verifyVdf : Bool) (nowMs : ℕ) :
    Preserves (PoolsWithin legacy v2)
      (applyBlockWithVdfPolicy block verifyVdf nowMs) := by
  refine preserves_get_bind fun ledger within => ?_
  refine preserves_bind (preserves_lift _) (fun isNew => ?_) ledger within
  refine preserves_ite ?_ (preserves_pure _)
  refine preserves_bind (preserves_lift _) fun _ => ?_
  refine preserves_bind (preserves_lift _) fun effects => ?_
  refine preserves_bind (preserves_lift _) fun context => ?_
  have hrecord : PoolsWithin legacy v2 (ledger.recordBlock block effects context) := by
    obtain ⟨_, _, _, _, hrecord⟩ := recordBlock_eq ledger block effects context
    rw [hrecord]
    exact within
  refine preserves_bind (preserves_set hrecord) fun _ => ?_
  refine preserves_get_bind fun recorded hrecorded => ?_
  have hzoom : Preserves (PoolsWithin legacy v2)
      (zoom Ledger.toPools withPools
        (recorded.refreshPools (block.transactions.map Transaction.signature))) :=
    preserves_zoom (recorded.refreshPools_within _) (fun _ h => h) fun _ _ _ h => h
  refine preserves_bind hzoom (fun _ => ?_) recorded hrecorded
  exact preserves_modify fun _ h => h

lemma applyPreverifiedBlocks_within {blocks : List Block} {nowMs : ℕ} {ledger extended : Ledger}
    (applied : applyPreverifiedBlocks blocks nowMs ledger = .ok extended)
    (within : ledger.toPools.Within legacy v2) : extended.toPools.Within legacy v2 := by
  simp only [applyPreverifiedBlocks, Outcome.bind_eq_ok, Mutate.outcome_eq_ok, Outcome.pure_eq_ok]
    at applied
  obtain ⟨⟨_, left⟩, hblocks, rfl⟩ := applied
  have hpreserves : Preserves (PoolsWithin legacy v2)
      (forM blocks fun block => applyPreverifiedBlockAt block nowMs) :=
    preserves_forM fun block _ => applyBlockWithVdfPolicy_within block false nowMs
  exact hpreserves.of_ok hblocks within

omit [Crypto] in
lemma submitIgnoringErrors_toPools {α : Type} (submit : Ledger → Mutate Error Pools α) :
    (ledger.submitIgnoringErrors submit).toPools = after (submit ledger) ledger.toPools := by
  unfold submitIgnoringErrors after
  cases submit ledger ledger.toPools with
  | ok a pools => rfl
  | error e pools => rfl

omit [Crypto] in
/-- Submissions of known transactions, one after the other. -/
lemma foldl_submit_within {τ : Type} {submit : τ → Ledger → Mutate Error Pools TransactionSubmitOutcome}
    {items : List τ}
    (preserves : ∀ item ∈ items, ∀ ledger, Preserves (Pools.Within legacy v2) (submit item ledger))
    {start : Ledger} (within : start.toPools.Within legacy v2) :
    (items.foldl (fun candidate item => candidate.submitIgnoringErrors (submit item))
      start).toPools.Within legacy v2 := by
  induction items generalizing start with
  | nil => exact within
  | cons item items ih =>
    rw [List.forall_mem_cons] at preserves
    rw [List.foldl_cons]
    apply ih preserves.2
    rw [submitIgnoringErrors_toPools]
    exact preserves.1 start _ within

/-- A better chain has pending what its own ledger had, what the local one had, and what the
abandoned blocks contain. -/
lemma replaceWithBetterChain_within {candidate : Ledger} {staleBlocks : List Block}
    (hcandidate : candidate.toPools.Within legacy v2) (hlocal : ledger.toPools.Within legacy v2)
    (hstale : ∀ block ∈ staleBlocks, ∀ transaction ∈ block.transactions, legacy transaction)
    (hstaleV2 : ∀ block ∈ staleBlocks, ∀ envelope ∈ block.transactionsV2, ∀ transaction,
      ledger.decodeStaleEnvelope envelope = some transaction → v2 transaction) :
    (ledger.replaceWithBetterChain candidate staleBlocks).toPools.Within legacy v2 := by
  apply foldl_submit_within
  · intro transaction hmem current
    apply submitTransactionV2_within
    have hcarried := List.mem_of_mem_filter hmem
    rw [List.mem_append, List.mem_flatMap] at hcarried
    rcases hcarried with ⟨block, hblock, henvelope⟩ | hpending
    · obtain ⟨envelope, hin, hdecoded⟩ := List.mem_filterMap.mp henvelope
      exact hstaleV2 block hblock envelope hin transaction hdecoded
    · exact hlocal.pendingV2 transaction hpending
  · apply foldl_submit_within
    · intro transaction hmem current
      apply submitTransactionWithOutcome_within
      have hcarried := List.mem_of_mem_filter hmem
      rw [List.mem_append, List.mem_append, List.mem_flatMap] at hcarried
      rcases hcarried with (hpending | horphan) | ⟨block, hblock, hin⟩
      · exact hlocal.pending transaction hpending
      · exact hlocal.orphans transaction horphan
      · exact hstale block hblock transaction hin
    · exact hcandidate

end Ledger

namespace Ledger

variable [Crypto]

/-- A ledger that is rebuilt from a snapshot has nothing pending. -/
lemma fromSnapshot_within {snapshot : ChainSnapshot} {verifyVdf : Bool} {nowMs : ℕ}
    {ledger : Ledger} (h : fromSnapshotWithVdfPolicy snapshot verifyVdf nowMs = .ok ledger) :
    ledger.toPools.Within legacy v2 := by
  simp only [fromSnapshotWithVdfPolicy, Outcome.bind_eq_ok, Mutate.outcome_eq_ok,
    Outcome.pure_eq_ok] at h
  obtain ⟨start, hstart, ⟨_, last⟩, hblocks, rfl⟩ := h
  obtain ⟨_, _, _, _, _, _, _, _, -, -, -, -, hinitial⟩ := initial_eq (.snapshot hstart)
  have hstart : start.toPools.Within legacy v2 := by
    rw [hinitial]
    exact within_empty
  have hpreserves : Preserves (PoolsWithin legacy v2)
      (forM snapshot.blocks.tail fun block => applyBlockWithVdfPolicy block verifyVdf nowMs) :=
    preserves_forM fun block _ => applyBlockWithVdfPolicy_within block verifyVdf nowMs
  exact hpreserves.of_ok hblocks hstart

end Ledger

/-! ## The clone -/

/-- The local blocks that a fork may abandon. -/
def abandonable (clone : Ledger) (forkBase : Option PersistedForkBase) : List Block :=
  clone.chain ++ (forkBase.map PersistedForkBase.localForkBlocks).getD []

/-- A transaction that the clone has, in its pools or in its blocks. -/
def KnownTo (clone : Ledger) (forkBase : Option PersistedForkBase) (transaction : Transaction) :
    Prop :=
  transaction ∈ clone.pending ∨ transaction ∈ clone.orphans
    ∨ ∃ block ∈ abandonable clone forkBase, transaction ∈ block.transactions

/-- A v2 transaction that the clone has. -/
def KnownV2To (clone : Ledger) (forkBase : Option PersistedForkBase)
    (transaction : TransactionV2) : Prop :=
  transaction ∈ clone.pendingV2 ∨ ∃ block ∈ abandonable clone forkBase,
    ∃ envelope ∈ block.transactionsV2, clone.decodeStaleEnvelope envelope = some transaction

lemma clone_within (clone : Ledger) (forkBase : Option PersistedForkBase) :
    clone.toPools.Within (KnownTo clone forkBase) (KnownV2To clone forkBase) where
  pending := fun _ hmem => .inl hmem
  orphans := fun _ hmem => .inr (.inl hmem)
  pendingV2 := fun _ hmem => .inl hmem

section Clone

variable [Crypto]

/-- A fork whose abandoned blocks the clone knows. -/
lemma replace_within {clone candidate : Ledger} {forkBase : Option PersistedForkBase}
    {staleBlocks : List Block} (hstale : staleBlocks ⊆ abandonable clone forkBase)
    (hcandidate : candidate.toPools.Within (KnownTo clone forkBase) (KnownV2To clone forkBase)) :
    (clone.replaceWithBetterChain candidate staleBlocks).toPools.Within
      (KnownTo clone forkBase) (KnownV2To clone forkBase) := by
  apply clone.replaceWithBetterChain_within hcandidate (clone_within clone forkBase)
  · exact fun block hblock transaction hmem => .inr (.inr ⟨block, hstale hblock, hmem⟩)
  · exact fun block hblock envelope hmem transaction hdecoded =>
      .inr ⟨block, hstale hblock, envelope, hmem, hdecoded⟩

/-- Whatever a validated ledger has pending is known to the clone. -/
theorem validateBlocksExtension_known {clone validated : Ledger}
    {forkBase : Option PersistedForkBase} {blocks : List Block} {nowMs : ℕ}
    (h : validateBlocksExtension forkBase blocks nowMs clone = .ok validated) :
    validated.toPools.Within (KnownTo clone forkBase) (KnownV2To clone forkBase) := by
  have hclone := clone_within clone forkBase
  cases blocks with
  | nil =>
    simp only [validateBlocksExtension, Outcome.pure_eq_ok] at h
    exact h ▸ hclone
  | cons first rest =>
    simp only [validateBlocksExtension] at h
    by_cases hextends : first.prevHash = clone.tip.hash
    · simp only [if_pos hextends, Outcome.bind_eq_ok, Outcome.pure_eq_ok] at h
      obtain ⟨extended, happlied, _, -, rfl⟩ := h
      exact Ledger.applyPreverifiedBlocks_within happlied hclone
    · rw [if_neg hextends] at h
      cases forkBase with
      | some forkBase =>
        simp only [Outcome.bind_eq_ok, Outcome.pure_eq_ok] at h
        obtain ⟨_, -, candidate, happlied, _, -, ⟨replaced, adopted⟩, hadopted, rfl⟩ := h
        have hcandidate := Ledger.applyPreverifiedBlocks_within happlied
          (show forkBase.ledger.toPools.Within (KnownTo clone (some forkBase))
            (KnownV2To clone (some forkBase)) from forkBase.rebuilt ▸ within_empty)
        simp only [Ledger.adoptPrevalidatedFork, Outcome.bind_eq_ok] at hadopted
        obtain ⟨_, -, ancestor, -, _, -, _, -, hadopted⟩ := hadopted
        split at hadopted
        · simp only [Outcome.pure_eq_ok, Prod.mk.injEq] at hadopted
          exact hadopted.2 ▸ hclone
        · simp only [Outcome.pure_eq_ok, Prod.mk.injEq] at hadopted
          rw [← hadopted.2]
          exact replace_within (List.subset_append_right _ _) hcandidate
      | none =>
        simp only [Outcome.bind_eq_ok, Outcome.pure_eq_ok] at h
        obtain ⟨position, -, ⟨replaced, extended⟩, hextended, _, -, rfl⟩ := h
        simp only [Ledger.extendFromSnapshotWithVdfPolicy, Outcome.bind_eq_ok] at hextended
        obtain ⟨_, -, candidate, hcandidate, hadopted⟩ := hextended
        have hwithin := @Ledger.fromSnapshot_within (KnownTo clone none) (KnownV2To clone none) _ _ _ _ _
          hcandidate
        simp only [Ledger.adoptCandidate, Outcome.bind_eq_ok] at hadopted
        obtain ⟨ancestor, -, hadopted⟩ := hadopted
        split at hadopted
        · simp only [Outcome.pure_eq_ok, Prod.mk.injEq] at hadopted
          exact hadopted.2 ▸ hclone
        · simp only [Outcome.pure_eq_ok, Prod.mk.injEq] at hadopted
          rw [← hadopted.2]
          apply replace_within _ hwithin
          exact fun block hblock => List.mem_append_left _ (List.mem_of_mem_filter hblock)

/-! ## The node -/

/-- A transaction that reaches the node from a peer or from its own wallet. -/
inductive Received
  | gossiped (transaction : Transaction)
  | gossipedV2 (envelope : Str)
  | submitted (transaction : Transaction)
  | submittedV2 (transaction : TransactionV2)

variable [SerdeJson]

/-- What the node does with it. -/
def Received.process : Received → Mutate Error Node Unit
  | .gossiped transaction => Node.receiveGossipedTransaction transaction
  | .gossipedV2 envelope => Node.receiveGossipedTransactionV2 envelope
  | .submitted transaction => Node.submitPublicTransaction transaction
  | .submittedV2 transaction => Node.submitPublicTransactionV2 transaction

/-- One transaction is received, accepted or not. -/
def ReceiveStep (node : Node) (received : Received) (node' : Node) : Prop :=
  after received.process node = node'

/-- The import of a validated ledger is carried out: the node is not to be migrated, the chain is
the node's own or replaces a placeholder, and it is higher or has another tip. -/
def Node.Replaces (node : Node) (ledger : Ledger) : Prop :=
  node.networkMigrationFrom = none ∧
    (ledger.genesisHash ≠ node.ledger.genesisHash ∧ node.ledger.isSetupPlaceholder
      ∨ ledger.genesisHash = node.ledger.genesisHash ∧ node.ledger.height ≤ ledger.height
        ∧ (ledger.height = node.ledger.height → ledger.tip.hash ≠ node.ledger.tip.hash))

/-- A legacy transaction that the chain of a ledger does not rule out: without the pools it would
be added. -/
def Ledger.Admissible (ledger : Ledger) (transaction : Transaction) : Prop :=
  ∃ pools, ledger.submitTransactionWithOutcome transaction .empty = .ok .added pools

def Ledger.AdmissibleV2 (ledger : Ledger) (transaction : TransactionV2) : Prop :=
  ∃ pools, ledger.submitTransactionV2 transaction .empty = .ok .added pools

/-- A transaction is in the pools of a ledger. -/
def Ledger.Pending (ledger : Ledger) (transaction : Transaction) : Prop :=
  transaction ∈ ledger.pending ∨ transaction ∈ ledger.orphans

/-- A v2 transaction is in a block, as an envelope that decodes to it. -/
def IncludedV2 (clone : Ledger) (blocks : List Block) (transaction : TransactionV2) : Prop :=
  ∃ block ∈ blocks, ∃ envelope ∈ block.transactionsV2,
    clone.decodeStaleEnvelope envelope = some transaction

/-- Every transaction that the node has admitted since the clone, and that the imported blocks
neither include nor rule out, is in its pools after the import. -/
structure NoUpdateLost (clone : Ledger) (forkBase : Option PersistedForkBase)
    (blocks : List Block) (current imported : Ledger) : Prop where
  legacy : ∀ transaction, current.Pending transaction → ¬ KnownTo clone forkBase transaction →
    (∀ block ∈ blocks, transaction ∉ block.transactions) → imported.Admissible transaction →
      imported.Pending transaction
  v2 : ∀ transaction ∈ current.pendingV2, ¬ KnownV2To clone forkBase transaction →
    ¬ IncludedV2 clone blocks transaction → imported.AdmissibleV2 transaction →
      transaction ∈ imported.pendingV2

/-- The chain of a ledger includes or rules out everything admitted since the clone. -/
structure Obsoletes (clone : Ledger) (forkBase : Option PersistedForkBase)
    (blocks : List Block) (current validated : Ledger) : Prop where
  legacy : ∀ transaction, current.Pending transaction → ¬ KnownTo clone forkBase transaction →
    (∀ block ∈ blocks, transaction ∉ block.transactions) → ¬ validated.Admissible transaction
  v2 : ∀ transaction ∈ current.pendingV2, ¬ KnownV2To clone forkBase transaction →
    ¬ IncludedV2 clone blocks transaction → ¬ validated.AdmissibleV2 transaction

/-! ## The import -/

/-- A property of nodes that neither the pools nor the gossip matter for. -/
structure Node.PoolStable (I : Node → Prop) : Prop where
  pools : ∀ node pools, I node → I { node with ledger := node.ledger.withPools pools }
  gossip : ∀ node envelope, I node → I (node.enqueueGossip envelope)

section Stable

variable {I : Node → Prop} (stable : Node.PoolStable I)

include stable

omit [Crypto] in
lemma submit_stable {α : Type} (submission : Ledger → Mutate Error Pools α) :
    Preserves I (Node.submit submission) := by
  intro node hnode
  unfold Node.submit
  apply preserves_zoom (I := fun _ => True) (fun _ _ => trivial) (fun _ _ => trivial) ?_ node hnode
  exact fun current left hcurrent _ => stable.pools current left hcurrent

omit [Crypto] in
lemma gossipIfAdded_stable (outcome : TransactionSubmitOutcome) (envelope : GossipEnvelope) :
    Preserves I (Node.gossipIfAdded outcome envelope) := by
  apply preserves_modify
  intro node hnode
  split
  · exact stable.gossip node envelope hnode
  · exact hnode

omit [Crypto] in
lemma submitTolerating_stable (tolerated : Error → Bool) (envelope : GossipEnvelope)
    (submission : Ledger → Mutate Error Pools TransactionSubmitOutcome) :
    Preserves I (Node.submitTolerating tolerated envelope submission) := by
  intro node hnode
  cases hsubmit : Node.submit submission node with
  | ok outcome left =>
    have hafter : after (Node.submitTolerating tolerated envelope submission) node
        = after (Node.gossipIfAdded outcome envelope) left := by
      simp only [after, Node.submitTolerating, hsubmit]
    rw [hafter]
    exact gossipIfAdded_stable stable outcome envelope left
      ((submit_stable stable submission).of_ok hsubmit hnode)
  | error error left =>
    have hafter : after (Node.submitTolerating tolerated envelope submission) node = left := by
      simp only [after, Node.submitTolerating, hsubmit]
      split
      · rename_i heq
        split at heq
        · exact (EStateM.Result.ok.inj heq).2.symm
        · cases heq
      · rename_i heq
        split at heq
        · cases heq
        · exact (EStateM.Result.error.inj heq).2.symm
    rw [hafter]
    exact (submit_stable stable submission).of_error hsubmit hnode

lemma receiveGossipedTransactionV2_stable (envelope : Str) :
    Preserves I (Node.receiveGossipedTransactionV2 envelope) := by
  refine preserves_bind (preserves_lift _) fun encoded => ?_
  refine preserves_get_bind fun node hnode => ?_
  exact preserves_bind (preserves_lift _) (fun _ => submitTolerating_stable stable _ _ _) node hnode

/-- Receiving a transaction changes the pools and the gossip only. -/
lemma process_stable (received : Received) : Preserves I received.process := by
  cases received with
  | gossiped transaction => exact submitTolerating_stable stable _ _ _
  | gossipedV2 envelope => exact receiveGossipedTransactionV2_stable stable envelope
  | submitted transaction =>
    exact preserves_bind (submit_stable stable _) fun _ => gossipIfAdded_stable stable _ _
  | submittedV2 transaction =>
    refine preserves_get_bind fun node hnode => ?_
    refine preserves_bind (preserves_lift _) (fun _ => ?_) node hnode
    refine preserves_bind (preserves_lift _) fun _ => ?_
    exact preserves_bind (submit_stable stable _) fun _ => gossipIfAdded_stable stable _ _

end Stable

/-- Receiving transactions leaves the chain alone. -/
lemma run_tip {node current : Node} {events : List Received}
    (run : Runs.Run ReceiveStep node events current) : current.ledger.tip = node.ledger.tip := by
  have stable : Node.PoolStable fun other => other.ledger.tip = node.ledger.tip :=
    { pools := fun _ _ h => h, gossip := fun _ _ h => h }
  refine run.invariant (fun other => other.ledger.tip = node.ledger.tip) ?_ rfl
  rintro before received left hbefore rfl
  exact process_stable stable received before hbefore

omit [Crypto] in
lemma enqueueImportedBlocks_ledger (node : Node) (previousHeight : ℕ) :
    (node.enqueueImportedBlocks previousHeight).ledger = node.ledger := by
  simp only [Node.enqueueImportedBlocks]
  split
  · rfl
  · split
    · rfl
    · rfl

omit [Crypto] in
lemma importVerifiedLedger_of_replaces {node : Node} {ledger : Ledger}
    (replaces : node.Replaces ledger) :
    node.importVerifiedLedger ledger = .ok (true,
      ({ node with ledger := ledger } : Node).pruneBurnBundles.enqueueImportedBlocks
        node.ledger.height) := by
  obtain ⟨hmigration, hreplaces⟩ := replaces
  rcases hreplaces with ⟨hgenesis, hplaceholder⟩ | ⟨hgenesis, hheight, htip⟩
  · simp [Node.importVerifiedLedger, hmigration, hgenesis, hplaceholder]
  · have hkept : ¬ (ledger.height < node.ledger.height
        ∨ ledger.height = node.ledger.height ∧ ledger.tip.hash = node.ledger.tip.hash) := by
      rintro (hlower | ⟨hequal, hsame⟩)
      · omega
      · exact htip hequal hsame
    simp only [Node.importVerifiedLedger, hmigration, hgenesis, hkept]
    simp

omit [Crypto] in
lemma importVerifiedLedger_of_not_replaces {node imported : Node} {ledger : Ledger} {replaced : Bool}
    (notReplaces : ¬ node.Replaces ledger)
    (h : node.importVerifiedLedger ledger = .ok (replaced, imported)) : imported = node := by
  simp only [Node.importVerifiedLedger, Outcome.bind_eq_ok, Outcome.bailIf_eq_ok] at h
  obtain ⟨_, hmigration, _, hgenesis, h⟩ := h
  split at h
  · simp only [Outcome.pure_eq_ok, Prod.mk.injEq] at h
    exact h.2.symm
  · rename_i hnot
    refine absurd ⟨by simpa using hmigration, ?_⟩ notReplaces
    by_cases hsame : ledger.genesisHash = node.ledger.genesisHash
    · refine .inr ⟨hsame, ?_⟩
      simp only [hsame, ne_eq, not_true_eq_false, and_false, not_false_eq_true, true_and,
        not_or, not_and] at hnot
      exact ⟨not_lt.mp hnot.1, hnot.2⟩
    · refine .inl ⟨hsame, ?_⟩
      by_contra hplaceholder
      exact hgenesis ⟨hsame, fun hreplaced => hplaceholder hreplaced.1⟩

omit [Crypto] in
/-- The ledger that the node has after the import. -/
lemma importValidated_ledger (node : Node) (baseTip : Str) (isCurrent : Bool)
    (validated : Result Ledger) :
    (∃ ledger, validated = .ok ledger ∧ isCurrent = true ∧ node.ledger.tip.hash = baseTip
        ∧ node.Replaces ledger ∧ (node.importValidated baseTip isCurrent validated).ledger = ledger)
      ∨ (∀ ledger, validated = .ok ledger → isCurrent = true → node.ledger.tip.hash = baseTip →
          ¬ node.Replaces ledger)
        ∧ node.importValidated baseTip isCurrent validated = node := by
  cases validated with
  | error e => exact .inr ⟨(fun _ h => by cases h), rfl⟩
  | ok ledger =>
    by_cases hguard : isCurrent = true ∧ node.ledger.tip.hash = baseTip
    · by_cases hreplaces : node.Replaces ledger
      · refine .inl ⟨ledger, rfl, hguard.1, hguard.2, hreplaces, ?_⟩
        simp only [Node.importValidated, if_pos hguard,
          importVerifiedLedger_of_replaces hreplaces]
        exact enqueueImportedBlocks_ledger _ _
      · refine .inr ⟨?_, ?_⟩
        · intro other hother _ _
          exact Except.ok.inj hother ▸ hreplaces
        · simp only [Node.importValidated, if_pos hguard]
          split
          · rename_i himport
            exact importVerifiedLedger_of_not_replaces hreplaces himport
          · rfl
    · refine .inr ⟨fun _ _ hcurrent htip => absurd ⟨hcurrent, htip⟩ hguard, ?_⟩
      simp only [Node.importValidated, if_neg hguard]

/-- Pool updates survive the import of a page exactly if the import is not carried out, or the
imported chain has made all of them obsolete. -/
theorem noUpdateLost_iff {node current : Node} {events : List Received}
    (run : Runs.Run ReceiveStep node events current) (forkBase : Option PersistedForkBase)
    (blocks : List Block) (nowMs : ℕ) (isCurrent : Bool) :
    NoUpdateLost node.ledger forkBase blocks current.ledger (current.importValidated
        node.ledger.tip.hash isCurrent
        (validateBlocksExtension forkBase blocks nowMs node.ledger)).ledger ↔
      ∀ validated, validateBlocksExtension forkBase blocks nowMs node.ledger = .ok validated →
        isCurrent = true → current.Replaces validated →
          Obsoletes node.ledger forkBase blocks current.ledger validated := by
  have htip : current.ledger.tip.hash = node.ledger.tip.hash := by rw [run_tip run]
  rcases importValidated_ledger current node.ledger.tip.hash isCurrent
    (validateBlocksExtension forkBase blocks nowMs node.ledger) with
    ⟨ledger, hvalidated, hcurrent, -, hreplaces, himported⟩ | ⟨hnot, himported⟩
  · rw [himported, hvalidated]
    have hknown := validateBlocksExtension_known hvalidated
    constructor
    · rintro kept _ ⟨⟩ - -
      -- what is pending after the import is known to the clone, so nothing new can be
      refine ⟨?_, ?_⟩
      · intro transaction hpending hnew hnotIncluded hadmissible
        rcases kept.legacy transaction hpending hnew hnotIncluded hadmissible with hkept | hkept
        · exact hnew (hknown.pending transaction hkept)
        · exact hnew (hknown.orphans transaction hkept)
      · intro transaction hpending hnew hnotIncluded hadmissible
        exact hnew (hknown.pendingV2 transaction
          (kept.v2 transaction hpending hnew hnotIncluded hadmissible))
    · intro h
      have hobsoletes := h ledger rfl hcurrent hreplaces
      exact {
        legacy := fun transaction hpending hnew hnotIncluded hadmissible =>
          absurd hadmissible (hobsoletes.legacy transaction hpending hnew hnotIncluded)
        v2 := fun transaction hpending hnew hnotIncluded hadmissible =>
          absurd hadmissible (hobsoletes.v2 transaction hpending hnew hnotIncluded) }
  · rw [himported]
    apply iff_of_true
    · exact { legacy := fun _ hpending _ _ _ => hpending, v2 := fun _ hpending _ _ _ => hpending }
    · exact fun validated hvalidated hcurrent hreplaces =>
        absurd hreplaces (hnot validated hvalidated hcurrent htip)

end Clone

namespace Toy

attribute [local instance] crypto

/-- A serializer of which only the lengths of lines matter here. -/
@[reducible]
def emptyLines : SerdeJson where
  Line := GossipEnvelope
  len := fun _ => 0
  isBlank := fun _ => false
  toString := id
  fromStr := some
  blockLen := fun _ => 0

attribute [local instance] emptyLines

/-- A node without bundles and gossip. -/
def quietNode (ledger : Ledger) : Node where
  ledger := ledger
  networkMigrationFrom := none
  burnBundles := ∅
  equivocatedBurnBundleSlots := ∅
  outbox := { entries := [], bytes := 0 }

/-- The node on the genesis block after a mine action has been submitted. -/
def minedNode : Node := after (Received.submitted (minedCoin 0)).process (quietNode genesis)

def extension : Result Ledger := validateBlocksExtension none [block] block.timestampMs genesis

set_option maxRecDepth 10000 in
/-- The extension replaces the ledger of the node, has not seen the mine action, and would take
it. -/
lemma extension_replaces : extension.toOption.any (fun extended => decide (
    (minedNode.networkMigrationFrom = none
      ∧ extended.genesisHash = minedNode.ledger.genesisHash
      ∧ minedNode.ledger.height < extended.height
      ∧ minedNode.ledger.tip.hash = genesis.tip.hash)
    ∧ (∀ old ∈ genesis.chain, minedCoin 0 ∉ old.transactions)
    ∧ (minedCoin 0 ∉ block.transactions ∧ extended.pending = [] ∧ extended.orphans = [])
    ∧ minedNode.ledger.pending = [minedCoin 0]
    ∧ (outcome (extended.submitTransactionWithOutcome (minedCoin 0)) .empty).toOption.map
      Prod.fst = some .added)) = true := by
  decide +kernel

lemma extension_isOk : extension.isOk = true := Outcome.isOk_of_any extension_replaces

/-- The genesis ledger extended by the first block. -/
def extended : Ledger := Outcome.value extension extension_isOk

lemma extension_eq : extension = .ok extended := Outcome.eq_ok_value _ _

/-- The submission of the mine action to a ledger without pending transactions. -/
def readmission : Result (TransactionSubmitOutcome × Pools) :=
  outcome (extended.submitTransactionWithOutcome (minedCoin 0)) .empty

/-- The node after the mine action has come a second time. -/
def remindedNode : Node := after (Received.submitted (minedCoin 0)).process minedNode

set_option maxRecDepth 10000 in
lemma remindedNode_pools : (remindedNode.ledger.pending = minedNode.ledger.pending
      ∧ remindedNode.ledger.orphans = minedNode.ledger.orphans)
    ∧ remindedNode.ledger.pendingV2 = minedNode.ledger.pendingV2 := by
  decide +kernel

set_option maxRecDepth 10000 in
lemma remindedNode_imports : (remindedNode.importValidated minedNode.ledger.tip.hash true
    (validateBlocksExtension none [block] block.timestampMs minedNode.ledger)).ledger.pending
      = [minedCoin 0] := by
  decide +kernel

/-- A mine action comes again while the first block is validated on a clone that has it: it stays
pending over the import. -/
theorem noUpdateLost_reminded :
    (remindedNode.importValidated minedNode.ledger.tip.hash true
        (validateBlocksExtension none [block] block.timestampMs minedNode.ledger)).ledger.pending
      = [minedCoin 0]
    ∧ NoUpdateLost minedNode.ledger none [block] remindedNode.ledger
      (remindedNode.importValidated minedNode.ledger.tip.hash true
        (validateBlocksExtension none [block] block.timestampMs minedNode.ledger)).ledger := by
  obtain ⟨⟨hpending, horphans⟩, hv2⟩ := remindedNode_pools
  have run : Runs.Run ReceiveStep minedNode [.submitted (minedCoin 0)] remindedNode :=
    .cons rfl (.nil _)
  refine ⟨remindedNode_imports, (noUpdateLost_iff run none [block] block.timestampMs true).mpr ?_⟩
  rintro validated - - -
  refine ⟨fun transaction waits hnew => absurd ?_ hnew,
    fun transaction waits hnew => absurd ?_ hnew⟩
  · rw [Ledger.Pending, hpending, horphans] at waits
    exact waits.imp_right .inl
  · exact .inl (hv2 ▸ waits)

lemma extended_facts :
    (minedNode.networkMigrationFrom = none
      ∧ extended.genesisHash = minedNode.ledger.genesisHash
      ∧ minedNode.ledger.height < extended.height
      ∧ minedNode.ledger.tip.hash = genesis.tip.hash)
    ∧ (∀ old ∈ genesis.chain, minedCoin 0 ∉ old.transactions)
    ∧ (minedCoin 0 ∉ block.transactions ∧ extended.pending = [] ∧ extended.orphans = [])
    ∧ minedNode.ledger.pending = [minedCoin 0]
    ∧ readmission.toOption.map Prod.fst = some .added := by
  rw [readmission, extended]
  have hfacts := Outcome.value_of_any extension_replaces extension_isOk
  rwa [decide_eq_true_eq] at hfacts

/-- A transaction is admissible where its submission to empty pools adds it. -/
lemma admissible_of_added {ledger : Ledger} {transaction : Transaction}
    (added : (outcome (ledger.submitTransactionWithOutcome transaction) .empty).toOption.map
      Prod.fst = some .added) : ledger.Admissible transaction := by
  unfold outcome at added
  split at added
  · rename_i result pools hresult
    have hadded : result = .added := by
      simpa only [Except.toOption, Option.map_some, Option.some.injEq] using added
    exact ⟨pools, by rw [hresult, hadded]⟩
  · cases added

lemma minedCoin_admissible : extended.Admissible (minedCoin 0) := by
  obtain ⟨-, -, -, -, hadded⟩ := extended_facts
  rw [readmission] at hadded
  exact admissible_of_added hadded

/-- A mine action that is submitted while the first block is validated is gone after the
import. -/
theorem minedCoin_lost : ¬ NoUpdateLost genesis none [block] minedNode.ledger
    (minedNode.importValidated genesis.tip.hash true
      (validateBlocksExtension none [block] block.timestampMs genesis)).ledger := by
  intro kept
  obtain ⟨⟨hmigration, hgenesis, hheight, htip⟩, hchain, ⟨hblock, hpending, horphans⟩, hmined, -⟩ :=
    extended_facts
  have himported : (minedNode.importValidated genesis.tip.hash true extension).ledger
      = extended := by
    rcases importValidated_ledger minedNode genesis.tip.hash true extension with
      ⟨ledger, hvalidated, -, -, -, hledger⟩ | ⟨hnot, -⟩
    · rw [hledger]
      exact Except.ok.inj (hvalidated.symm.trans extension_eq)
    · refine absurd ⟨hmigration, .inr ⟨hgenesis, hheight.le, fun hequal => ?_⟩⟩
        (hnot extended extension_eq rfl htip)
      exact absurd hequal hheight.ne'
  have hnew : ¬ KnownTo genesis none (minedCoin 0) := by
    obtain ⟨_, _, _, _, _, _, _, _, -, -, -, -, hinitial⟩ := Ledger.initial_eq genesis_initial
    have hempty : genesis.toPools = .empty := by
      rw [hinitial]
      rfl
    rintro (hin | hin | ⟨old, hold, hin⟩)
    · rw [hempty] at hin
      cases hin
    · rw [hempty] at hin
      cases hin
    · rw [abandonable, Option.map_none, Option.getD_none, List.append_nil] at hold
      exact hchain old hold hin
  have hcurrent : minedNode.ledger.Pending (minedCoin 0) :=
    .inl (hmined ▸ List.mem_singleton.mpr rfl)
  have hlegacy := kept.legacy (minedCoin 0) hcurrent hnew (by simpa using hblock)
  have hextension : validateBlocksExtension none [block] block.timestampMs genesis = extension :=
    rfl
  rw [hextension, himported] at hlegacy
  rcases hlegacy minedCoin_admissible with hin | hin
  · rw [hpending] at hin
    cases hin
  · rw [horphans] at hin
    cases hin

end Toy

end Iuna
