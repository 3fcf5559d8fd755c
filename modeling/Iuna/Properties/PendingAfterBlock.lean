import Iuna.Properties.MempoolLimits

/-!
# Pending transactions after a block

After a block the pending pool is filtered against the outputs of the new chain alone.  A pending
transaction that spends an output of another one that stays pending is therefore dropped, although
the pool as a whole is still valid (`remainingPending`).  Nothing is dropped wrongly exactly if the
transactions that could remain spend outputs of the chain only (`keepsPending_iff`).
-/

namespace Iuna

open Mutate

/-! ## Outputs -/

section Outputs

variable {utxos : Utxos} {outpoint : OutPoint}

/-- The outpoints that a transaction creates. -/
def Transaction.createdOutpoints (transaction : Transaction) : List OutPoint :=
  (createdOutputs transaction).map Prod.fst

/-- The outputs after a transaction. -/
def outputsAfter (utxos : Utxos) (transaction : Transaction) : Utxos :=
  insertOutputs (transaction.inputs.foldl (fun utxos input => utxos.erase input.outpoint) utxos)
    (createdOutputs transaction)

lemma mem_of_mem_insertOutputs {created : List (OutPoint × TxOutput)}
    (h : outpoint ∈ insertOutputs utxos created) :
    outpoint ∈ utxos ∨ outpoint ∈ created.map Prod.fst := by
  induction created generalizing utxos with
  | nil => exact .inl h
  | cons entry created ih =>
    rcases ih h with hin | hin
    · rw [Std.ExtTreeMap.mem_insert] at hin
      rcases hin with heq | hin
      · rw [Std.LawfulEqOrd.compare_eq_iff_eq] at heq
        exact .inr (heq ▸ List.mem_cons_self)
      · exact .inl hin
    · exact .inr (List.mem_cons_of_mem _ hin)

lemma mem_of_mem_eraseInputs {inputs : List TxInput}
    (h : outpoint ∈ inputs.foldl (fun utxos input => utxos.erase input.outpoint) utxos) :
    outpoint ∈ utxos := by
  induction inputs generalizing utxos with
  | nil => exact h
  | cons input inputs ih =>
    have hin := ih h
    rw [Std.ExtTreeMap.mem_erase] at hin
    exact hin.2

lemma mem_of_mem_outputsAfter {transaction : Transaction}
    (h : outpoint ∈ outputsAfter utxos transaction) :
    outpoint ∈ utxos ∨ outpoint ∈ transaction.createdOutpoints :=
  (mem_of_mem_insertOutputs h).imp mem_of_mem_eraseInputs id

/-- Inputs that could be spent were there. -/
lemma available_of_spendInputs {inputs : List TxInput} {middle : Utxos} {total : Amount}
    (spent : spendInputs inputs utxos = .ok total middle) :
    ∀ input ∈ inputs, input.outpoint ∈ utxos := by
  have hloop : ∀ {inputs : List TxInput} {before after : List OutPoint × Amount}
      {utxos middle : Utxos}, inputs.foldlM spendInput before utxos = .ok after middle →
      ∀ input ∈ inputs, input.outpoint ∈ utxos := by
    intro inputs
    induction inputs with
    | nil => exact fun _ _ h => by cases h
    | cons first rest ih =>
      intro before after utxos middle hrun
      obtain ⟨next, between, hfirst, hrest⟩ := Mutate.foldlM_cons_eq_ok.mp hrun
      obtain ⟨-, output, hget, -, -, hstate, -⟩ := spendInput_eq_ok.mp hfirst
      refine List.forall_mem_cons.mpr ⟨?_, fun input hinput => ?_⟩
      · rw [Std.ExtTreeMap.mem_iff_isSome_getElem?, hget]
        rfl
      · have hin := ih hrest input hinput
        rw [hstate, Std.ExtTreeMap.mem_erase] at hin
        exact hin.2
  obtain ⟨locals, _, hrun, -⟩ := Mutate.bind_eq_ok.mp spent
  exact hloop hrun

end Outputs

namespace Ledger

variable [Crypto] {ledger ledger' : Ledger} {block : Block}

/-! ## What pending transactions spend -/

/-- An output of the chain or of a pending transaction. -/
def Grounded (utxos : Utxos) (pending : List Transaction) (outpoint : OutPoint) : Prop :=
  outpoint ∈ utxos ∨ ∃ parent ∈ pending, outpoint ∈ parent.createdOutpoints

omit [Crypto] in
lemma Grounded.mono {utxos : Utxos} {pending pending' : List Transaction} {outpoint : OutPoint}
    (grounded : Grounded utxos pending outpoint) (subset : pending ⊆ pending') :
    Grounded utxos pending' outpoint :=
  grounded.imp id fun ⟨parent, hparent, hcreated⟩ => ⟨parent, subset hparent, hcreated⟩

/-- The transactions selected as valid, and those still to try, are pending ones. -/
lemma validPending_subset (ledger : Ledger) :
    ∀ transaction ∈ ledger.validPendingTransactions, transaction ∈ ledger.pending := by
  let Within (state : ValidPending) : Prop := (∀ transaction ∈ state.valid,
    transaction ∈ ledger.pending) ∧ ∀ transaction ∈ state.stillPending, transaction ∈ ledger.pending
  have hstep : ∀ (state : ValidPending) (transaction : Transaction), Within state →
      transaction ∈ ledger.pending → Within (ledger.validPendingStep state transaction) := by
    intro state transaction h hpending
    have hvalid : ∀ other ∈ state.valid ++ [transaction], other ∈ ledger.pending :=
      List.forall_mem_append.mpr ⟨h.1, by simpa using hpending⟩
    have hstill : ∀ other ∈ state.stillPending ++ [transaction], other ∈ ledger.pending :=
      List.forall_mem_append.mpr ⟨h.2, by simpa using hpending⟩
    unfold validPendingStep
    dsimp only
    split
    · exact h
    · split
      · split
        · exact ⟨hvalid, h.2⟩
        · exact ⟨h.1, hstill⟩
      · exact ⟨h.1, hstill⟩
  have hfold : ∀ (transactions : List Transaction) (state : ValidPending), Within state →
      (∀ transaction ∈ transactions, transaction ∈ ledger.pending) →
      Within (transactions.foldl ledger.validPendingStep state) := by
    intro transactions
    induction transactions with
    | nil => exact fun _ h _ => h
    | cons transaction rest ih =>
      intro state h hmem
      rw [List.forall_mem_cons] at hmem
      exact ih _ (hstep state transaction h hmem.1) hmem.2
  have hrounds : ∀ (fuel : ℕ) (state : ValidPending), Within state →
      ∀ transaction ∈ ledger.validPendingRounds fuel state, transaction ∈ ledger.pending := by
    intro fuel
    induction fuel with
    | zero => exact fun _ h => h.1
    | succ fuel ih =>
      intro state h
      unfold validPendingRounds
      have hround := hfold state.stillPending
        { state with progressed := false, stillPending := [] } ⟨h.1, by simp⟩ h.2
      split
      · exact h.1
      · dsimp only
        split
        · exact ih _ hround
        · exact hround.1
  exact hrounds _ _ ⟨by simp, fun _ h => h⟩

/-- What can be spent beside the pending transactions is an output of the chain or of one of
them. -/
lemma grounded_of_spendable {outpoint : OutPoint}
    (h : outpoint ∈ ledger.utxosAfterSpendablePending) :
    Grounded ledger.utxos ledger.pending outpoint := by
  let AllGrounded (utxos : Utxos) : Prop := ∀ outpoint ∈ utxos,
    Grounded ledger.utxos ledger.pending outpoint
  have hfold : ∀ (transactions : List Transaction) (utxos : Utxos), AllGrounded utxos →
      (∀ transaction ∈ transactions, transaction ∈ ledger.pending) →
      AllGrounded (transactions.foldl (fun utxos pending =>
        if pending.isMine then utxos
        else (Mutate.attempt (applySpendablePendingTransaction pending
          (ledger.transactionSigningDomainForPending pending)) utxos).2) utxos) := by
    intro transactions
    induction transactions with
    | nil => exact fun _ h _ => h
    | cons transaction rest ih =>
      intro utxos hgrounded hmem
      rw [List.forall_mem_cons] at hmem
      refine ih _ ?_ hmem.2
      dsimp only
      split
      · exact hgrounded
      · have hpreserves : Preserves AllGrounded (applySpendablePendingTransaction transaction
            (ledger.transactionSigningDomainForPending transaction)) := by
          refine preserves_bind (preserves_lift _) fun _ => ?_
          refine preserves_bind (preserves_lift _) fun _ => ?_
          refine preserves_bind (preserves_lift _) fun _ => ?_
          refine preserves_get_bind fun utxos hutxos => ?_
          refine preserves_bind (preserves_lift _) (fun _ => ?_) utxos hutxos
          refine preserves_bind (preserves_lift _) fun _ => ?_
          refine preserves_bind (preserves_lift _) fun _ => ?_
          refine preserves_bind (preserves_lift _) fun _ => ?_
          refine preserves_modify fun utxos hutxos outpoint hin => ?_
          rcases mem_of_mem_outputsAfter hin with hin | hin
          · exact hutxos outpoint hin
          · exact .inr ⟨transaction, hmem.1, hin⟩
        rcases Mutate.attempt_cases (applySpendablePendingTransaction transaction
          (ledger.transactionSigningDomainForPending transaction)) utxos with
          ⟨u, utxos', happlied, hattempt⟩ | ⟨e, utxos', hfailed, hattempt⟩
        · rw [hattempt]
          exact hpreserves.of_ok happlied hgrounded
        · rw [hattempt]
          exact hpreserves.of_error hfailed hgrounded
  exact hfold _ _ (fun _ => .inl) ledger.validPending_subset outpoint h

/-- A transaction that may be promoted spends such outputs. -/
lemma grounded_of_validateNewTransaction {transaction : Transaction}
    (h : Outcome.succeeds (ledger.validateNewTransaction transaction) = true) :
    ∀ input ∈ transaction.inputs, Grounded ledger.utxos ledger.pending input.outpoint := by
  obtain ⟨_, h⟩ := Outcome.succeeds_iff.mp h
  simp only [validateNewTransaction, Outcome.bind_eq_ok, Mutate.outcome_eq_ok, Prod.exists] at h
  obtain ⟨_, -, _, -, _, -, _, -, _, _, happlied, -⟩ := h
  obtain ⟨-, -, total, middle, hspent, -⟩ := applyTransaction_eq_ok.mp happlied
  exact fun input hinput => grounded_of_spendable (available_of_spendInputs hspent input hinput)

/-! ## The refresh of the pools -/

/-- The pools after the refresh: orphans of the filtered pools may have been promoted, and every
pending transaction spends outputs of the chain or of pending transactions. -/
structure Refreshed (utxos : Utxos) (base pools : Pools) : Prop where
  pending : ∃ promoted, pools.pending = base.pending ++ promoted
    ∧ ∀ transaction ∈ promoted, transaction ∈ base.orphans
  orphans : ∀ transaction ∈ pools.orphans, transaction ∈ base.orphans
  grounded : ∀ transaction ∈ pools.pending, ∀ input ∈ transaction.inputs,
    Grounded utxos pools.pending input.outpoint

variable {base pools : Pools} {utxos : Utxos}

omit [Crypto] in
/-- Changes of the counters and of the v2 pool do not matter. -/
lemma Refreshed.congr (refreshed : Refreshed utxos base pools) {pools' : Pools}
    (pending : pools'.pending = pools.pending) (orphans : pools'.orphans = pools.orphans) :
    Refreshed utxos base pools' := by
  refine ⟨?_, ?_, ?_⟩
  · rw [pending]
    exact refreshed.pending
  · rw [orphans]
    exact refreshed.orphans
  · rw [pending]
    exact refreshed.grounded

omit [Crypto] in
lemma refreshCounters_refreshed :
    Preserves (Refreshed utxos base) refreshPendingPoolByteCounters := by
  refine preserves_get_bind fun pools refreshed => ?_
  refine preserves_bind (preserves_lift _) (fun _ => ?_) pools refreshed
  refine preserves_bind (preserves_modify fun _ h => h.congr rfl rfl) fun _ => ?_
  refine preserves_bind (preserves_lift _) fun _ => ?_
  exact preserves_modify fun _ h => h.congr rfl rfl

lemma promoteOrphanRounds_refreshed (rounds : ℕ) :
    Preserves (Refreshed ledger.utxos base) (ledger.promoteOrphanRounds rounds) := by
  induction rounds with
  | zero => exact preserves_pure _
  | succ rounds ih =>
    refine preserves_get_bind fun pools refreshed => ?_
    by_cases hfull : maxPendingTransactions ≤ pools.pending.length
    · rw [if_pos hfull]
      exact refreshed
    · rw [if_neg hfull]
      refine holds_lift_bind refreshed fun _ _ => ?_
      refine holds_lift_bind refreshed fun promoted hpromoted => ?_
      cases promoted with
      | none => exact refreshed
      | some promoted =>
        obtain ⟨index, bytes⟩ := promoted
        obtain ⟨orphan, hmem, -, -, hvalid⟩ := findPromotedOrphan_spec hpromoted
        have hget := List.mem_zipIdx_iff_getElem?.mp hmem
        have horphan : orphan ∈ pools.orphans := List.mem_of_getElem? hget
        have hspends := grounded_of_validateNewTransaction hvalid
        obtain ⟨earlier, hpending, hearlier⟩ := refreshed.pending
        refine ih _ ⟨⟨earlier ++ [orphan], ?_, ?_⟩, fun transaction hin => ?_, ?_⟩
        · rw [← List.append_assoc, ← hpending]
          dsimp only
          rw [hget]
          rfl
        · exact List.forall_mem_append.mpr ⟨hearlier, by simpa using refreshed.orphans _ horphan⟩
        · exact refreshed.orphans transaction (List.mem_of_mem_eraseIdx hin)
        · dsimp only
          rw [hget, Option.toList_some]
          refine List.forall_mem_append.mpr ⟨fun transaction hin input hinput => ?_, ?_⟩
          · exact (refreshed.grounded transaction hin input hinput).mono
              (List.subset_append_left _ _)
          · simp only [List.mem_singleton, forall_eq]
            exact fun input hinput => (hspends input hinput).mono (List.subset_append_left _ _)

lemma promoteOrphanTransactions_refreshed :
    Preserves (Refreshed ledger.utxos base) ledger.promoteOrphanTransactions :=
  preserves_get_bind fun _ refreshed => promoteOrphanRounds_refreshed _ _ refreshed

lemma revalidatePendingV2Loop_refreshed (domain : TransactionV2Domain) (height : ℕ)
    (transactions : List TransactionV2) (spendable : Utxos) : Preserves (Refreshed utxos base)
      (ledger.revalidatePendingV2Loop domain height transactions spendable) := by
  induction transactions generalizing spendable with
  | nil => exact preserves_pure _
  | cons transaction rest ih =>
    refine preserves_bind (preserves_lift _) fun encoded => ?_
    refine preserves_ite ?_ (ih _)
    exact preserves_bind (preserves_modify fun _ h => h.congr rfl rfl) fun _ => ih _

lemma revalidatePendingV2_refreshed :
    Preserves (Refreshed utxos base) ledger.revalidatePendingV2 := by
  have hclear : Preserves (Refreshed utxos base) (modify fun pools : Pools =>
      { pools with pendingV2 := [], pendingV2Bytes := 0 } : Mutate Error Pools Unit) :=
    preserves_modify fun _ h => h.congr rfl rfl
  refine preserves_ite hclear ?_
  refine preserves_bind (preserves_lift _) fun domain => ?_
  refine preserves_get_bind fun pools refreshed => ?_
  exact preserves_bind hclear (fun _ => revalidatePendingV2Loop_refreshed _ _ _ _) pools refreshed

/-- The pools that the filter leaves. -/
def filteredPools (ledger : Ledger) (minedSignatures : List Str) (pools : Pools) : Pools :=
  { pools with
    pending := pools.pending.filter fun transaction =>
      transactionInputsAvailable transaction ledger.utxos
        ∧ ledger.survivesBlock minedSignatures transaction
    orphans := pools.orphans.filter (ledger.survivesBlock minedSignatures) }

lemma refreshPools_refreshed (minedSignatures : List Str) (pools : Pools) :
    Refreshed ledger.utxos (ledger.filteredPools minedSignatures pools)
      (after (ledger.refreshPools minedSignatures) pools) := by
  have hfiltered : Refreshed ledger.utxos (ledger.filteredPools minedSignatures pools)
      (ledger.filteredPools minedSignatures pools) := by
    refine ⟨⟨[], by simp, by simp⟩, fun _ h => h, fun transaction hmem input hinput => .inl ?_⟩
    have hkept := List.of_mem_filter hmem
    simp only [transactionInputsAvailable, Bool.decide_and, Bool.and_eq_true, decide_eq_true_eq,
      List.all_eq_true] at hkept
    exact hkept.1 input hinput
  have hrest : Preserves (Refreshed ledger.utxos (ledger.filteredPools minedSignatures pools)) (do
      refreshPendingPoolByteCounters
      ledger.promoteOrphanTransactions
      ledger.revalidatePendingV2) := by
    refine preserves_bind refreshCounters_refreshed fun _ => ?_
    exact preserves_bind promoteOrphanTransactions_refreshed fun _ => revalidatePendingV2_refreshed
  exact hrest _ hfiltered

/-! ## A block -/

/-- The pending transactions that can remain after a block: they are not included and still valid,
and their inputs are unspent on the outputs of the chain with the transactions before them that
remain. -/
def remainingPending (ledger : Ledger) (minedSignatures : List Str) :
    List Transaction → Utxos → List Transaction
  | [], _ => []
  | transaction :: rest, utxos =>
    if ledger.survivesBlock minedSignatures transaction
        ∧ transactionInputsAvailable transaction utxos then
      transaction :: ledger.remainingPending minedSignatures rest (outputsAfter utxos transaction)
    else ledger.remainingPending minedSignatures rest utxos

lemma mem_remainingPending {minedSignatures : List Str} {pending : List Transaction}
    {utxos : Utxos} {transaction : Transaction}
    (h : transaction ∈ ledger.remainingPending minedSignatures pending utxos) :
    transaction ∈ pending ∧ ledger.survivesBlock minedSignatures transaction = true := by
  induction pending generalizing utxos with
  | nil => cases h
  | cons first rest ih =>
    unfold remainingPending at h
    split at h
    · rename_i hremains
      rcases List.mem_cons.mp h with rfl | hin
      · exact ⟨List.mem_cons_self, hremains.1⟩
      · exact ⟨List.mem_cons_of_mem _ (ih hin).1, (ih hin).2⟩
    · exact ⟨List.mem_cons_of_mem _ (ih h).1, (ih h).2⟩

/-- What a block must leave of the pending transactions. -/
structure KeepsPending (ledger ledger' : Ledger) (block : Block) : Prop where
  kept : ∀ transaction ∈ ledger'.remainingPending (block.transactions.map Transaction.signature)
    ledger.pending ledger'.utxos, transaction ∈ ledger'.pending ∨ transaction ∈ ledger'.orphans
  noConflict : ∀ transaction ∈ ledger'.pending,
    transaction.signature ∉ block.transactions.map Transaction.signature
    ∧ ∀ input ∈ transaction.inputs, Grounded ledger'.utxos ledger'.pending input.outpoint

/-- The ledger after an accepted block, and the one on which its pools were refreshed. -/
lemma accepted_eq {verifyVdf : Bool} {nowMs : ℕ}
    (isNew : ledger.precheckBlockWithoutVdfAt block nowMs = .ok true)
    (accepted : applyBlockWithVdfPolicy block verifyVdf nowMs ledger = .ok () ledger') :
    ∃ (recorded : Ledger) (pools : Pools) (vdfRounds : ℕ), recorded.toPools = ledger.toPools
      ∧ recorded.refreshPools (block.transactions.map Transaction.signature) ledger.toPools
        = .ok () pools
      ∧ ledger' = { recorded.withPools pools with vdfRounds := vdfRounds } := by
  unfold applyBlockWithVdfPolicy at accepted
  simp only [Mutate.get_bind_eq_ok, Mutate.liftM_eq_lift, Mutate.lift_bind_eq_ok, isNew,
    Except.ok.injEq] at accepted
  obtain ⟨_, rfl, accepted⟩ := accepted
  rw [if_pos rfl] at accepted
  simp only [Mutate.lift_bind_eq_ok, Mutate.set_bind_eq_ok, Mutate.get_bind_eq_ok] at accepted
  obtain ⟨_, -, effects, -, context, -, accepted⟩ := accepted
  obtain ⟨_, _, hzoom, hmodify⟩ := Mutate.bind_eq_ok.mp accepted
  obtain ⟨pools, hrefresh, rfl⟩ := Mutate.zoom_eq_ok.mp hzoom
  obtain rfl := Mutate.modify_eq_ok.mp hmodify
  obtain ⟨hpools, -⟩ := recordBlock_domain ledger block effects context
  rw [hpools] at hrefresh
  exact ⟨_, pools, _, hpools, hrefresh, rfl⟩

omit [Crypto] in
/-- No pending transaction waits as an orphan as well. -/
lemma not_mem_orphans {domain : Result TransactionV2Domain} {pools : Pools}
    (counted : pools.Counted domain) {transaction : Transaction}
    (pending : transaction ∈ pools.pending) : transaction ∉ pools.orphans := by
  intro orphan
  have hdistinct := counted.distinct
  rw [List.map_append, List.nodup_append] at hdistinct
  exact hdistinct.2.2 _ (List.mem_map_of_mem pending) _ (List.mem_map_of_mem orphan) rfl

lemma signature_of_survivesBlock {minedSignatures : List Str} {transaction : Transaction}
    (h : ledger.survivesBlock minedSignatures transaction = true) :
    transaction.signature ∉ minedSignatures := by
  simp only [survivesBlock, decide_eq_true_eq] at h
  exact h.1

/-- A block keeps what it must of the pending transactions exactly if those that could remain
spend outputs of the new chain only, that is none of them is the child of another one. -/
theorem keepsPending_iff {start : Ledger} (initial : Initial start) {events : List MempoolEvent}
    (run : Runs.Run MempoolStep start events ledger) {verifyVdf : Bool} {nowMs : ℕ}
    (isNew : ledger.precheckBlockWithoutVdfAt block nowMs = .ok true)
    (accepted : applyBlockWithVdfPolicy block verifyVdf nowMs ledger = .ok () ledger') :
    KeepsPending ledger ledger' block
      ↔ ∀ transaction ∈ ledger'.remainingPending (block.transactions.map Transaction.signature)
          ledger.pending ledger'.utxos,
        transactionInputsAvailable transaction ledger'.utxos = true := by
  have counted : ledger.PoolsCounted := by
    refine run.invariant PoolsCounted ?_ (initial_poolsCounted initial)
    intro before event left hbefore step
    exact mempoolStep_poolsCounted step hbefore
  obtain ⟨recorded, pools, vdfRounds, -, hrefresh, rfl⟩ := accepted_eq isNew accepted
  have refreshed := recorded.refreshPools_refreshed
    (block.transactions.map Transaction.signature) ledger.toPools
  rw [after_of_ok hrefresh] at refreshed
  obtain ⟨promoted, hpools, hpromoted⟩ := refreshed.pending
  constructor
  · intro keeps transaction hremains
    have hpending := (mem_remainingPending hremains).1
    have hnot := not_mem_orphans counted hpending
    rcases keeps.kept transaction hremains with hin | hin
    · replace hin : transaction ∈ pools.pending := hin
      rw [hpools, List.mem_append] at hin
      rcases hin with hin | hin
      · have hkept := List.of_mem_filter hin
        simp only [decide_eq_true_eq] at hkept
        exact hkept.1
      · exact absurd (List.mem_of_mem_filter (hpromoted transaction hin)) hnot
    · exact absurd (List.mem_of_mem_filter (refreshed.orphans transaction hin)) hnot
  · intro available
    refine ⟨fun transaction hremains => .inl ?_, fun transaction hin => ⟨?_, ?_⟩⟩
    · obtain ⟨hpending, hsurvives⟩ := mem_remainingPending hremains
      have hkept := decide_eq_true (And.intro (available transaction hremains) hsurvives)
      change transaction ∈ pools.pending
      rw [hpools]
      exact List.mem_append_left _ (List.mem_filter.mpr ⟨hpending, hkept⟩)
    · replace hin : transaction ∈ pools.pending := hin
      rw [hpools, List.mem_append] at hin
      rcases hin with hin | hin
      · have hkept := List.of_mem_filter hin
        simp only [decide_eq_true_eq] at hkept
        exact signature_of_survivesBlock hkept.2
      · exact signature_of_survivesBlock (List.of_mem_filter (hpromoted transaction hin))
    · exact refreshed.grounded transaction hin

/-- Apply a block that is not known. -/
def applyNewBlock (block : Block) (verifyVdf : Bool) (nowMs : ℕ) (ledger : Ledger) :
    Result (Unit × Ledger) := do
  let isNew ← ledger.precheckBlockWithoutVdfAt block nowMs
  bailIf (isNew = false) "the block is known"
  Mutate.outcome (applyBlockWithVdfPolicy block verifyVdf nowMs) ledger

/-- A transaction that could remain after a block is forgotten. -/
def Drops (ledger ledger' : Ledger) (block : Block) (transaction : Transaction) : Prop :=
  transaction ∈ ledger'.remainingPending (block.transactions.map Transaction.signature)
    ledger.pending ledger'.utxos
  ∧ transaction ∉ ledger'.pending ∧ transaction ∉ ledger'.orphans

instance (transaction : Transaction) : Decidable (Drops ledger ledger' block transaction) :=
  inferInstanceAs (Decidable (_ ∧ _ ∧ _))

lemma drops_of_applyNewBlock {verifyVdf : Bool} {nowMs : ℕ} {transaction : Transaction}
    {reason : String} {final : Unit × Ledger}
    (h : (do
      let applied ← applyNewBlock block verifyVdf nowMs ledger
      bailIf (¬ Drops ledger applied.2 block transaction) reason
      pure applied : Result (Unit × Ledger)) = .ok final) :
    ledger.precheckBlockWithoutVdfAt block nowMs = .ok true
    ∧ applyBlockWithVdfPolicy block verifyVdf nowMs ledger = .ok () final.2
    ∧ Drops ledger final.2 block transaction := by
  obtain ⟨applied, happlied, h⟩ := Outcome.bind_eq_ok.mp h
  obtain ⟨_, hdrops, h⟩ := Outcome.bind_eq_ok.mp h
  obtain rfl := Except.ok.inj h
  rw [Outcome.bailIf_eq_ok, not_not] at hdrops
  obtain ⟨isNew, hprecheck, h⟩ := Outcome.bind_eq_ok.mp happlied
  obtain ⟨_, hknown, happlied⟩ := Outcome.bind_eq_ok.mp h
  cases isNew with
  | false => cases hknown
  | true => exact ⟨hprecheck, Mutate.outcome_eq_ok.mp happlied, hdrops⟩

end Ledger

namespace Toy

attribute [local instance] crypto

/-- A transfer of the whale to itself. -/
def whaleTransfer (input : OutPoint) (amount fee : Amount) : Transaction :=
  let transfer (signature : Str) : Transaction :=
    .transfer [⟨input, whale, signature⟩] [⟨whale, amount⟩] fee signature
  transfer (hexEncode (sign whaleKey (utf8 (transfer []).signingPayload)).val)

def parent : Transaction := whaleTransfer (genesisAllocationOutpoint whale) (u64Max - 1) 1

/-- The child spends what its pending parent creates. -/
def child : Transaction := whaleTransfer ⟨parent.signature, 0⟩ (u64Max - 2) 1

/-- The parent and its child are submitted. -/
def chainedLedger : Ledger :=
  (whaleGenesis.submitIgnoringErrors fun ledger => ledger.submitTransactionWithOutcome parent)
    |>.submitIgnoringErrors fun ledger => ledger.submitTransactionWithOutcome child

lemma chainedLedger_run : Runs.Run MempoolStep whaleGenesis [.submitted parent, .submitted child]
    chainedLedger :=
  .cons (.submitted parent) (.cons (.submitted child) (.nil _))

/-- The owner burns a coin and recovers, without either of them. -/
def ownersBlock : Block := burnAndRecover chainedLedger

/-- The application of the block, if it drops the child. -/
def ownersApplication : Result (Unit × Ledger) := do
  let applied ← Ledger.applyNewBlock ownersBlock true ownersBlock.timestampMs chainedLedger
  bailIf (¬ Ledger.Drops chainedLedger applied.2 ownersBlock child) "the child stays"
  pure applied

set_option maxRecDepth 10000 in
lemma ownersApplication_isOk : ownersApplication.isOk = true := by decide +kernel

def ownersLedger : Ledger := (Outcome.value ownersApplication ownersApplication_isOk).2

lemma ownersApplication_spec :
    chainedLedger.precheckBlockWithoutVdfAt ownersBlock ownersBlock.timestampMs = .ok true
    ∧ Ledger.applyBlockWithVdfPolicy ownersBlock true ownersBlock.timestampMs chainedLedger
      = .ok () ownersLedger
    ∧ Ledger.Drops chainedLedger ownersLedger ownersBlock child := by
  rw [ownersLedger]
  exact Ledger.drops_of_applyNewBlock (Outcome.eq_ok_value ownersApplication ownersApplication_isOk)

/-- **A child dropped.** The parent stays pending through the block of the owner, but its child is
forgotten. -/
theorem ownersBlock_drops_child :
    Runs.Run MempoolStep whaleGenesis [.submitted parent, .submitted child] chainedLedger
    ∧ chainedLedger.precheckBlockWithoutVdfAt ownersBlock ownersBlock.timestampMs = .ok true
    ∧ Ledger.applyBlockWithVdfPolicy ownersBlock true ownersBlock.timestampMs chainedLedger
      = .ok () ownersLedger
    ∧ ¬ Ledger.KeepsPending chainedLedger ownersLedger ownersBlock := by
  obtain ⟨isNew, accepted, hremains, hpending, horphans⟩ := ownersApplication_spec
  exact ⟨chainedLedger_run, isNew, accepted, fun keeps =>
    (keeps.kept child hremains).elim hpending horphans⟩

lemma whaleGenesis_initial : Ledger.Initial whaleGenesis :=
  .launch (Outcome.eq_ok_value whaleLaunch whaleLaunch_isOk)

/-- The equivalence for this block. -/
theorem ownersBlock_keepsPending_iff :
    Ledger.KeepsPending chainedLedger ownersLedger ownersBlock
      ↔ ∀ transaction ∈ ownersLedger.remainingPending
          (ownersBlock.transactions.map Transaction.signature) chainedLedger.pending
          ownersLedger.utxos,
        transactionInputsAvailable transaction ownersLedger.utxos = true :=
  Ledger.keepsPending_iff whaleGenesis_initial chainedLedger_run ownersApplication_spec.1
    ownersApplication_spec.2.1

end Toy

end Iuna
