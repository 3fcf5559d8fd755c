import Iuna.Properties.Launch
import Iuna.Properties.Supply

/-!
# Block application as a transaction

An error before the commit of a block leaves the ledger as it was.  After the commit only the
refresh of the pools can still fail, and then the error is reported over a ledger that already
has the block.

The refresh applies the pending transactions twice.  The first pass tries them one by one and
passes over those that fail, but what a failed attempt has spent stays spent for the rest of the
pass; the second pass applies the survivors to the full outputs and insists on every one of them.
Every output of the first pass is one of the second (`MapSum.Below`), so that a survivor can fail
in the second pass only at the bound of a balance.  Where everything that exists or can still be
minted fits in a `u64`, no balance can reach the bound, and an error of the application leaves
nothing behind (`block_application_atomic`).
-/

namespace Iuna

open MapSum Resource Runs

/-! ## Balances within a total -/

/-- Balances do not overflow, if all outputs together fit. -/
lemma foldlM_creditBalance {outputs : List TxOutput} {balances : BTreeMap Str Amount} {bound : ℕ}
    (within : ∀ address : Str, @LE.le ℕ _ (balances[address]?.getD 0) bound)
    (fits : bound + (outputs.map TxOutput.amount).sum ≤ u64Max) :
    ∃ balances', outputs.foldlM creditBalance balances = .ok balances' := by
  induction outputs generalizing balances bound with
  | nil => exact ⟨balances, rfl⟩
  | cons output outputs ih =>
    simp only [List.map_cons, List.sum_cons] at fits
    have hbalance := within output.address
    have hadd : checkedAdd (balances[output.address]?.getD 0) output.amount
        = some (balances[output.address]?.getD 0 + output.amount) := by
      rw [checkedAdd_eq_some]
      exact ⟨rfl, by omega⟩
    obtain ⟨balances', hrest⟩ := @ih (balances.insert output.address
      (balances[output.address]?.getD 0 + output.amount)) (bound + output.amount) (by
        intro address
        rw [Std.ExtTreeMap.getElem?_insert]
        split
        · simpa using hbalance
        · exact (within address).trans (Nat.le_add_right _ _)) (by omega)
    refine ⟨balances', ?_⟩
    rw [List.foldlM_cons, Outcome.bind_eq_ok]
    refine ⟨_, ?_, hrest⟩
    simp only [creditBalance, hadd, Outcome.bind_eq_ok, orError, Outcome.ofOption_eq_ok,
      Outcome.pure_eq_ok]
    exact ⟨_, rfl, rfl⟩

lemma ensureOutputsDoNotOverflow_of_total {utxos : Utxos} {outputs : List TxOutput}
    (fits : utxos.total + (outputs.map TxOutput.amount).sum ≤ u64Max) :
    ensureOutputsDoNotOverflow utxos outputs = .ok () := by
  have htotal : (utxos.values.map TxOutput.amount).sum = utxos.total := by
    rw [values_eq_map_toList, List.map_map]
    rfl
  have hsum : ((utxos.values ++ outputs).map TxOutput.amount).sum
      = utxos.total + (outputs.map TxOutput.amount).sum := by
    rw [List.map_append, List.sum_append, htotal]
  have hfits : 0 + ((utxos.values ++ outputs).map TxOutput.amount).sum ≤ u64Max := by
    rw [hsum, Nat.zero_add]
    exact fits
  have hcredit : ∃ balances, (utxos.values ++ outputs).foldlM creditBalance ∅ = .ok balances :=
    foldlM_creditBalance (by simp) hfits
  obtain ⟨balances, hbalances⟩ := hcredit
  simp only [ensureOutputsDoNotOverflow, Outcome.bind_eq_ok, Outcome.pure_eq_ok]
  exact ⟨balances, hbalances, trivial⟩

lemma total_insertOutputs_le (created : List (OutPoint × TxOutput)) (utxos : Utxos) :
    (insertOutputs utxos created).total ≤ utxos.total + entriesTotal created := by
  induction created generalizing utxos with
  | nil => simp [insertOutputs]
  | cons entry created ih =>
    have hrest := ih (utxos.insert entry.1 entry.2)
    have hfirst := total_insert_le amountWeight utxos entry.1 entry.2
    have hweight : amountWeight entry.1 entry.2 = entry.2.amount := rfl
    rw [entriesTotal_cons]
    unfold Utxos.total at hrest ⊢
    unfold insertOutputs at hrest ⊢
    rw [List.foldl_cons]
    omega

lemma below_insertOutputs (created : List (OutPoint × TxOutput)) {utxos utxos' : Utxos}
    (below : Below utxos utxos') :
    Below (insertOutputs utxos created) (insertOutputs utxos' created) := by
  induction created generalizing utxos utxos' with
  | nil => exact below
  | cons entry created ih => exact ih (below.insert entry.1 entry.2)

/-! ## Applying to more outputs -/

/-- Inputs that can be spent can be spent where there are more outputs. -/
lemma spendInputs_below {inputs : List TxInput} {utxos middle full : Utxos} {total : Amount}
    (spent : spendInputs inputs utxos = .ok total middle) (below : Below utxos full) :
    ∃ middle' : Utxos, spendInputs inputs full = .ok total middle' ∧ Below middle middle' ∧
      middle'.total + total = full.total := by
  have hloop : ∀ {inputs : List TxInput} {before after : (List OutPoint × Amount) × Utxos},
      Run (fun before input after => spendInput before.1 input before.2 = .ok after.1 after.2)
        before inputs after →
      ∀ {full : Utxos}, Below before.2 full → ∃ full' : Utxos, Below after.2 full' ∧
        Run (fun before input after => spendInput before.1 input before.2 = .ok after.1 after.2)
          (before.1, full) inputs (after.1, full') ∧
        (full'.total + after.1.2 : ℕ) = full.total + before.1.2 := by
    intro inputs before after run
    induction run with
    | nil state =>
      intro full below
      exact ⟨full, below, .nil _, rfl⟩
    | @cons state next last input labels head _ ih =>
      intro full below
      obtain ⟨hnew, output, houtput, howner, hfits, hstate, hspent⟩ := spendInput_eq_ok.mp head
      have hbelow : Below next.2 (full.erase input.outpoint) := by
        rw [hstate]
        exact below.erase _
      obtain ⟨full', hfull', hrun, htotal⟩ := ih hbelow
      refine ⟨full', hfull', .cons (m := (next.1, full.erase input.outpoint)) ?_ hrun, ?_⟩
      · exact spendInput_eq_ok.mpr
          ⟨hnew, output, below _ _ houtput, howner, hfits, rfl, hspent⟩
      · have herase : @Eq ℕ (output.amount + Utxos.total (full.erase input.outpoint)) full.total :=
          total_erase (w := amountWeight) (below _ _ houtput)
        have hnext : @Eq ℕ next.1.2 (state.1.2 + output.amount) := by rw [hspent]
        omega
  obtain ⟨locals, _, hrun, hresult⟩ := Mutate.bind_eq_ok.mp spent
  obtain ⟨rfl, rfl⟩ := Mutate.pure_eq_ok.mp hresult
  obtain ⟨middle', hbelow, hrun', htotal⟩ := hloop (Mutate.foldlM_run.mp hrun) below
  refine ⟨middle', Mutate.bind_eq_ok.mpr ⟨locals, middle', Mutate.foldlM_run.mpr hrun', ?_⟩,
    hbelow, by simpa using htotal⟩
  exact Mutate.pure_eq_ok.mpr ⟨rfl, rfl⟩

/-- Spending leaves no more outputs than there were. -/
lemma spendInputs_shrinks {inputs : List TxInput} {utxos middle : Utxos} {total : Amount}
    (spent : spendInputs inputs utxos = .ok total middle) : Below middle utxos := by
  obtain ⟨locals, _, hrun, hresult⟩ := Mutate.bind_eq_ok.mp spent
  obtain ⟨-, rfl⟩ := Mutate.pure_eq_ok.mp hresult
  refine (Mutate.foldlM_run.mp hrun).invariant (fun state => Below state.2 utxos) ?_ (.refl utxos)
  intro before input after hbelow head
  obtain ⟨-, output, -, -, -, hstate, -⟩ := spendInput_eq_ok.mp head
  rw [hstate]
  exact (Below.erase_self _ _).trans hbelow

lemma spendInput_error {spent : List OutPoint × Amount} {input : TxInput} {utxos utxos' : Utxos}
    {e : Error} (failed : spendInput spent input utxos = .error e utxos') : Below utxos' utxos := by
  simp only [spendInput, Mutate.get_bind_eq_error, Mutate.modify_bind_eq_error,
    Mutate.liftM_eq_lift, Mutate.lift_bind_eq_error] at failed
  rcases failed with ⟨-, rfl⟩ | ⟨_, -, ⟨-, rfl⟩ | ⟨output, -, ⟨-, rfl⟩ | ⟨_, -, h⟩⟩⟩
  · exact .refl _
  · exact .refl _
  · exact .erase_self _ _
  · rcases h with ⟨-, rfl⟩ | ⟨_, -, h⟩
    · exact .erase_self _ _
    · exact absurd h Mutate.pure_ne_error

/-- A loop over the inputs leaves no more outputs than there were, also when it fails. -/
lemma spendInputs_error {inputs : List TxInput} {utxos utxos' : Utxos} {e : Error}
    (failed : spendInputs inputs utxos = .error e utxos') : Below utxos' utxos := by
  have hloop : ∀ {inputs : List TxInput} {spent : List OutPoint × Amount} {utxos utxos' : Utxos},
      inputs.foldlM spendInput spent utxos = .error e utxos' → Below utxos' utxos := by
    intro inputs
    induction inputs with
    | nil =>
      intro spent utxos utxos' h
      exact absurd h Mutate.pure_ne_error
    | cons input inputs ih =>
      intro spent utxos utxos' h
      rw [List.foldlM_cons, Mutate.bind_eq_error] at h
      rcases h with h | ⟨spent', middle, hfirst, hrest⟩
      · exact spendInput_error h
      · obtain ⟨-, output, -, -, -, hmiddle, -⟩ := spendInput_eq_ok.mp hfirst
        have hbelow := ih hrest
        rw [hmiddle] at hbelow
        exact hbelow.trans (Below.erase_self _ _)
  rcases Mutate.bind_eq_error.mp failed with h | ⟨_, _, -, h⟩
  · exact hloop h
  · exact absurd h Mutate.pure_ne_error

section Transactions

variable [Crypto] {transaction : Transaction} {domain : TransactionSigningDomain}
  {utxos utxos' full : Utxos}

omit [Crypto] in
/-- What a transaction creates is paid for by what it spends and mints. -/
lemma created_le {total : Amount}
    (required : transaction.isMine = false → requiredInputTotal transaction = .ok total) :
    transaction.created ≤ total + transaction.minted := by
  cases transaction with
  | mine =>
    simp [Transaction.minted, Transaction.created, Transaction.outputs]
    omega
  | transfer =>
    rw [requiredInputTotal_eq_ok (required rfl)]
    omega
  | burn =>
    rw [requiredInputTotal_eq_ok (required rfl)]
    omega

/-- **More outputs do not hurt.** A transaction that applies to some outputs applies to more of
them, if their total and what it mints fit. -/
theorem applyTransaction_below {u : Unit}
    (applied : applyTransaction transaction domain utxos = .ok u utxos')
    (below : Below utxos full) (fits : full.total + transaction.minted ≤ u64Max) :
    ∃ full' : Utxos, applyTransaction transaction domain full = .ok u full' ∧ Below utxos' full' ∧
      full'.total ≤ full.total + transaction.minted := by
  obtain ⟨hverified, howner, total, middle, hspent, hrequired, -, rfl⟩ :=
    applyTransaction_eq_ok.mp applied
  obtain ⟨middle', hspent', hbelow, htotal⟩ := spendInputs_below hspent below
  have hcreated := created_le hrequired
  have hoverflow : ensureOutputsDoNotOverflow middle' transaction.outputs = .ok () := by
    apply ensureOutputsDoNotOverflow_of_total
    unfold Transaction.created at hcreated
    omega
  refine ⟨insertOutputs middle' (createdOutputs transaction), ?_, below_insertOutputs _ hbelow, ?_⟩
  · exact applyTransaction_eq_ok.mpr
      ⟨hverified, howner, total, middle', hspent', hrequired, hoverflow, rfl⟩
  · have hinsert := total_insertOutputs_le (createdOutputs transaction) middle'
    rw [entriesTotal_createdOutputs] at hinsert
    omega

/-- A failed attempt leaves no more outputs than there were. -/
lemma applyTransaction_error {e : Error}
    (failed : applyTransaction transaction domain utxos = .error e utxos') : Below utxos' utxos := by
  have hspending (h : (do
      ensureSingleInputOwner transaction
      let inputTotal ← spendInputs transaction.inputs
      let required ← requiredInputTotal transaction
      bailIf (inputTotal ≠ required) "transaction inputs do not balance outputs, burn, and fee"
      let utxos ← get
      ensureOutputsDoNotOverflow utxos transaction.outputs
      modify fun utxos => insertOutputs utxos (createdOutputs transaction) : Mutate Error Utxos Unit)
        utxos = .error e utxos') : Below utxos' utxos := by
    simp only [Mutate.liftM_eq_lift, Mutate.lift_bind_eq_error] at h
    rcases h with ⟨-, rfl⟩ | ⟨_, -, h⟩
    · exact .refl _
    · rcases Mutate.bind_eq_error.mp h with h | ⟨total, middle, hspent, h⟩
      · exact spendInputs_error h
      · have hmiddle := spendInputs_shrinks hspent
        simp only [Mutate.lift_bind_eq_error, Mutate.get_bind_eq_error] at h
        rcases h with ⟨-, rfl⟩ | ⟨_, -, ⟨-, rfl⟩ | ⟨_, -, ⟨-, rfl⟩ | ⟨_, -, h⟩⟩⟩
        · exact hmiddle
        · exact hmiddle
        · exact hmiddle
        · exact absurd h Mutate.modify_ne_error
  unfold applyTransaction at failed
  rw [Mutate.liftM_eq_lift, Mutate.lift_bind_eq_error] at failed
  rcases failed with ⟨-, rfl⟩ | ⟨_, -, h⟩
  · exact .refl _
  cases transaction with
  | mine =>
    simp only [Mutate.get_bind_eq_error, Mutate.liftM_eq_lift, Mutate.lift_bind_eq_error] at h
    rcases h with ⟨-, rfl⟩ | ⟨_, -, h⟩
    · exact .refl _
    · exact absurd h Mutate.modify_ne_error
  | transfer => exact hspending h
  | burn => exact hspending h

end Transactions

/-! ## The pending transactions -/

/-- What the mine actions of a list mint. -/
def mintedBy (transactions : List Transaction) : ℕ := (transactions.map Transaction.minted).sum

@[simp] lemma mintedBy_nil : mintedBy [] = 0 := rfl

@[simp] lemma mintedBy_cons (transaction : Transaction) (transactions : List Transaction) :
    mintedBy (transaction :: transactions) = transaction.minted + mintedBy transactions := by
  simp [mintedBy]

@[simp] lemma mintedBy_append (transactions transactions' : List Transaction) :
    mintedBy (transactions ++ transactions') = mintedBy transactions + mintedBy transactions' := by
  simp [mintedBy]

lemma sum_map_filter_le {α : Type} (f : α → ℕ) (p : α → Bool) (xs : List α) :
    ((xs.filter p).map f).sum ≤ (xs.map f).sum := by
  induction xs with
  | nil => simp
  | cons x xs ih =>
    rw [List.filter_cons]
    split
    · simp only [List.map_cons, List.sum_cons]
      omega
    · simp only [List.map_cons, List.sum_cons]
      omega

/-- An element and the rest of the list weigh as much as the list. -/
lemma sum_map_eraseIdx {α : Type} (f : α → ℕ) {xs : List α} {index : ℕ}
    (h : index < xs.length) : f xs[index] + ((xs.eraseIdx index).map f).sum = (xs.map f).sum := by
  have hperm := (List.getElem_cons_eraseIdx_perm h).map f
  rw [← hperm.sum_eq, List.map_cons, List.sum_cons]

namespace Ledger

variable [Crypto] (ledger : Ledger)

/-- One transaction of the second pass. -/
abbrev PendingRound (utxos : Utxos) (transaction : Transaction) (utxos' : Utxos) : Prop :=
  applyTransaction transaction (ledger.transactionSigningDomainForPending transaction) utxos
    = .ok ⟨⟩ utxos'

/-- The first pass, at some point: its survivors apply in the second pass, to outputs that contain
its own, and what it can still add to them fits. -/
def Reapplies (bound : ℕ) (state : ValidPending) (rest : List Transaction) : Prop :=
  (∃ full : Utxos, Run ledger.PendingRound ledger.utxos state.valid full ∧ Below state.utxos full ∧
    full.total ≤ ledger.utxos.total + mintedBy state.valid) ∧
  mintedBy state.valid + mintedBy state.stillPending + mintedBy rest ≤ bound

variable {ledger} {bound : ℕ}

lemma Reapplies.step {state : ValidPending} {transaction : Transaction} {rest : List Transaction}
    (fits : ledger.utxos.total + bound ≤ u64Max)
    (h : ledger.Reapplies bound state (transaction :: rest)) :
    ledger.Reapplies bound (ledger.validPendingStep state transaction) rest := by
  obtain ⟨⟨full, hrun, hbelow, htotal⟩, hminted⟩ := h
  rw [mintedBy_cons] at hminted
  unfold validPendingStep
  dsimp only
  split
  · exact ⟨⟨full, hrun, hbelow, htotal⟩, by omega⟩
  split
  · rcases Mutate.attempt_cases (applyTransaction transaction
      (ledger.transactionSigningDomainForPending transaction)) state.utxos with
      ⟨u, utxos', happlied, hattempt⟩ | ⟨e, utxos', hfailed, hattempt⟩
    · rw [hattempt, if_pos rfl]
      obtain ⟨full', hfull', hbelow', htotal'⟩ := applyTransaction_below happlied hbelow (by omega)
      refine ⟨⟨full', hrun.snoc hfull', hbelow', ?_⟩, ?_⟩
      · simp only [mintedBy_append, mintedBy_cons, mintedBy_nil]
        omega
      · simp only [mintedBy_append, mintedBy_cons, mintedBy_nil]
        omega
    · rw [hattempt, if_neg (by simp)]
      refine ⟨⟨full, hrun, (applyTransaction_error hfailed).trans hbelow, htotal⟩, ?_⟩
      simp only [mintedBy_append, mintedBy_cons, mintedBy_nil]
      omega
  · refine ⟨⟨full, hrun, hbelow, htotal⟩, ?_⟩
    simp only [mintedBy_append, mintedBy_cons, mintedBy_nil]
    omega

lemma Reapplies.fold {state : ValidPending} {rest : List Transaction}
    (fits : ledger.utxos.total + bound ≤ u64Max) (h : ledger.Reapplies bound state rest) :
    ledger.Reapplies bound (rest.foldl ledger.validPendingStep state) [] := by
  induction rest generalizing state with
  | nil => exact h
  | cons transaction rest ih => exact ih (h.step fits)

lemma Reapplies.rounds {state : ValidPending} (fits : ledger.utxos.total + bound ≤ u64Max)
    (h : ledger.Reapplies bound state []) (fuel : ℕ) :
    ∃ full, Run ledger.PendingRound ledger.utxos (ledger.validPendingRounds fuel state) full := by
  induction fuel generalizing state with
  | zero =>
    obtain ⟨⟨full, hrun, -, -⟩, -⟩ := h
    exact ⟨full, hrun⟩
  | succ fuel ih =>
    unfold validPendingRounds
    split
    · obtain ⟨⟨full, hrun, -, -⟩, -⟩ := h
      exact ⟨full, hrun⟩
    · have hround : ledger.Reapplies bound (state.stillPending.foldl ledger.validPendingStep
          { state with progressed := false, stillPending := [] }) [] := by
        refine Reapplies.fold fits ⟨h.1, ?_⟩
        have hminted := h.2
        simp only [mintedBy_nil] at hminted ⊢
        omega
      dsimp only
      split
      · exact ih hround
      · obtain ⟨⟨full, hrun, -, -⟩, -⟩ := hround
        exact ⟨full, hrun⟩

/-- **The second pass.** It succeeds, if everything that exists or can be minted fits. -/
theorem utxosAfterValidPending_of_total
    (fits : ledger.utxos.total + mintedBy ledger.pending ≤ u64Max) :
    ∃ utxos, ledger.utxosAfterValidPending = .ok utxos := by
  have hstart : ledger.Reapplies (mintedBy ledger.pending)
      { utxos := ledger.utxos, valid := [], selectedMineAnchors := [], progressed := false,
        stillPending := ledger.pending } [] :=
    ⟨⟨ledger.utxos, .nil _, .refl _, by simp⟩, by simp⟩
  obtain ⟨full, hrun⟩ := hstart.rounds fits (ledger.pending.length + 1)
  refine ⟨full, ?_⟩
  simp only [utxosAfterValidPending, Outcome.bind_eq_ok, Mutate.outcome_eq_ok,
    Outcome.pure_eq_ok, Prod.exists]
  exact ⟨(), full, Mutate.forM_run.mpr hrun, rfl⟩

/-! ## The refresh -/

omit [Crypto] in
lemma serializedPoolLen_of_sum {transactions : List Transaction}
    (fits : (transactions.map Transaction.jsonSize).sum ≤ u64Max) :
    serializedPoolLen transactions = .ok (transactions.map Transaction.jsonSize).sum := by
  unfold serializedPoolLen checkedAddBytes
  rw [foldlM_checkedAdd_eq_ok]
  exact ⟨Nat.zero_add _, .inr fits⟩

/-- The scan for an orphan succeeds, if every orphan still fits, and returns one of those it has
scanned. -/
lemma findPromotedOrphan_of_fits {entries : List (Transaction × ℕ)} (utxos : Utxos)
    (fits : ∀ entry ∈ entries, ledger.pendingBytes + entry.1.jsonSize ≤ u64Max) :
    ∃ promoted, ledger.findPromotedOrphan entries utxos = .ok promoted ∧
      ∀ index bytes, promoted = some (index, bytes) →
        ∃ transaction, (transaction, index) ∈ entries ∧ bytes = transaction.jsonSize := by
  induction entries generalizing utxos with
  | nil => exact ⟨none, rfl, by simp⟩
  | cons entry entries ih =>
    obtain ⟨transaction, index⟩ := entry
    have hskip (utxos : Utxos) : ∃ promoted, ledger.findPromotedOrphan entries utxos = .ok promoted ∧
        ∀ index' bytes, promoted = some (index', bytes) → ∃ transaction',
          (transaction', index') ∈ (transaction, index) :: entries ∧ bytes = transaction'.jsonSize := by
      obtain ⟨promoted, hpromoted, hsome⟩ :=
        @ih utxos fun entry hentry => fits entry (List.mem_cons_of_mem _ hentry)
      refine ⟨promoted, hpromoted, fun index' bytes h => ?_⟩
      obtain ⟨transaction', hmem, hbytes⟩ := hsome index' bytes h
      exact ⟨transaction', List.mem_cons_of_mem _ hmem, hbytes⟩
    unfold findPromotedOrphan
    split
    · exact hskip utxos
    dsimp only
    split
    · have hadd : checkedAddBytes ledger.pendingBytes transaction.jsonSize
          = .ok (ledger.pendingBytes + transaction.jsonSize) := by
        have hfits := fits _ List.mem_cons_self
        unfold checkedAddBytes orError
        rw [Outcome.ofOption_eq_ok, checkedAdd_eq_some]
        exact ⟨rfl, hfits⟩
      rw [hadd]
      by_cases hfull : maxPendingPoolBytes < ledger.pendingBytes + transaction.jsonSize
      · obtain ⟨promoted, hpromoted, hsome⟩ := hskip (Mutate.attempt (applyTransaction transaction
          (ledger.transactionSigningDomainForPending transaction)) utxos).2
        refine ⟨promoted, ?_, hsome⟩
        show (if maxPendingPoolBytes < _ then _ else _) = _
        rw [if_pos hfull]
        exact hpromoted
      · refine ⟨some (index, transaction.jsonSize), ?_, ?_⟩
        · show (if maxPendingPoolBytes < _ then _ else _) = _
          rw [if_neg hfull]
          rfl
        · intro index' bytes h
          simp only [Option.some.injEq, Prod.mk.injEq] at h
          obtain ⟨rfl, rfl⟩ := h
          exact ⟨transaction, List.mem_cons_self, rfl⟩
    · exact hskip _

lemma utxosAfterValidPending_of_nil (nothing : ledger.pending = []) :
    ledger.utxosAfterValidPending = .ok ledger.utxos := by
  unfold utxosAfterValidPending validPendingTransactions
  rw [nothing]
  rfl

/-- The pools of a ledger fit: there is nothing to apply, or what exists or can be minted by them
fits, and so do their sizes. -/
structure Room (ledger : Ledger) (pools : Pools) : Prop where
  supply : pools.pending = [] ∧ pools.orphans = []
    ∨ ledger.utxos.total + (mintedBy pools.pending + mintedBy pools.orphans) ≤ u64Max
  sizes : pools.pendingBytes + (pools.orphans.map Transaction.jsonSize).sum ≤ u64Max

/-- The promotion of orphans succeeds where the pools fit, and does not touch the v2 pool. -/
lemma promoteOrphanRounds_of_room {pools : Pools} (room : ledger.Room pools) (fuel : ℕ) :
    ∃ pools', ledger.promoteOrphanRounds fuel pools = .ok () pools' ∧
      pools'.pendingV2 = pools.pendingV2 := by
  induction fuel generalizing pools with
  | zero => exact ⟨pools, rfl, rfl⟩
  | succ fuel ih =>
    unfold promoteOrphanRounds
    simp only [Mutate.get_bind_eq_ok]
    by_cases hfull : maxPendingTransactions ≤ pools.pending.length
    · rw [if_pos hfull]
      exact ⟨pools, rfl, rfl⟩
    rw [if_neg hfull]
    have hsizes := room.sizes
    rcases room.supply with ⟨hpending, horphans⟩ | hsupply
    · have hnothing : (ledger.withPools pools).pending = [] := hpending
      refine ⟨pools, ?_, rfl⟩
      simp only [Mutate.liftM_eq_lift, Mutate.lift_bind_eq_ok, horphans]
      exact ⟨_, utxosAfterValidPending_of_nil hnothing, none, rfl, rfl⟩
    have hvalid : ∃ utxos, (ledger.withPools pools).utxosAfterValidPending = .ok utxos := by
      apply utxosAfterValidPending_of_total
      show ledger.utxos.total + mintedBy pools.pending ≤ u64Max
      omega
    obtain ⟨utxos, hutxos⟩ := hvalid
    have hfits : ∀ entry ∈ pools.orphans.zipIdx,
        (ledger.withPools pools).pendingBytes + entry.1.jsonSize ≤ u64Max := by
      intro entry hentry
      obtain ⟨index, hindex, hget⟩ := List.mem_iff_getElem.mp (List.fst_mem_of_mem_zipIdx hentry)
      have hbytes := sum_map_eraseIdx Transaction.jsonSize hindex
      rw [hget] at hbytes
      show pools.pendingBytes + entry.1.jsonSize ≤ u64Max
      omega
    obtain ⟨promoted, hpromoted, hsome⟩ := findPromotedOrphan_of_fits utxos hfits
    simp only [Mutate.liftM_eq_lift, Mutate.lift_bind_eq_ok]
    cases promoted with
    | none => exact ⟨pools, ⟨utxos, hutxos, none, hpromoted, rfl⟩, rfl⟩
    | some moved =>
      obtain ⟨index, bytes⟩ := moved
      obtain ⟨transaction, hmem, rfl⟩ := hsome index bytes rfl
      have hget : pools.orphans[index]? = some transaction :=
        List.mem_zipIdx_iff_getElem?.mp hmem
      obtain ⟨hindex, hgetElem⟩ := List.getElem?_eq_some_iff.mp hget
      have hminted := sum_map_eraseIdx Transaction.minted hindex
      have hbytes := sum_map_eraseIdx Transaction.jsonSize hindex
      rw [hgetElem] at hminted hbytes
      obtain ⟨pools', hrest, hpendingV2⟩ := @ih { pools with
        orphans := pools.orphans.eraseIdx index
        orphanBytes := pools.orphanBytes - transaction.jsonSize
        pending := pools.pending ++ (pools.orphans[index]?).toList
        pendingBytes := saturatingAdd pools.pendingBytes transaction.jsonSize } (by
          constructor
          · right
            show ledger.utxos.total + (mintedBy (pools.pending ++ (pools.orphans[index]?).toList)
              + mintedBy (pools.orphans.eraseIdx index)) ≤ u64Max
            rw [hget, Option.toList_some, mintedBy_append, mintedBy_cons, mintedBy_nil]
            unfold mintedBy at hsupply ⊢
            omega
          · show saturatingAdd pools.pendingBytes transaction.jsonSize
              + ((pools.orphans.eraseIdx index).map Transaction.jsonSize).sum ≤ u64Max
            unfold saturatingAdd
            omega)
      exact ⟨pools', ⟨utxos, hutxos, some (index, transaction.jsonSize), hpromoted, hrest⟩,
        hpendingV2⟩

/-- The revalidation succeeds where every transaction of the v2 pool can be encoded. -/
lemma revalidatePendingV2Loop_of_encodes {domain : TransactionV2Domain}
    {transactions : List TransactionV2}
    (encodes : ∀ transaction ∈ transactions, ∃ bytes, transaction.encode domain = .ok bytes)
    (height : ℕ) (utxos : Utxos) (pools : Pools) :
    ∃ pools', ledger.revalidatePendingV2Loop domain height transactions utxos pools
      = .ok () pools' := by
  induction transactions generalizing utxos pools with
  | nil => exact ⟨pools, rfl⟩
  | cons transaction transactions ih =>
    obtain ⟨bytes, hbytes⟩ := encodes transaction List.mem_cons_self
    have hrest {utxos : Utxos} {pools : Pools} :=
      ih (fun other hother => encodes other (List.mem_cons_of_mem _ hother)) utxos pools
    unfold revalidatePendingV2Loop
    simp only [Mutate.liftM_eq_lift, Mutate.lift_bind_eq_ok]
    split
    · by_cases hvalid : (Mutate.attempt (applyPrevalidatedTransactionV2ToUtxos transaction domain
          ledger.network) utxos).1 = true
      · obtain ⟨pools', hpools'⟩ := hrest
        refine ⟨pools', bytes, hbytes, ?_⟩
        rw [if_pos hvalid]
        exact hpools'
      · obtain ⟨pools', hpools'⟩ := hrest
        refine ⟨pools', bytes, hbytes, ?_⟩
        rw [if_neg hvalid]
        exact hpools'
    · obtain ⟨pools', hpools'⟩ := hrest
      exact ⟨pools', bytes, hbytes, hpools'⟩

/-- **The refresh succeeds** where the pools fit. -/
theorem refreshPools_of_room {pools : Pools} (minedSignatures : List Str)
    {domain : TransactionV2Domain} (hdomain : ledger.transactionV2Domain = .ok domain)
    (supply : pools.pending = [] ∧ pools.orphans = []
      ∨ ledger.utxos.total + (mintedBy pools.pending + mintedBy pools.orphans) ≤ u64Max)
    (sizes : (pools.pending.map Transaction.jsonSize).sum
      + (pools.orphans.map Transaction.jsonSize).sum ≤ u64Max)
    (encodes : ∀ transaction ∈ pools.pendingV2, ∃ bytes, transaction.encode domain = .ok bytes) :
    ∃ pools', ledger.refreshPools minedSignatures pools = .ok () pools' := by
  -- the pools after the filter, which weigh no more than before
  let kept : Pools := { pools with
    pending := pools.pending.filter fun transaction =>
      transactionInputsAvailable transaction ledger.utxos
        ∧ ledger.survivesBlock minedSignatures transaction
    orphans := pools.orphans.filter (ledger.survivesBlock minedSignatures) }
  have hpendingMinted : mintedBy kept.pending ≤ mintedBy pools.pending := sum_map_filter_le _ _ _
  have horphansMinted : mintedBy kept.orphans ≤ mintedBy pools.orphans := sum_map_filter_le _ _ _
  have hpendingBytes : (kept.pending.map Transaction.jsonSize).sum
      ≤ (pools.pending.map Transaction.jsonSize).sum := sum_map_filter_le _ _ _
  have horphanBytes : (kept.orphans.map Transaction.jsonSize).sum
      ≤ (pools.orphans.map Transaction.jsonSize).sum := sum_map_filter_le _ _ _
  let counted : Pools := { kept with
    pendingBytes := (kept.pending.map Transaction.jsonSize).sum
    orphanBytes := (kept.orphans.map Transaction.jsonSize).sum }
  have hcounters : refreshPendingPoolByteCounters kept = .ok () counted := by
    have hpending : serializedPoolLen kept.pending
        = .ok (kept.pending.map Transaction.jsonSize).sum := serializedPoolLen_of_sum (by omega)
    have horphans : serializedPoolLen kept.orphans
        = .ok (kept.orphans.map Transaction.jsonSize).sum := serializedPoolLen_of_sum (by omega)
    simp only [refreshPendingPoolByteCounters, Mutate.get_bind_eq_ok, Mutate.liftM_eq_lift,
      Mutate.lift_bind_eq_ok, Mutate.modify_bind_eq_ok, Mutate.modify_eq_ok]
    exact ⟨_, hpending, _, horphans, rfl⟩
  have hroom : ledger.Room counted := by
    constructor
    · refine supply.imp (fun hnothing => ⟨?_, ?_⟩) fun hsupply => ?_
      · show kept.pending = []
        simp [kept, hnothing.1]
      · show kept.orphans = []
        simp [kept, hnothing.2]
      · show ledger.utxos.total + (mintedBy kept.pending + mintedBy kept.orphans) ≤ u64Max
        omega
    · show (kept.pending.map Transaction.jsonSize).sum
        + (kept.orphans.map Transaction.jsonSize).sum ≤ u64Max
      omega
  obtain ⟨promoted, hpromoted, hpendingV2⟩ :=
    promoteOrphanRounds_of_room hroom (counted.orphans.length + 1)
  have hpromote : ledger.promoteOrphanTransactions counted = .ok () promoted := hpromoted
  obtain ⟨pools', hrevalidate⟩ : ∃ pools', ledger.revalidatePendingV2 promoted = .ok () pools' := by
    unfold revalidatePendingV2
    dsimp only
    split
    · exact ⟨_, rfl⟩
    · simp only [hdomain, Mutate.liftM_eq_lift, Mutate.lift_bind_eq_ok, Mutate.get_bind_eq_ok,
        Mutate.modify_bind_eq_ok]
      have hencodes : ∀ transaction ∈ promoted.pendingV2,
          ∃ bytes, transaction.encode domain = .ok bytes := by
        rw [hpendingV2]
        exact encodes
      obtain ⟨pools', hloop⟩ := revalidatePendingV2Loop_of_encodes hencodes
        (saturatingAdd ledger.height 1) (ledger.withPools promoted).utxosAfterSpendablePending
        { promoted with pendingV2 := [], pendingV2Bytes := 0 }
      exact ⟨pools', domain, rfl, hloop⟩
  refine ⟨pools', ?_⟩
  simp only [refreshPools, Mutate.bind_eq_ok]
  exact ⟨(), kept, rfl, (), counted, hcounters, (), promoted, hpromote, hrevalidate⟩

/-! ## The application -/

variable {ledger' : Ledger} {block : Block} {effects : BlockEffects} {verify : Bool} {nowMs : ℕ}
  {e : Error}

/-- A block adds at most what its mine actions mint. -/
lemma staged_total (staged : ledger.stageBlock block = .ok effects) :
    effects.state.utxos.total ≤ ledger.utxos.total + block.minted := by
  obtain ⟨seen, middle, last, domain, stages⟩ := stageBlock_eq_ok.mp staged
  obtain ⟨es, hrun, -, hbalance, -⟩ := staged_effects stages
  have hlast : last.utxos.total + takeWeight amountWeight es
      = ledger.utxos.total + putWeight amountWeight es := run_total (w := amountWeight) hrun
  have hcredited := stages.credited
  simp only [creditRewardOutputs, Outcome.bind_eq_ok, Outcome.pure_eq_ok] at hcredited
  obtain ⟨_, -, hcredited⟩ := hcredited
  have hreward := total_insertOutputs_le
    (rewardOutputsForBlock block (ledger.burnCommitteeForBlock block)) last.utxos
  rw [hcredited, entriesTotal_rewardOutputsForBlock] at hreward
  omega

/-- The application reaches its commit: the block is the next one, and it passes every check that is
made on copies. -/
structure ReachesCommit (ledger : Ledger) (block : Block) (verify : Bool) (nowMs : ℕ) : Prop where
  isNew : ledger.precheckBlockWithoutVdfAt block nowMs = .ok true
  vdf : verify = true → verifyVdf block.vdfSeed block.vdfRounds block.vdfOutput = true
  staged : Outcome.succeeds (ledger.stageBlock block) = true
  context : Outcome.succeeds (ledger.compactBlockContext.appendBlock block) = true

/-- A failed application has either changed nothing or failed in the refresh of the pools. -/
lemma applyBlockWithVdfPolicy_eq_error
    (failed : applyBlockWithVdfPolicy block verify nowMs ledger = .error e ledger') :
    ledger' = ledger ∨ ledger.ReachesCommit block verify nowMs ∧ ∃ effects context pools,
      ledger.stageBlock block = .ok effects ∧
      (ledger.recordBlock block effects context).refreshPools
        (block.transactions.map Transaction.signature)
        (ledger.recordBlock block effects context).toPools = .error e pools := by
  unfold applyBlockWithVdfPolicy at failed
  simp only [Mutate.get_bind_eq_error, Mutate.liftM_eq_lift, Mutate.lift_bind_eq_error] at failed
  rcases failed with ⟨-, rfl⟩ | ⟨isNew, hprecheck, failed⟩
  · exact .inl rfl
  cases isNew with
  | false =>
    rw [if_neg (by simp)] at failed
    exact absurd failed Mutate.pure_ne_error
  | true =>
    rw [if_pos rfl] at failed
    simp only [Mutate.lift_bind_eq_error, Mutate.set_bind_eq_error, Mutate.get_bind_eq_error]
      at failed
    rcases failed with ⟨-, rfl⟩ | ⟨_, hvdf, failed⟩
    · exact .inl rfl
    rcases failed with ⟨-, rfl⟩ | ⟨effects, hstaged, failed⟩
    · exact .inl rfl
    rcases failed with ⟨-, rfl⟩ | ⟨context, hcontext, failed⟩
    · exact .inl rfl
    rcases Mutate.bind_eq_error.mp failed with failed | ⟨_, _, -, failed⟩
    · obtain ⟨pools, hrefresh, -⟩ := Mutate.zoom_eq_error.mp failed
      have reaches : ledger.ReachesCommit block verify nowMs := by
        refine ⟨hprecheck, fun hverify => ?_, by rw [hstaged]; rfl, by rw [hcontext]; rfl⟩
        rw [Outcome.bailIf_eq_ok, not_and] at hvdf
        simpa using hvdf hverify
      exact .inr ⟨reaches, effects, context, pools, hstaged, hrefresh⟩
    · exact absurd failed Mutate.modify_ne_error

/-- Everything fits: the pools have nothing to apply, or the outputs fit with what the block and the
pools can still mint; the sizes of the pools fit, and the v2 transactions have an encoding. -/
structure PoolsFit (ledger : Ledger) (block : Block) : Prop where
  supply : ledger.pending = [] ∧ ledger.orphans = []
    ∨ ledger.utxos.total + block.minted + (mintedBy ledger.pending + mintedBy ledger.orphans)
      ≤ u64Max
  sizes : (ledger.pending.map Transaction.jsonSize).sum
    + (ledger.orphans.map Transaction.jsonSize).sum ≤ u64Max
  encodes : ∀ domain, ledger.transactionV2Domain = .ok domain →
    ∀ transaction ∈ ledger.pendingV2, ∃ bytes, transaction.encode domain = .ok bytes

omit [Crypto] in
/-- Empty pools take no room. -/
lemma PoolsFit.of_empty (empty : ledger.toPools = .empty) : ledger.PoolsFit block := by
  have hpending : ledger.pending = [] := congrArg Pools.pending empty
  have horphans : ledger.orphans = [] := congrArg Pools.orphans empty
  have hpendingV2 : ledger.pendingV2 = [] := congrArg Pools.pendingV2 empty
  constructor
  · exact .inl ⟨hpending, horphans⟩
  · simp [hpending, horphans]
  · simp [hpendingV2]

/-- Where everything fits, a failed application changes nothing. -/
theorem unchanged_of_error
    (fit : ledger.ReachesCommit block verify nowMs → ledger.PoolsFit block)
    (failed : applyBlockWithVdfPolicy block verify nowMs ledger = .error e ledger') :
    ledger' = ledger := by
  rcases applyBlockWithVdfPolicy_eq_error failed with hunchanged | ⟨reaches, h⟩
  · exact hunchanged
  exfalso
  have fit := fit reaches
  obtain ⟨effects, context, pools, hstaged, hrefresh⟩ := h
  obtain ⟨hpools, hdomain⟩ := recordBlock_domain ledger block effects context
  obtain ⟨seen, middle, last, domain, stages⟩ := stageBlock_eq_ok.mp hstaged
  rw [stages.transactionV2Domain] at hdomain
  have hutxos : (ledger.recordBlock block effects context).utxos = effects.state.utxos := by
    obtain ⟨_, _, _, _, hrecord⟩ := recordBlock_eq ledger block effects context
    rw [hrecord]
  have htotal := staged_total hstaged
  rw [hpools] at hrefresh
  have hroom : ledger.pending = [] ∧ ledger.orphans = []
      ∨ (ledger.recordBlock block effects context).utxos.total
        + (mintedBy ledger.pending + mintedBy ledger.orphans) ≤ u64Max := by
    refine fit.supply.imp_right fun hsupply => ?_
    rw [hutxos]
    omega
  obtain ⟨pools', hsucceeds⟩ := refreshPools_of_room
    (block.transactions.map Transaction.signature) hdomain hroom fit.sizes
    (fit.encodes domain stages.transactionV2Domain)
  rw [hsucceeds] at hrefresh
  cases hrefresh

/-! ## Known blocks -/

omit [Crypto] in
lemma heights_unique
    (increases : ledger.chain.Pairwise fun older newer => older.height < newer.height)
    {a b : Block} (ha : a ∈ ledger.chain) (hb : b ∈ ledger.chain) (h : a.height = b.height) :
    a = b := by
  obtain ⟨i, hi, rfl⟩ := List.mem_iff_getElem.mp ha
  obtain ⟨j, hj, rfl⟩ := List.mem_iff_getElem.mp hb
  have hordered := List.pairwise_iff_getElem.mp increases
  rcases Nat.lt_trichotomy i j with hij | rfl | hji
  · have hlt := hordered i j hi hj hij
    omega
  · rfl
  · have hlt := hordered j i hj hi hji
    omega

omit [Crypto] in
lemma height_le_tip
    (increases : ledger.chain.Pairwise fun older newer => older.height < newer.height)
    {known : Block} (mem : known ∈ ledger.chain) : known.height ≤ ledger.tip.height := by
  have hlast := List.dropLast_append_getLast ledger.chainNonempty
  rw [← hlast, List.pairwise_append] at increases
  rw [← hlast, List.mem_append, List.mem_singleton] at mem
  rcases mem with mem | rfl
  · exact (increases.2.2 known mem _ (List.mem_singleton.mpr rfl)).le
  · exact Nat.le_refl _

omit [Crypto] in
/-- Dropping old blocks leaves a part of the chain, in its order. -/
lemma retainRecentChainBlocks_sublist (ledger : Ledger) (recentLimit : ℕ) :
    (ledger.retainRecentChainBlocks recentLimit).chain.Sublist ledger.chain := by
  unfold retainRecentChainBlocks
  dsimp only
  split
  · exact .refl _
  · rename_i hlong
    have hcons : ledger.chain = ledger.genesis :: ledger.chain.tail :=
      (List.cons_head_tail ledger.chainNonempty).symm
    have hdrop : ledger.chain.drop (ledger.chain.length - max recentLimit 1)
        = ledger.chain.tail.drop (ledger.chain.length - max recentLimit 1 - 1) := by
      rw [← List.drop_one, List.drop_drop]
      congr 1
      omega
    dsimp only
    rw [hdrop]
    conv_rhs => rw [hcons]
    exact (List.drop_sublist _ _).cons_cons _

/-- The heights of the chain increase, also where old blocks were dropped. -/
lemma run_heights_increase {genesis : Ledger} {events : List Event} (initial : Initial genesis)
    (run : Run Step genesis events ledger) :
    ledger.chain.Pairwise fun older newer => older.height < newer.height := by
  refine run_track (fun _ ledger =>
    ledger.chain.Pairwise fun older newer => older.height < newer.height) run ?_ ?_ ?_ ?_
  · obtain ⟨_, _, _, _, _, _, _, _, -, -, -, -, rfl⟩ := initial_eq initial
    simp [atGenesis]
  · intro _ ledger block effects ledger' hincreases accepts
    obtain ⟨nowMs, checked⟩ := accepts.prechecked
    rw [accepts.chain, List.pairwise_append]
    refine ⟨hincreases, List.pairwise_singleton _ _, ?_⟩
    intro older holder newer hnewer
    rw [List.mem_singleton.mp hnewer, checked.height]
    exact Nat.lt_succ_of_le (height_le_tip hincreases holder)
  · intro _ ledger pools hincreases
    exact hincreases
  · intro _ ledger recentLimit hincreases
    exact hincreases.sublist (retainRecentChainBlocks_sublist ledger recentLimit)

/-- A block of the chain is known, and applying it again changes nothing. -/
lemma known_unchanged
    (increases : ledger.chain.Pairwise fun older newer => older.height < newer.height)
    {known : Block} (mem : known ∈ ledger.chain) (height : block.height = known.height)
    (hash : block.hash = known.hash) :
    ledger.precheckBlockWithoutVdfAt block nowMs = .ok false ∧
      applyBlockWithVdfPolicy block verify nowMs ledger = .ok () ledger := by
  have hfind : ledger.chain.find? (fun other => other.height = block.height) = some known := by
    cases hfound : ledger.chain.find? fun other => other.height = block.height with
    | none =>
      rw [List.find?_eq_none] at hfound
      exact absurd (by simpa using height.symm) (hfound known mem)
    | some other =>
      have hsame := List.find?_some hfound
      have hother : other.height = known.height := by
        rw [← height]
        simpa using hsame
      rw [heights_unique increases (List.mem_of_find?_eq_some hfound) mem hother]
  have hknown : ledger.precheckBlockWithoutVdfAt block nowMs = .ok false := by
    have hbelow := height_le_tip increases mem
    unfold precheckBlockWithoutVdfAt
    rw [if_pos (by omega), hfind]
    simp only [orError, Outcome.bind_eq_ok, Outcome.ofOption_eq_ok]
    exact ⟨known, rfl, by rw [if_pos hash.symm]; rfl⟩
  refine ⟨hknown, ?_⟩
  unfold applyBlockWithVdfPolicy
  simp only [Mutate.get_bind_eq_ok, Mutate.liftM_eq_lift, Mutate.lift_bind_eq_ok]
  exact ⟨false, hknown, by rw [if_neg (by simp)]; rfl⟩

/-- **Atomicity.** A failed application leaves a reachable ledger as it was, if the block is refused
before the commit, or everything fits; and a known block is reported as not new and changes
nothing. -/
theorem block_application_atomic (reachable : Reachable ledger) :
    ((ledger.ReachesCommit block verify nowMs → ledger.PoolsFit block) →
      ∀ e ledger', applyBlockWithVdfPolicy block verify nowMs ledger = .error e ledger' →
        ledger' = ledger) ∧
    (∀ known ∈ ledger.chain, block.height = known.height → block.hash = known.hash →
      ledger.precheckBlockWithoutVdfAt block nowMs = .ok false ∧
        applyBlockWithVdfPolicy block verify nowMs ledger = .ok () ledger) := by
  obtain ⟨genesis, events, initial, run⟩ := reachable
  refine ⟨fun fit e ledger' failed => unchanged_of_error fit failed, ?_⟩
  intro known mem height hash
  exact known_unchanged (run_heights_increase initial run) mem height hash

end Ledger

end Iuna

/-! ## A half-applied block -/

namespace Iuna.Toy

attribute [local instance] crypto

/-- The genesis ledger with a mined coin that is still pending. -/
def pendingGenesis : Ledger := genesis.withPools { Pools.empty with pending := [minedCoin 0] }

lemma pendingGenesis_reachable : Ledger.Reachable pendingGenesis :=
  ⟨genesis, _, genesis_initial, .cons .poolsChanged (.nil _)⟩

set_option maxRecDepth 10000 in
lemma pendingGenesis_room : (pendingGenesis.precheckBlockWithoutVdfAt block
      block.timestampMs).toOption = some true
    ∧ pendingGenesis.utxos.total + block.minted
      + (mintedBy pendingGenesis.pending + mintedBy pendingGenesis.orphans) ≤ u64Max
    ∧ (pendingGenesis.pending.map Transaction.jsonSize).sum
      + (pendingGenesis.orphans.map Transaction.jsonSize).sum ≤ u64Max := by decide +kernel

lemma pendingGenesis_fit : pendingGenesis.PoolsFit block where
  supply := .inr pendingGenesis_room.2.1
  sizes := pendingGenesis_room.2.2
  encodes _ _ transaction hmem := absurd (show transaction ∈ [] from hmem) List.not_mem_nil

/-- The next block, which is new to a ledger with a pending transaction. -/
theorem block_application_atomic_pending :
    (pendingGenesis.precheckBlockWithoutVdfAt block block.timestampMs).toOption = some true ∧
    (∀ e ledger', Ledger.applyBlockWithVdfPolicy block true block.timestampMs pendingGenesis
      = .error e ledger' → ledger' = pendingGenesis) ∧
    (∀ known ∈ pendingGenesis.chain, block.height = known.height → block.hash = known.hash →
      pendingGenesis.precheckBlockWithoutVdfAt block block.timestampMs = .ok false ∧
        Ledger.applyBlockWithVdfPolicy block true block.timestampMs pendingGenesis
          = .ok () pendingGenesis) := by
  obtain ⟨hatomic, hknown⟩ := Ledger.block_application_atomic pendingGenesis_reachable
  exact ⟨pendingGenesis_room.1, hatomic fun _ => pendingGenesis_fit, hknown⟩

def whaleKey : FixedBytes 32 := ⟨List.replicate 32 0xbb, rfl⟩

def whale : Str := repeatChar 'b' 64

/-- The whale owns as much as one address can. -/
def whaleLaunch : Result Ledger :=
  Ledger.newWithGenesisTransactions (genesisAllocations.insert whale u64Max) [] 10 .default

set_option maxRecDepth 10000 in
lemma whaleLaunch_isOk : whaleLaunch.isOk = true := by decide +kernel

def whaleGenesis : Ledger := Outcome.value whaleLaunch whaleLaunch_isOk

/-- The whale pays the owner as much as the owner can still receive. -/
def payment : Transaction :=
  let transfer (signature : Str) : Transaction :=
    .transfer [⟨genesisAllocationOutpoint whale, whale, signature⟩]
      [⟨owner, u64Max - allocation⟩, ⟨whale, allocation - 1⟩] 1 signature
  transfer (hexEncode (sign whaleKey (utf8 (transfer []).signingPayload)).val)

/-- A mine action on the genesis block. -/
def whaleCoin (recipient : Str) (salt : ℕ) : Transaction :=
  let difficultyBits := whaleGenesis.launchProfile.mineDifficultyBits
  .mine recipient whaleGenesis.genesisHash salt 0 difficultyBits none
    ((mineSignature .legacy recipient whaleGenesis.genesisHash salt 0 difficultyBits).toOption.getD
      [])

/-- The payment and a coin for the whale are submitted. -/
def submissions : Result (Unit × Pools) :=
  Mutate.outcome (do
    let _ ← whaleGenesis.submitTransactionWithOutcome payment
    let _ ← whaleGenesis.submitTransactionWithOutcome (whaleCoin whale 0)) whaleGenesis.toPools

set_option maxRecDepth 10000 in
lemma submissions_isOk : submissions.isOk = true := by decide +kernel

/-- The genesis ledger with the two transactions pending. -/
def whaleLedger : Ledger := whaleGenesis.withPools (Outcome.value submissions submissions_isOk).2

/-- The owner burns a coin, mines one and recovers. -/
def coinBlock : Block :=
  whaleLedger.recoveryBlock owner [burnAllocation microIuna 1, whaleCoin owner 1]
    (1 + mineFinalizerFee)

/-- The height that a failed application leaves. -/
def heightAfterError (ledger : Ledger) (block : Block) : Option ℕ :=
  match Ledger.applyBlockAt block block.timestampMs ledger with
  | .ok _ _ => none
  | .error _ ledger' => some ledger'.tip.height

lemma half_applied_of_height {ledger : Ledger} {block : Block}
    (h : heightAfterError ledger block = some (ledger.tip.height + 1)) :
    ¬ ∀ e ledger', Ledger.applyBlockAt block block.timestampMs ledger = .error e ledger' →
      ledger' = ledger := by
  intro atomic
  unfold heightAfterError at h
  cases happlied : Ledger.applyBlockAt block block.timestampMs ledger with
  | ok u ledger' =>
    rw [happlied] at h
    cases h
  | error e ledger' =>
    have hsame := atomic e ledger' happlied
    rw [happlied, hsame] at h
    have hheight : ledger.tip.height = ledger.tip.height + 1 := Option.some.inj h
    omega

set_option maxRecDepth 10000 in
lemma coinBlock_height :
    heightAfterError whaleLedger coinBlock = some (whaleLedger.tip.height + 1) := by decide +kernel

/-- **A half-applied block.** The coin of the owner makes the payment overflow; the failed attempt
has spent the output of the whale, so that the coin of the whale passes the first pass and
overflows in the second.  The error is reported over a ledger that has the block. -/
theorem coinBlock_half_applied :
    Ledger.Reachable whaleLedger ∧
      ¬ ∀ e ledger', Ledger.applyBlockAt coinBlock coinBlock.timestampMs whaleLedger
        = .error e ledger' → ledger' = whaleLedger :=
  ⟨⟨whaleGenesis, _, .launch (Outcome.eq_ok_value whaleLaunch whaleLaunch_isOk),
    .cons .poolsChanged (.nil _)⟩, half_applied_of_height coinBlock_height⟩

end Iuna.Toy
