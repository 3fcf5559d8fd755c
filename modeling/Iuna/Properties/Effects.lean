import Iuna.Library.Resource
import Iuna.Properties.Reachable

/-!
# The effects of a block on the unspent outputs

Every change that an accepted block makes to the unspent outputs is an effect of the strict
resource machine: an output that is present is taken, or an output is put under a name that is
free.  For a legacy and for a v2 transaction this module says which outputs are taken, which are
put, and how their amounts balance; the loops over the transactions of a block then compose.

Only the outputs of the reward are inserted without looking, so they are kept apart: whether they
overwrite something depends on the ids in use (`Iuna.Properties.Supply`).
-/

namespace Iuna

open Resource Runs

/-- The weight of an output is its amount. -/
def amountWeight (_ : OutPoint) (output : TxOutput) : ℕ := output.amount

/-- The sum of all unspent amounts. -/
def Utxos.total (utxos : Utxos) : ℕ := MapSum.total amountWeight utxos

/-- The sum of the amounts of some outputs. -/
def entriesTotal (entries : List (OutPoint × TxOutput)) : ℕ :=
  (entries.map fun entry => entry.2.amount).sum

@[simp] lemma entriesTotal_nil : entriesTotal [] = 0 := rfl

@[simp] lemma entriesTotal_cons (entry : OutPoint × TxOutput)
    (entries : List (OutPoint × TxOutput)) :
    entriesTotal (entry :: entries) = entry.2.amount + entriesTotal entries := by
  simp [entriesTotal]

@[simp] lemma entriesTotal_append (entries entries' : List (OutPoint × TxOutput)) :
    entriesTotal (entries ++ entries') = entriesTotal entries + entriesTotal entries' := by
  simp [entriesTotal]

@[simp] lemma takeWeight_takesOf_amount (entries : List (OutPoint × TxOutput)) :
    takeWeight amountWeight (takesOf entries) = entriesTotal entries := by
  simp [entriesTotal, amountWeight]

@[simp] lemma putWeight_putsOf_amount (entries : List (OutPoint × TxOutput)) :
    putWeight amountWeight (putsOf entries) = entriesTotal entries := by
  simp [entriesTotal, amountWeight]

/-! ## Legacy transactions -/

/-- What a mine action mints: the reward of the miner and the fee of the finalizer. -/
def Transaction.minted : Transaction → Amount
  | .mine _ _ _ _ _ _ _ => mineReward + mineFinalizerFee
  | .transfer _ _ _ _ => 0
  | .burn _ _ _ _ _ _ => 0

/-- The sum of the outputs of a transaction. -/
def Transaction.created (transaction : Transaction) : ℕ :=
  (transaction.outputs.map TxOutput.amount).sum

lemma entriesTotal_createdOutputs (transaction : Transaction) :
    entriesTotal (createdOutputs transaction) = transaction.created := by
  unfold entriesTotal createdOutputs Transaction.created
  rw [List.map_map]
  change ((transaction.outputs.zipIdx).map (TxOutput.amount ∘ Prod.fst)).sum = _
  rw [← List.map_map, List.zipIdx_map_fst]

/-- The outputs that the inputs of a transaction name, owned by the owners the inputs name. -/
def SpendsInputs (inputs : List TxInput) (spent : List (OutPoint × TxOutput)) : Prop :=
  List.Forall₂ (fun input entry => entry.1 = input.outpoint ∧ entry.2.address = input.owner)
    inputs spent

lemma SpendsInputs.map_fst {inputs : List TxInput} {spent : List (OutPoint × TxOutput)}
    (h : SpendsInputs inputs spent) : spent.map Prod.fst = inputs.map TxInput.outpoint := by
  induction h with
  | nil => rfl
  | cons head _ ih => simp [head.1, ih]

lemma removeSpentOutputLineage_utxos {outpoint : OutPoint} {output : TxOutput}
    {state state' : LineageState} {root : Option UtxoLineageRoot}
    (h : removeSpentOutputLineage outpoint output state = .ok root state') :
    state'.utxos = state.utxos := by
  obtain ⟨-, h⟩ := removeSpentOutputLineage_eq_ok.mp h
  split at h
  · rw [h]
  · obtain ⟨_, _, -, -, rfl⟩ := h
    rfl

/-- The inputs of a transaction take the outputs they name. -/
lemma spendInputs_effects {inputs : List TxInput} {start finish : SpentInputs × LineageState}
    (run : Run (fun before input after =>
      spendInputWithLineage before.1 input before.2 = .ok after.1 after.2) start inputs finish) :
    ∃ spent, SpendsInputs inputs spent
      ∧ Run Resource.Step start.2.utxos (takesOf spent) finish.2.utxos
      ∧ finish.1.total = start.1.total + entriesTotal spent := by
  induction run with
  | nil => exact ⟨[], .nil, .nil _, rfl⟩
  | cons head _ ih =>
    obtain ⟨spent, hspent, hrun, htotal⟩ := ih
    obtain ⟨-, output, root, houtput, howner, -, hroot, hlocals⟩ :=
      spendInputWithLineage_eq_ok.mp head
    refine ⟨(_, output) :: spent, .cons ⟨rfl, howner⟩ hspent, ?_, ?_⟩
    · rw [removeSpentOutputLineage_utxos hroot] at hrun
      exact .cons (.take houtput) hrun
    · rw [htotal, hlocals, entriesTotal_cons]
      exact Nat.add_assoc _ _ _

/-- An inserted output is put under a free name. -/
lemma insertOutputWithLineage_effect {outpoint : OutPoint} {output : TxOutput}
    {root : Option UtxoLineageRoot} {state state' : LineageState} {u : Unit}
    (h : insertOutputWithLineage outpoint output root state = .ok u state') :
    Resource.Step state.utxos (.put outpoint output) state'.utxos := by
  obtain ⟨habsent, h⟩ := insertOutputWithLineage_eq_ok.mp h
  cases root with
  | none =>
    rw [show state' = _ from h]
    exact .put habsent
  | some root =>
    obtain ⟨_, -, rfl⟩ := h
    exact .put habsent

lemma insertOutputs_effects {created : List (OutPoint × TxOutput)} {root : Option UtxoLineageRoot}
    {state state' : LineageState} {u : Unit}
    (h : (forM created fun entry => insertOutputWithLineage entry.1 entry.2 root) state
      = .ok u state') :
    Run Resource.Step state.utxos (putsOf created) state'.utxos := by
  have hrun := Mutate.forM_run.mp h
  clear h
  induction hrun with
  | nil => exact .nil _
  | cons head _ ih => exact .cons (insertOutputWithLineage_effect head) ih

variable [Crypto]

omit [Crypto] in
/-- The application of a transfer or a burn, after its signature. -/
lemma spendingTransaction_eq_ok {transaction : Transaction} {height : ℕ}
    {state state' : LineageState} {u : Unit} (notMine : transaction.isMine = false) :
    (do
      ensureSingleInputOwner transaction
      let (inputTotal, inheritedRoot) ← spendInputsWithLineage transaction.inputs
      let required ← requiredInputTotal transaction
      bailIf (inputTotal ≠ required) "transaction inputs do not balance outputs, burn, and fee"
      let state ← get
      ensureOutputsDoNotOverflow state.utxos transaction.outputs
      forM (createdOutputs transaction) fun entry =>
        insertOutputWithLineage entry.1 entry.2 inheritedRoot : Mutate Error LineageState Unit)
        state = .ok u state' ↔
      ensureSingleInputOwner transaction = .ok () ∧
      ∃ total inheritedRoot middle,
        spendInputsWithLineage transaction.inputs state = .ok (total, inheritedRoot) middle ∧
        (transaction.isMine = false → requiredInputTotal transaction = .ok total) ∧
        ensureOutputsDoNotOverflow middle.utxos transaction.outputs = .ok () ∧
        (forM (createdOutputs transaction) fun entry => insertOutputWithLineage entry.1 entry.2
          (outputLineageRootForTransaction transaction height inheritedRoot)) middle
          = .ok () state' := by
  have hroot (root : Option UtxoLineageRoot) :
      outputLineageRootForTransaction transaction height root = root := by
    cases transaction with
    | mine => simp [Transaction.isMine] at notMine
    | transfer => rfl
    | burn => rfl
  simp only [Mutate.liftM_eq_lift, Mutate.lift_bind_eq_ok, hroot, notMine, forall_const]
  constructor
  · rintro ⟨_, howner, h⟩
    obtain ⟨⟨total, root⟩, middle, hspent, h⟩ := Mutate.bind_eq_ok.mp h
    simp only [Mutate.lift_bind_eq_ok, Mutate.get_bind_eq_ok, Outcome.bailIf_eq_ok, not_not] at h
    obtain ⟨_, hrequired, _, rfl, _, hoverflow, hinsert⟩ := h
    exact ⟨howner, total, root, middle, hspent, hrequired, hoverflow, hinsert⟩
  · rintro ⟨howner, total, root, middle, hspent, hrequired, hoverflow, hinsert⟩
    refine ⟨_, howner, Mutate.bind_eq_ok.mpr ⟨(total, root), middle, hspent, ?_⟩⟩
    simp only [Mutate.lift_bind_eq_ok, Mutate.get_bind_eq_ok, Outcome.bailIf_eq_ok, not_not]
    exact ⟨_, hrequired, ⟨⟩, rfl, _, hoverflow, hinsert⟩

/-- A signature is verified first where there is a signing domain. -/
lemma verified_eq_ok {transaction : Transaction} {domain : Option TransactionSigningDomain}
    {state state' : LineageState} {u : Unit} (rest : Mutate Error LineageState Unit) :
    (match domain with
      | some domain => do
        liftM (transaction.verifySignature domain)
        rest
      | none => rest) state = .ok u state' ↔
    (∀ d ∈ domain, transaction.verifySignature d = .ok ()) ∧ rest state = .ok u state' := by
  cases domain with
  | none => simp
  | some domain =>
    simp only [Mutate.liftM_eq_lift, Mutate.lift_bind_eq_ok, Option.mem_def, Option.some.injEq,
      forall_eq']
    exact Unique.exists_iff

/-- The steps of a legacy application: the inputs are spent, then the outputs are inserted with
the lineage that the transaction gives them.  A mine action is the case without inputs. -/
theorem applyTransactionWithLineage_eq_ok {transaction : Transaction} {height : ℕ}
    {domain : Option TransactionSigningDomain} {state state' : LineageState} {u : Unit} :
    applyTransactionWithLineage transaction height domain state = .ok u state' ↔
      (∀ d ∈ domain, transaction.verifySignature d = .ok ()) ∧
      ensureSingleInputOwner transaction = .ok () ∧
      ∃ total inheritedRoot middle,
        spendInputsWithLineage transaction.inputs state = .ok (total, inheritedRoot) middle ∧
        (transaction.isMine = false → requiredInputTotal transaction = .ok total) ∧
        ensureOutputsDoNotOverflow middle.utxos transaction.outputs = .ok () ∧
        (forM (createdOutputs transaction) fun entry => insertOutputWithLineage entry.1 entry.2
          (outputLineageRootForTransaction transaction height inheritedRoot)) middle
          = .ok () state' := by
  unfold applyTransactionWithLineage
  refine (verified_eq_ok _).trans (and_congr_right fun _ => ?_)
  cases transaction with
  | mine recipient anchor salt nonce bits header signature =>
    have hinputs : spendInputsWithLineage [] state = .ok (0, none) state := rfl
    have hsingle (root : Option UtxoLineageRoot) (s : LineageState) :
        (forM (createdOutputs (.mine recipient anchor salt nonce bits header signature))
          fun entry => insertOutputWithLineage entry.1 entry.2 root) s = .ok () state' ↔
        insertOutputWithLineage { txid := signature, index := 0 }
          { address := recipient, amount := mineReward } root s = .ok () state' := by
      have hcreated : createdOutputs (.mine recipient anchor salt nonce bits header signature)
          = [({ txid := signature, index := 0 }, { address := recipient, amount := mineReward })] :=
        rfl
      rw [hcreated, List.forM_cons, List.forM_nil]
      refine Mutate.bind_eq_ok.trans ⟨?_, fun h => ⟨⟨⟩, _, h, rfl⟩⟩
      rintro ⟨_, _, h, hdone⟩
      exact (Mutate.pure_eq_ok.mp hdone).2 ▸ h
    simp only [Mutate.get_bind_eq_ok, Mutate.liftM_eq_lift, Mutate.lift_bind_eq_ok, hsingle]
    constructor
    · rintro ⟨_, hoverflow, hinsert⟩
      exact ⟨rfl, 0, none, state, hinputs, by simp [Transaction.isMine], hoverflow, hinsert⟩
    · rintro ⟨-, total, root, middle, hspent, -, hoverflow, hinsert⟩
      obtain ⟨⟨-, rfl⟩, rfl⟩ : (0 = total ∧ none = root) ∧ state = middle := by
        simpa using hinputs.symm.trans hspent
      exact ⟨_, hoverflow, hinsert⟩
  | transfer inputs outputs fee signature => exact spendingTransaction_eq_ok rfl
  | burn inputs change amount fee anchor signature => exact spendingTransaction_eq_ok rfl

omit [Crypto] in
lemma requiredInputTotal_eq_ok {transaction : Transaction} {total : Amount}
    (h : requiredInputTotal transaction = .ok total) :
    total = transaction.created + transaction.fee + transaction.burned := by
  simp only [requiredInputTotal, outputTotal, Outcome.bind_eq_ok, foldlM_checkedAdd_eq_ok,
    Outcome.ofOption_eq_ok, checkedAdd_eq_some] at h
  obtain ⟨_, ⟨rfl, -⟩, _, ⟨rfl, -⟩, rfl, -⟩ := h
  rw [Nat.zero_add]
  rfl

/-- **A legacy transaction.** It takes the outputs its inputs name, puts its own outputs under
free names, and what it takes and mints is what it creates, pays and burns. -/
theorem applyTransactionWithLineage_effects {transaction : Transaction} {height : ℕ}
    {domain : Option TransactionSigningDomain} {state state' : LineageState} {u : Unit}
    (h : applyTransactionWithLineage transaction height domain state = .ok u state') :
    ∃ spent, SpendsInputs transaction.inputs spent
      ∧ Run Resource.Step state.utxos (takesOf spent ++ putsOf (createdOutputs transaction))
          state'.utxos
      ∧ entriesTotal spent + transaction.minted
          = transaction.created + transaction.fee + transaction.burned := by
  obtain ⟨-, -, total, root, middle, hspent, hrequired, -, hinsert⟩ :=
    applyTransactionWithLineage_eq_ok.mp h
  obtain ⟨locals, _, hloop, hresult⟩ := Mutate.bind_eq_ok.mp hspent
  obtain ⟨hlocals, rfl⟩ := Mutate.pure_eq_ok.mp hresult
  obtain ⟨spent, hinputs, hrun, htotal⟩ := spendInputs_effects (Mutate.foldlM_run.mp hloop)
  refine ⟨spent, hinputs, hrun.append (insertOutputs_effects hinsert), ?_⟩
  cases transaction with
  | mine =>
    cases hinputs
    simp [Transaction.minted, Transaction.created, Transaction.outputs, Transaction.fee,
      Transaction.burned]
  | transfer =>
    have hbalance := requiredInputTotal_eq_ok (hrequired rfl)
    simp only [Prod.mk.injEq] at hlocals
    simp only [Nat.zero_add] at htotal
    rw [Transaction.minted, ← hbalance, ← hlocals.1, htotal]
    rfl
  | burn =>
    have hbalance := requiredInputTotal_eq_ok (hrequired rfl)
    simp only [Prod.mk.injEq] at hlocals
    simp only [Nat.zero_add] at htotal
    rw [Transaction.minted, ← hbalance, ← hlocals.1, htotal]
    rfl

/-! ## Plain application -/

omit [Crypto] in
/-- The state after one input has been spent by the plain application. -/
lemma spendInput_eq_ok {spent spent' : List OutPoint × Amount} {input : TxInput}
    {utxos utxos' : Utxos} :
    spendInput spent input utxos = .ok spent' utxos' ↔
      input.outpoint ∉ spent.1 ∧ ∃ output, utxos[input.outpoint]? = some output ∧
        output.address = input.owner ∧ spent.2 + output.amount ≤ u64Max ∧
        utxos' = utxos.erase input.outpoint ∧
        spent' = (input.outpoint :: spent.1, spent.2 + output.amount) := by
  simp only [spendInput, Mutate.get_bind_eq_ok, Mutate.modify_bind_eq_ok, Mutate.liftM_eq_lift,
    Mutate.lift_bind_eq_ok, Mutate.pure_eq_ok, Outcome.bailIf_eq_ok, Outcome.ofOption_eq_ok,
    checkedAdd_eq_some, not_not, exists_const]
  constructor
  · rintro ⟨hnew, output, houtput, howner, _, ⟨rfl, htotal⟩, rfl, rfl⟩
    exact ⟨hnew, output, houtput, howner, htotal, rfl, rfl⟩
  · rintro ⟨hnew, output, houtput, howner, htotal, rfl, rfl⟩
    exact ⟨hnew, output, houtput, howner, _, ⟨rfl, htotal⟩, rfl, rfl⟩

omit [Crypto] in
/-- The plain loop takes the outputs that the inputs name. -/
lemma spendInputs_plain_effects {inputs : List TxInput}
    {start finish : (List OutPoint × Amount) × Utxos}
    (run : Run (fun before input after =>
      spendInput before.1 input before.2 = .ok after.1 after.2) start inputs finish) :
    ∃ spent, SpendsInputs inputs spent ∧ Run Resource.Step start.2 (takesOf spent) finish.2 := by
  induction run with
  | nil => exact ⟨[], .nil, .nil _⟩
  | cons head _ ih =>
    obtain ⟨spent, hspent, hrun⟩ := ih
    obtain ⟨-, output, houtput, howner, -, hstate, -⟩ := spendInput_eq_ok.mp head
    rw [hstate] at hrun
    exact ⟨(_, output) :: spent, .cons ⟨rfl, howner⟩ hspent, .cons (.take houtput) hrun⟩

/-- The steps of a plain application, in the form of the steps with lineage. -/
theorem applyTransaction_eq_ok {transaction : Transaction} {domain : TransactionSigningDomain}
    {utxos utxos' : Utxos} {u : Unit} :
    applyTransaction transaction domain utxos = .ok u utxos' ↔
      transaction.verifySignature domain = .ok () ∧
      ensureSingleInputOwner transaction = .ok () ∧
      ∃ total middle,
        spendInputs transaction.inputs utxos = .ok total middle ∧
        (transaction.isMine = false → requiredInputTotal transaction = .ok total) ∧
        ensureOutputsDoNotOverflow middle transaction.outputs = .ok () ∧
        utxos' = insertOutputs middle (createdOutputs transaction) := by
  have hspending (notMine : transaction.isMine = false) : (do
      ensureSingleInputOwner transaction
      let inputTotal ← spendInputs transaction.inputs
      let required ← requiredInputTotal transaction
      bailIf (inputTotal ≠ required) "transaction inputs do not balance outputs, burn, and fee"
      let utxos ← get
      ensureOutputsDoNotOverflow utxos transaction.outputs
      modify fun utxos => insertOutputs utxos (createdOutputs transaction) : Mutate Error Utxos Unit)
        utxos = .ok u utxos' ↔
      ensureSingleInputOwner transaction = .ok () ∧
      ∃ total middle,
        spendInputs transaction.inputs utxos = .ok total middle ∧
        (transaction.isMine = false → requiredInputTotal transaction = .ok total) ∧
        ensureOutputsDoNotOverflow middle transaction.outputs = .ok () ∧
        utxos' = insertOutputs middle (createdOutputs transaction) := by
    simp only [Mutate.liftM_eq_lift, Mutate.lift_bind_eq_ok, notMine, forall_const]
    constructor
    · rintro ⟨_, howner, h⟩
      obtain ⟨total, middle, hspent, h⟩ := Mutate.bind_eq_ok.mp h
      simp only [Mutate.lift_bind_eq_ok, Mutate.get_bind_eq_ok, Outcome.bailIf_eq_ok, not_not,
        Mutate.modify_eq_ok] at h
      obtain ⟨_, hrequired, _, rfl, _, hoverflow, rfl⟩ := h
      exact ⟨howner, total, middle, hspent, hrequired, hoverflow, rfl⟩
    · rintro ⟨howner, total, middle, hspent, hrequired, hoverflow, rfl⟩
      refine ⟨_, howner, Mutate.bind_eq_ok.mpr ⟨total, middle, hspent, ?_⟩⟩
      simp only [Mutate.lift_bind_eq_ok, Mutate.get_bind_eq_ok, Outcome.bailIf_eq_ok, not_not,
        Mutate.modify_eq_ok]
      exact ⟨_, hrequired, ⟨⟩, rfl, _, hoverflow, trivial⟩
  unfold applyTransaction
  rw [Mutate.liftM_eq_lift, Mutate.lift_bind_eq_ok]
  refine Unique.exists_iff.trans (and_congr_right fun _ => ?_)
  cases transaction with
  | mine recipient anchor salt nonce bits header signature =>
    have hinputs : spendInputs [] utxos = .ok 0 utxos := rfl
    simp only [Mutate.get_bind_eq_ok, Mutate.liftM_eq_lift, Mutate.lift_bind_eq_ok,
      Mutate.modify_eq_ok]
    constructor
    · rintro ⟨_, hoverflow, rfl⟩
      exact ⟨rfl, 0, utxos, hinputs, by simp [Transaction.isMine], hoverflow, rfl⟩
    · rintro ⟨-, total, middle, hspent, -, hoverflow, rfl⟩
      obtain ⟨-, rfl⟩ : 0 = total ∧ utxos = middle := by simpa using hinputs.symm.trans hspent
      exact ⟨_, hoverflow, rfl⟩
  | transfer inputs outputs fee signature => exact hspending rfl
  | burn inputs change amount fee anchor signature => exact hspending rfl

/-- A plain application takes the outputs that its inputs name and puts its own, perhaps over
existing ones. -/
theorem applyTransaction_effects {transaction : Transaction} {domain : TransactionSigningDomain}
    {utxos utxos' : Utxos} {u : Unit}
    (h : applyTransaction transaction domain utxos = .ok u utxos') :
    ∃ spent, SpendsInputs transaction.inputs spent
      ∧ Run WriteStep utxos (takesOf spent ++ putsOf (createdOutputs transaction)) utxos' := by
  obtain ⟨-, -, total, middle, hspent, -, -, rfl⟩ := applyTransaction_eq_ok.mp h
  obtain ⟨locals, _, hloop, hresult⟩ := Mutate.bind_eq_ok.mp hspent
  obtain ⟨-, rfl⟩ := Mutate.pure_eq_ok.mp hresult
  obtain ⟨spent, hinputs, hrun⟩ := spendInputs_plain_effects (Mutate.foldlM_run.mp hloop)
  exact ⟨spent, hinputs, (run_write hrun).append (run_write_putsOf _ _)⟩

/-! ## Transactions v2 -/

omit [Crypto] in
/-- The inputs of a v2 transaction with their owners. -/
def TransactionV2.ownedInputs : TransactionV2 → List (OutPoint × VersionedAddress)
  | .migration inputs _ _ _ => inputs.map fun input => (input.outpoint, input.owner)
  | .transfer inputs _ _ _ => inputs.map fun input => (input.outpoint, input.owner)
  | .burn inputs _ _ _ _ _ => inputs.map fun input => (input.outpoint, input.owner)
  | .mine _ _ _ _ _ _ _ => []

omit [Crypto] in
/-- The network in whose text form the owners of the inputs are compared. -/
def TransactionV2.ownerNetwork (transaction : TransactionV2) (network : AddressNetwork) :
    AddressNetwork :=
  match transaction with
  | .migration _ _ _ _ => .mainnet
  | _ => network

/-- The sum of the outputs of a v2 transaction. -/
def TransactionV2.created (transaction : TransactionV2) : ℕ :=
  (transaction.outputs.map TransactionV2Output.amount).sum

omit [Crypto] in
lemma TransactionV2.ownedInputs_map_fst (transaction : TransactionV2) :
    transaction.ownedInputs.map Prod.fst = transactionV2Outpoints transaction := by
  cases transaction <;> simp [ownedInputs, transactionV2Outpoints]

omit [Crypto] in
lemma TransactionV2.ownedInputs_map_snd (transaction : TransactionV2) :
    transaction.ownedInputs.map Prod.snd = transaction.owners := by
  cases transaction <;> simp [ownedInputs, owners]

/-- The outputs that the inputs of a v2 transaction name, each under the internal address of the
owner that the input names. -/
def SpendsOwned (network : AddressNetwork) (inputs : List (OutPoint × VersionedAddress))
    (spent : List (OutPoint × TxOutput)) : Prop :=
  List.Forall₂ (fun input entry =>
    entry.1 = input.1 ∧ internalAddress input.2 network = .ok entry.2.address) inputs spent

lemma SpendsOwned.map_fst {network : AddressNetwork} {inputs : List (OutPoint × VersionedAddress)}
    {spent : List (OutPoint × TxOutput)} (h : SpendsOwned network inputs spent) :
    spent.map Prod.fst = inputs.map Prod.fst := by
  induction h with
  | nil => rfl
  | cons head _ ih => simp [head.1, ih]

/-- The entries that the outputs of a v2 transaction become. -/
def CreatesOutputs (transactionId : Str) (network : AddressNetwork)
    (outputs : List (TransactionV2Output × ℕ)) (created : List (OutPoint × TxOutput)) : Prop :=
  List.Forall₂ (fun output entry => entry.1 = { txid := transactionId, index := output.2 }
    ∧ internalAddress output.1.address network = .ok entry.2.address
    ∧ entry.2.amount = output.1.amount) outputs created

lemma CreatesOutputs.map_fst {transactionId : Str} {network : AddressNetwork}
    {outputs : List (TransactionV2Output × ℕ)} {created : List (OutPoint × TxOutput)}
    (h : CreatesOutputs transactionId network outputs created) :
    created.map Prod.fst
      = outputs.map fun output => { txid := transactionId, index := output.2 } := by
  induction h with
  | nil => rfl
  | cons head _ ih => simp [head.1, ih]

lemma CreatesOutputs.total {transactionId : Str} {network : AddressNetwork}
    {outputs : List (TransactionV2Output × ℕ)} {created : List (OutPoint × TxOutput)}
    (h : CreatesOutputs transactionId network outputs created) :
    entriesTotal created = (outputs.map fun output => output.1.amount).sum := by
  induction h with
  | nil => rfl
  | cons head _ ih => simp [head.2.2, ih]

/-- Owned inputs take the outputs they name. -/
lemma spendOwnedInputs_effects {error : String} {network : AddressNetwork}
    {inputs : List (OutPoint × VersionedAddress)} {total total' : Amount} {utxos utxos' : Utxos}
    (h : ((inputs.map fun input => (input.1, internalAddress input.2 network)).foldlM
      (spendOwnedInput error) total) utxos = .ok total' utxos') :
    ∃ spent, SpendsOwned network inputs spent
      ∧ Run Resource.Step utxos (takesOf spent) utxos'
      ∧ total' = total + entriesTotal spent := by
  induction inputs generalizing total utxos with
  | nil =>
    obtain ⟨rfl, rfl⟩ := Mutate.pure_eq_ok.mp h
    exact ⟨[], .nil, .nil _, rfl⟩
  | cons input inputs ih =>
    rw [List.map_cons, Mutate.foldlM_cons_eq_ok] at h
    obtain ⟨sum, middle, hhead, htail⟩ := h
    obtain ⟨spent, hspent, hrun, htotal⟩ := ih htail
    simp only [spendOwnedInput, Mutate.get_bind_eq_ok, Mutate.modify_bind_eq_ok,
      Mutate.liftM_eq_lift, Mutate.lift_bind_eq_ok, Mutate.lift_eq_ok, Outcome.bailIf_eq_ok,
      Outcome.ofOption_eq_ok, checkedAdd_eq_some, not_not, exists_const] at hhead
    obtain ⟨output, houtput, owner, howner, haddress, ⟨rfl, -⟩, rfl⟩ := hhead
    refine ⟨(input.1, output) :: spent, .cons ⟨rfl, ?_⟩ hspent, .cons (.take houtput) hrun, ?_⟩
    · rw [haddress]
      exact howner
    · rw [htotal, entriesTotal_cons]
      exact Nat.add_assoc _ _ _

lemma spendTransactionV2_effects {transaction : TransactionV2} {network : AddressNetwork}
    {total : Amount} {utxos utxos' : Utxos}
    (h : spendTransactionV2 transaction network utxos = .ok total utxos') :
    ∃ spent, SpendsOwned (transaction.ownerNetwork network) transaction.ownedInputs spent
      ∧ Run Resource.Step utxos (takesOf spent) utxos' ∧ total = entriesTotal spent := by
  have hspend {error : String} {pairs : List (OutPoint × Result Str)} {n : AddressNetwork}
      {inputs : List (OutPoint × VersionedAddress)}
      (h : spendOwnedInputs error pairs utxos = .ok total utxos')
      (hpairs : pairs = inputs.map fun input => (input.1, internalAddress input.2 n)) :
      ∃ spent, SpendsOwned n inputs spent ∧ Run Resource.Step utxos (takesOf spent) utxos'
        ∧ total = entriesTotal spent := by
    rw [hpairs] at h
    obtain ⟨spent, hspent, hrun, htotal⟩ := spendOwnedInputs_effects h
    exact ⟨spent, hspent, hrun, by rw [htotal, Nat.zero_add]⟩
  cases transaction with
  | migration inputs outputs fee authorizations =>
    exact hspend h (by simp [TransactionV2.ownedInputs, TransactionV2.ownerNetwork])
  | transfer inputs outputs fee authorizations =>
    exact hspend h (by simp [TransactionV2.ownedInputs, TransactionV2.ownerNetwork])
  | burn inputs change amount fee anchor authorizations =>
    rw [spendTransactionV2, Mutate.liftM_eq_lift, Mutate.lift_bind_eq_ok] at h
    obtain ⟨_, -, h⟩ := h
    exact hspend h (by simp [TransactionV2.ownedInputs, TransactionV2.ownerNetwork])
  | mine => simp [spendTransactionV2] at h

/-- Outputs of a v2 transaction are put under free names. -/
lemma createOutputsV2_effects {transactionId : Str} {network : AddressNetwork}
    {outputs : List (TransactionV2Output × ℕ)} {utxos utxos' : Utxos} {u : Unit}
    (h : (forM outputs (createOutputV2 transactionId network)) utxos = .ok u utxos') :
    ∃ created, CreatesOutputs transactionId network outputs created
      ∧ Run Resource.Step utxos (putsOf created) utxos' := by
  have hrun := Mutate.forM_run.mp h
  clear h
  induction hrun with
  | nil => exact ⟨[], .nil, .nil _⟩
  | cons head _ ih =>
    obtain ⟨created, hcreated, hrun⟩ := ih
    simp only [createOutputV2, Mutate.get_bind_eq_ok, Mutate.modify_bind_eq_ok,
      Mutate.liftM_eq_lift, Mutate.lift_bind_eq_ok, Mutate.lift_eq_ok, Outcome.bailIf_eq_ok,
      exists_const] at head
    obtain ⟨-, address, haddress, habsent, rfl⟩ := head
    exact ⟨(_, { address := address, amount := _ }) :: created, .cons ⟨rfl, haddress, rfl⟩ hcreated,
      .cons (.put habsent) hrun⟩

/-- The steps of the plain application of a v2 transaction. -/
theorem applyTransactionV2ToUtxosWithPolicy_eq_ok {transaction : TransactionV2}
    {domain : TransactionV2Domain} {network : AddressNetwork} {verify : Bool}
    {utxos utxos' : Utxos} {u : Unit} :
    applyTransactionV2ToUtxosWithPolicy transaction domain network verify utxos = .ok u utxos' ↔
      ∃ (total : ℕ) (middle : Utxos) (id : FixedBytes 32),
        spendTransactionV2 transaction network utxos = .ok total middle ∧
        transaction.created + transaction.fee + transaction.amount = total ∧
        total ≤ u64Max ∧
        (verify = true → transaction.verifyAuthorizations domain = .ok ()) ∧
        transaction.transactionId domain = .ok id ∧
        (forM transaction.outputs.zipIdx (createOutputV2 (hexEncode id.val) network)) middle
          = .ok () utxos' := by
  have hverify (rest : Mutate Error Utxos Unit) (s : Utxos) :
      (if verify = true then do
          liftM (transaction.verifyAuthorizations domain)
          rest
        else rest) s = .ok u utxos' ↔
      (verify = true → transaction.verifyAuthorizations domain = .ok ()) ∧
        rest s = .ok u utxos' := by
    cases verify with
    | false => simp
    | true =>
      simp only [if_true, Mutate.liftM_eq_lift, Mutate.lift_bind_eq_ok, forall_const]
      exact Unique.exists_iff
  unfold applyTransactionV2ToUtxosWithPolicy
  rw [Mutate.bind_eq_ok]
  refine exists_congr fun total => ?_
  have hcreated : transaction.created = 0 + transaction.created := (Nat.zero_add _).symm
  constructor
  · rintro ⟨middle, hspent, h⟩
    simp only [Mutate.liftM_eq_lift, Mutate.lift_bind_eq_ok, Outcome.ofOption_eq_ok, sumOutputs,
      foldlM_checkedAdd_eq_ok, checkedAdd_eq_some, Outcome.bailIf_eq_ok, not_not] at h
    obtain ⟨_, ⟨rfl, -⟩, _, ⟨rfl, -⟩, _, ⟨rfl, hle⟩, -, rfl, h⟩ := h
    obtain ⟨hauthorized, h⟩ := (hverify _ _).mp h
    rw [Mutate.lift_bind_eq_ok] at h
    obtain ⟨id, hid, h⟩ := h
    exact ⟨middle, id, hspent, by rw [hcreated]; rfl, hle, hauthorized, hid, h⟩
  · rintro ⟨middle, id, hspent, rfl, hle, hauthorized, hid, h⟩
    refine ⟨middle, hspent, ?_⟩
    simp only [Mutate.liftM_eq_lift, Mutate.lift_bind_eq_ok, Outcome.ofOption_eq_ok, sumOutputs,
      foldlM_checkedAdd_eq_ok, checkedAdd_eq_some, Outcome.bailIf_eq_ok, not_not]
    refine ⟨transaction.created, ⟨hcreated.symm, .inr (by omega)⟩, _, ⟨rfl, by omega⟩, _,
      ⟨rfl, hle⟩, ⟨⟩, rfl, (hverify _ _).mpr ⟨hauthorized, ?_⟩⟩
    rw [Mutate.lift_bind_eq_ok]
    exact ⟨id, hid, h⟩

/-- **A v2 transaction.** It takes the outputs its inputs name, puts its own outputs under its id
and free positions, and what it takes is what it creates, pays and burns. -/
theorem applyTransactionV2ToUtxos_effects {transaction : TransactionV2}
    {domain : TransactionV2Domain} {network : AddressNetwork} {verify : Bool}
    {utxos utxos' : Utxos} {u : Unit}
    (h : applyTransactionV2ToUtxosWithPolicy transaction domain network verify utxos
      = .ok u utxos') :
    ∃ id spent created, transaction.transactionId domain = .ok id
      ∧ SpendsOwned (transaction.ownerNetwork network) transaction.ownedInputs spent
      ∧ CreatesOutputs (hexEncode id.val) network transaction.outputs.zipIdx created
      ∧ Run Resource.Step utxos (takesOf spent ++ putsOf created) utxos'
      ∧ entriesTotal spent = transaction.created + transaction.fee + transaction.amount
      ∧ entriesTotal created = transaction.created := by
  obtain ⟨total, middle, id, hspent, rfl, -, -, hid, hcreate⟩ :=
    applyTransactionV2ToUtxosWithPolicy_eq_ok.mp h
  obtain ⟨spent, howned, hrun, htotal⟩ := spendTransactionV2_effects hspent
  obtain ⟨created, hcreated, hrun'⟩ := createOutputsV2_effects hcreate
  refine ⟨id, spent, created, hid, howned, hcreated, hrun.append hrun', htotal.symm, ?_⟩
  rw [hcreated.total, TransactionV2.created]
  conv_rhs => rw [← List.zipIdx_map_fst 0 transaction.outputs, List.map_map]
  rfl

/-- The steps of the application of a v2 transaction with lineage: the plain application, and
then the tags of the spent and of the created outputs. -/
theorem applyTransactionV2WithLineage_eq_ok {transaction : TransactionV2}
    {domain : TransactionV2Domain} {network : AddressNetwork} {verify : Bool}
    {state state' : LineageState} {u : Unit} :
    applyTransactionV2WithLineage transaction domain network verify state = .ok u state' ↔
      ∃ spent utxos inheritedRoot untagged,
        spentOutputs transaction state.utxos = .ok spent ∧
        applyTransactionV2ToUtxosWithPolicy transaction domain network verify state.utxos
          = .ok () utxos ∧
        (spent.foldlM inheritSpentLineage none) { state with utxos := utxos }
          = .ok inheritedRoot untagged ∧
        match inheritedRoot with
        | none => state' = untagged
        | some root => ∃ id, transaction.transactionId domain = .ok id ∧
          (forM transaction.outputs.zipIdx (attachOutputV2 (hexEncode id.val) root)) untagged
            = .ok () state' := by
  unfold applyTransactionV2WithLineage
  simp only [Mutate.get_bind_eq_ok, Mutate.liftM_eq_lift, Mutate.lift_bind_eq_ok]
  constructor
  · rintro ⟨spent, hspent, h⟩
    obtain ⟨_, _, hzoom, h⟩ := Mutate.bind_eq_ok.mp h
    obtain ⟨utxos, happlied, rfl⟩ := Mutate.zoom_eq_ok.mp hzoom
    obtain ⟨root, untagged, hinherit, h⟩ := Mutate.bind_eq_ok.mp h
    refine ⟨spent, utxos, root, untagged, hspent, happlied, hinherit, ?_⟩
    cases root with
    | none => exact (Mutate.pure_eq_ok.mp h).2.symm
    | some root => exact Mutate.lift_bind_eq_ok.mp h
  · rintro ⟨spent, utxos, root, untagged, hspent, happlied, hinherit, h⟩
    refine ⟨spent, hspent, Mutate.bind_eq_ok.mpr ⟨(), _, Mutate.zoom_eq_ok.mpr
      ⟨utxos, happlied, rfl⟩, Mutate.bind_eq_ok.mpr ⟨root, untagged, hinherit, ?_⟩⟩⟩
    cases root with
    | none => exact Mutate.pure_eq_ok.mpr ⟨rfl, h.symm⟩
    | some root => exact Mutate.lift_bind_eq_ok.mpr h

omit [Crypto] in
lemma inheritSpentLineage_eq_ok {root root' : Option UtxoLineageRoot}
    {entry : OutPoint × TxOutput} {state state' : LineageState} :
    inheritSpentLineage root entry state = .ok root' state' ↔
      ∃ spentRoot, removeSpentOutputLineage entry.1 entry.2 state = .ok spentRoot state' ∧
        root' = newestLineageRoot root spentRoot := by
  rw [inheritSpentLineage, Mutate.bind_eq_ok]
  constructor
  · rintro ⟨spentRoot, _, hremove, hdone⟩
    obtain ⟨rfl, rfl⟩ := Mutate.pure_eq_ok.mp hdone
    exact ⟨spentRoot, hremove, rfl⟩
  · rintro ⟨spentRoot, hremove, rfl⟩
    exact ⟨spentRoot, state', hremove, Mutate.pure_eq_ok.mpr ⟨rfl, rfl⟩⟩

omit [Crypto] in
lemma attachOutputV2_eq_ok {transactionId : Str} {root : UtxoLineageRoot}
    {output : TransactionV2Output × ℕ} {state state' : LineageState} {u : Unit} :
    attachOutputV2 transactionId root output state = .ok u state' ↔
      output.2 ≤ u32Max ∧ ∃ entry,
        state.utxos[({ txid := transactionId, index := output.2 } : OutPoint)]? = some entry ∧
        attachExistingOutputLineage { txid := transactionId, index := output.2 } entry root state
          = .ok () state' := by
  simp only [attachOutputV2, Mutate.get_bind_eq_ok, Mutate.liftM_eq_lift, Mutate.lift_bind_eq_ok,
    Outcome.bailIf_eq_ok, Outcome.ofOption_eq_ok, not_lt, exists_const]

omit [Crypto] in
/-- The tags of a v2 transaction leave its outputs as the plain application made them. -/
lemma attachExistingOutputLineage_utxos {outpoint : OutPoint} {output : TxOutput}
    {root : UtxoLineageRoot} {state state' : LineageState} {u : Unit}
    (h : attachExistingOutputLineage outpoint output root state = .ok u state') :
    state'.utxos = state.utxos := by
  obtain ⟨-, _, -, rfl⟩ := attachExistingOutputLineage_eq_ok.mp h
  rfl

lemma applyTransactionV2WithLineage_utxos {transaction : TransactionV2}
    {domain : TransactionV2Domain} {network : AddressNetwork} {verify : Bool}
    {state state' : LineageState} {u : Unit}
    (h : applyTransactionV2WithLineage transaction domain network verify state = .ok u state') :
    applyTransactionV2ToUtxosWithPolicy transaction domain network verify state.utxos
      = .ok () state'.utxos := by
  obtain ⟨spent, utxos, root, untagged, -, happlied, hinherit, h⟩ :=
    applyTransactionV2WithLineage_eq_ok.mp h
  have huntagged : untagged.utxos = utxos := by
    refine (Mutate.foldlM_run.mp hinherit).invariant (fun s => s.2.utxos = utxos) ?_ rfl
    intro before entry after hbefore hround
    obtain ⟨_, hremove, -⟩ := inheritSpentLineage_eq_ok.mp hround
    rw [removeSpentOutputLineage_utxos hremove, hbefore]
  have hfinal : state'.utxos = utxos := by
    cases root with
    | none =>
      rw [show state' = untagged from h]
      exact huntagged
    | some root =>
      obtain ⟨id, -, hattach⟩ := h
      refine Mutate.forM_invariant (fun s => s.utxos = utxos) ?_ huntagged hattach
      intro output _ before after hbefore hround
      obtain ⟨-, entry, -, hround⟩ := attachOutputV2_eq_ok.mp hround
      rw [attachExistingOutputLineage_utxos hround, hbefore]
  rw [hfinal]
  exact happlied

/-! ## The rounds of a block -/

namespace Ledger

/-- What one round of the legacy loop has checked and done. -/
lemma applyBlockTransaction_eq_ok {ledger : Ledger} {block : Block} {seen seen' : List Str}
    {transaction : Transaction} {state state' : LineageState} :
    ledger.applyBlockTransaction block seen transaction state = .ok seen' state' ↔
      transaction.signature ∉ seen ∧
      ledger.validateTransactionTerms transaction = .ok () ∧
      ledger.validateTransactionAnchorForBlock transaction block.height = .ok () ∧
      applyTransactionWithLineage transaction block.height
        (some (ledger.transactionSigningDomainAt block.height)) state = .ok () state' ∧
      seen' = transaction.signature :: seen := by
  simp only [applyBlockTransaction, Mutate.liftM_eq_lift, Mutate.lift_bind_eq_ok,
    Outcome.bailIf_eq_ok, exists_const]
  refine and_congr_right fun _ => ?_
  constructor
  · rintro ⟨_, hterms, _, hanchor, h⟩
    obtain ⟨_, _, happlied, hdone⟩ := Mutate.bind_eq_ok.mp h
    obtain ⟨rfl, rfl⟩ := Mutate.pure_eq_ok.mp hdone
    exact ⟨hterms, hanchor, happlied, rfl⟩
  · rintro ⟨hterms, hanchor, happlied, rfl⟩
    exact ⟨_, hterms, _, hanchor, Mutate.bind_eq_ok.mpr ⟨_, _, happlied,
      Mutate.pure_eq_ok.mpr ⟨rfl, rfl⟩⟩⟩

/-- What one round of the envelope loop has checked and done. -/
lemma applyBlockEnvelope_eq_ok {ledger : Ledger} {block : Block} {domain : TransactionV2Domain}
    {envelopes envelopes' : EnvelopeState} {envelope : Str} {state state' : LineageState} :
    ledger.applyBlockEnvelope block domain envelopes envelope state = .ok envelopes' state' ↔
      ∃ transaction id bindings,
        decodeCanonicalTransactionV2Envelope envelope domain = .ok transaction ∧
        ledger.validateTransactionV2AnchorForBlock transaction block.height = .ok () ∧
        transaction.validateAuthorizationPolicyAtHeight block.height = .ok () ∧
        transaction.transactionId domain = .ok id ∧
        hexEncode id.val ∉ envelopes.transactionV2Ids ∧
        applyTransactionV2WithLineage transaction domain ledger.network true state
          = .ok () state' ∧
        recordHybridLegacyOwnerBindings envelopes.bindings transaction ledger.network
          = .ok bindings ∧
        envelopes' = {
          bindings := bindings
          transactionV2Ids := hexEncode id.val :: envelopes.transactionV2Ids } := by
  simp only [applyBlockEnvelope, Mutate.liftM_eq_lift, Mutate.lift_bind_eq_ok,
    Outcome.bailIf_eq_ok, exists_const]
  constructor
  · rintro ⟨transaction, hdecode, _, hanchor, _, hpolicy, id, hid, hnew, h⟩
    obtain ⟨_, _, happlied, h⟩ := Mutate.bind_eq_ok.mp h
    obtain ⟨bindings, hbindings, hdone⟩ := Mutate.lift_bind_eq_ok.mp h
    obtain ⟨rfl, rfl⟩ := Mutate.pure_eq_ok.mp hdone
    exact ⟨transaction, id, bindings, hdecode, hanchor, hpolicy, hid, hnew, happlied, hbindings,
      rfl⟩
  · rintro ⟨transaction, id, bindings, hdecode, hanchor, hpolicy, hid, hnew, happlied, hbindings,
      rfl⟩
    exact ⟨transaction, hdecode, _, hanchor, _, hpolicy, id, hid, hnew, Mutate.bind_eq_ok.mpr
      ⟨_, _, happlied, Mutate.lift_bind_eq_ok.mpr ⟨bindings, hbindings,
        Mutate.pure_eq_ok.mpr ⟨rfl, rfl⟩⟩⟩⟩

end Ledger

/-! ## The effects of all transactions of a block -/

omit [Crypto] in
/-- The actions of a legacy transaction: it consumes its inputs, then it creates its outputs. -/
def transactionActions (transaction : Transaction) : List (Action OutPoint) :=
  transaction.inputs.map (fun input => .take input.outpoint)
    ++ (createdOutputs transaction).map fun entry => .put entry.1

/-- The transaction of an envelope with its id, where the envelope is canonical. -/
def openEnvelope (domain : TransactionV2Domain) (envelope : Str) :
    Option (TransactionV2 × FixedBytes 32) :=
  match decodeCanonicalTransactionV2Envelope envelope domain with
  | .error _ => none
  | .ok transaction =>
    match transaction.transactionId domain with
    | .error _ => none
    | .ok id => some (transaction, id)

/-- The actions of the transaction in an envelope. -/
def envelopeActions (domain : TransactionV2Domain) (envelope : Str) : List (Action OutPoint) :=
  match openEnvelope domain envelope with
  | none => []
  | some (transaction, id) =>
    (transactionV2Outpoints transaction).map .take
      ++ transaction.outputs.zipIdx.map fun output =>
        .put { txid := hexEncode id.val, index := output.2 }

/-- The fee of the transaction in an envelope. -/
def envelopeFee (domain : TransactionV2Domain) (envelope : Str) : Amount :=
  ((openEnvelope domain envelope).map fun opened => opened.1.fee).getD 0

/-- What the transaction in an envelope burns. -/
def envelopeBurned (domain : TransactionV2Domain) (envelope : Str) : Amount :=
  ((openEnvelope domain envelope).map fun opened => opened.1.amount).getD 0

lemma openEnvelope_eq_some {domain : TransactionV2Domain} {envelope : Str}
    {transaction : TransactionV2} {id : FixedBytes 32} :
    openEnvelope domain envelope = some (transaction, id) ↔
      decodeCanonicalTransactionV2Envelope envelope domain = .ok transaction
        ∧ transaction.transactionId domain = .ok id := by
  unfold openEnvelope
  split
  · rename_i hdecode
    simp [hdecode]
  · rename_i decoded hdecode
    split
    · rename_i hid
      rw [hdecode]
      simp only [reduceCtorEq, Except.ok.injEq, false_iff, not_and]
      rintro rfl
      rw [hid]
      simp
    · rename_i decodedId hid
      rw [hdecode]
      simp only [Option.some.injEq, Prod.mk.injEq, Except.ok.injEq]
      constructor
      · rintro ⟨rfl, rfl⟩
        exact ⟨rfl, hid⟩
      · rintro ⟨rfl, hid'⟩
        rw [hid] at hid'
        exact ⟨rfl, Except.ok.inj hid'⟩

namespace Ledger

variable {ledger : Ledger} {block : Block}

/-- The legacy transactions of a block. -/
lemma transactions_effects {start finish : List Str × LineageState}
    {transactions : List Transaction}
    (run : Run (ledger.TransactionRound block) start transactions finish) :
    ∃ es, Run Resource.Step start.2.utxos es finish.2.utxos
      ∧ es.map Effect.action = transactions.flatMap transactionActions
      ∧ takeWeight amountWeight es + (transactions.map Transaction.minted).sum
          = putWeight amountWeight es + (transactions.map Transaction.fee).sum
            + (transactions.map Transaction.burned).sum := by
  induction run with
  | nil => exact ⟨[], .nil _, rfl, rfl⟩
  | cons head _ ih =>
    obtain ⟨es, hrun, hactions, hbalance⟩ := ih
    obtain ⟨-, -, -, happlied, -⟩ := applyBlockTransaction_eq_ok.mp head
    obtain ⟨spent, hinputs, hrun', hbalance'⟩ := applyTransactionWithLineage_effects happlied
    refine ⟨_, hrun'.append hrun, ?_, ?_⟩
    · rw [List.map_append, List.map_append, hactions, List.flatMap_cons, transactionActions,
        map_action_takesOf, map_action_putsOf]
      have hspent := hinputs.map_fst
      have htakes : spent.map (fun entry => Action.take entry.1)
          = (spent.map Prod.fst).map Action.take := by simp
      rw [htakes, hspent, List.map_map]
      rfl
    · simp only [takeWeight_append, putWeight_append, takeWeight_takesOf_amount,
        putWeight_putsOf_amount, takeWeight_putsOf, putWeight_takesOf,
        entriesTotal_createdOutputs, List.map_cons, List.sum_cons]
      omega

/-- The envelopes of a block. -/
lemma envelopes_effects {domain : TransactionV2Domain}
    {start finish : EnvelopeState × LineageState} {envelopes : List Str}
    (run : Run (ledger.EnvelopeRound block domain) start envelopes finish) :
    ∃ es, Run Resource.Step start.2.utxos es finish.2.utxos
      ∧ es.map Effect.action = envelopes.flatMap (envelopeActions domain)
      ∧ takeWeight amountWeight es = putWeight amountWeight es
          + (envelopes.map (envelopeFee domain)).sum
          + (envelopes.map (envelopeBurned domain)).sum := by
  induction run with
  | nil => exact ⟨[], .nil _, rfl, rfl⟩
  | @cons _ _ _ envelope _ head _ ih =>
    obtain ⟨es, hrun, hactions, hbalance⟩ := ih
    obtain ⟨transaction, id, _, hdecode, -, -, hid, -, happlied, -, -⟩ :=
      applyBlockEnvelope_eq_ok.mp head
    obtain ⟨id', spent, created, hid', howned, hcreated, hrun', hbalance', htotal⟩ :=
      applyTransactionV2ToUtxos_effects (applyTransactionV2WithLineage_utxos happlied)
    obtain rfl : id = id' := Except.ok.inj (hid.symm.trans hid')
    have hopen := openEnvelope_eq_some.mpr ⟨hdecode, hid⟩
    refine ⟨_, hrun'.append hrun, ?_, ?_⟩
    · rw [List.map_append, List.map_append, hactions, List.flatMap_cons, envelopeActions, hopen,
        map_action_takesOf, map_action_putsOf]
      have htakes : spent.map (fun entry => Action.take entry.1)
          = (spent.map Prod.fst).map Action.take := by simp
      have hputs : created.map (fun entry => Action.put entry.1)
          = (created.map Prod.fst).map Action.put := by simp
      rw [htakes, hputs, howned.map_fst, transaction.ownedInputs_map_fst, hcreated.map_fst,
        List.map_map]
      rfl
    · have hfee : envelopeFee domain envelope = transaction.fee := by
        rw [envelopeFee, hopen, Option.map_some, Option.getD_some]
      have hburned : envelopeBurned domain envelope = transaction.amount := by
        rw [envelopeBurned, hopen, Option.map_some, Option.getD_some]
      simp only [takeWeight_append, putWeight_append, takeWeight_takesOf_amount,
        putWeight_putsOf_amount, takeWeight_putsOf, putWeight_takesOf, htotal, List.map_cons,
        List.sum_cons, hfee, hburned]
      omega

end Ledger

/-! ## The names of created outputs -/

/-- The name of an output that a transaction of an accepted block creates. -/
def SmallName (outpoint : OutPoint) : Prop :=
  outpoint.txid.length = 128 ∨ outpoint.index < maxV2Outputs

/-- The outputs of a checked legacy transaction are named by a signature of 64 bytes, and the one
of a mine action has the position zero. -/
lemma Ledger.smallName_of_terms {ledger : Ledger} {transaction : Transaction} {u : Unit}
    (h : ledger.validateTransactionTerms transaction = .ok u) :
    ∀ entry ∈ createdOutputs transaction, SmallName entry.1 := by
  intro entry hentry
  obtain ⟨⟨output, index⟩, hmem, rfl⟩ := List.mem_map.mp hentry
  cases transaction with
  | mine recipient anchor salt nonce bits header signature =>
    obtain ⟨-, rfl⟩ : output = { address := recipient, amount := mineReward } ∧ index = 0 := by
      simpa [Transaction.outputs] using hmem
    exact .inr (by simp [maxV2Outputs])
  | transfer inputs outputs fee signature =>
    simp only [validateTransactionTerms, Outcome.bind_eq_ok] at h
    obtain ⟨_, _, _, _, _, _, hsignature⟩ := h
    exact .inl (validateSignature_length hsignature)
  | burn inputs change amount fee anchor signature =>
    refine .inl ?_
    cases anchor with
    | none =>
      simp only [validateTransactionTerms, Outcome.bind_eq_ok] at h
      obtain ⟨_, _, _, _, _, _, hsignature⟩ := h
      exact validateSignature_length hsignature
    | some anchor =>
      simp only [validateTransactionTerms, Outcome.bind_eq_ok] at h
      obtain ⟨_, _, _, _, _, _, _, _, hsignature⟩ := h
      exact validateSignature_length hsignature

omit [Crypto] in
/-- A v2 transaction that can be encoded has few outputs. -/
lemma TransactionV2.outputs_length_le {transaction : TransactionV2} {domain : TransactionV2Domain}
    {bytes : Bytes} (h : transaction.encode domain = .ok bytes) :
    transaction.outputs.length ≤ maxV2Outputs := by
  simp only [encode, validateShape, validateUnsignedShape, Outcome.bind_eq_ok,
    Outcome.bailIf_eq_ok, not_lt] at h
  obtain ⟨_, ⟨_, ⟨_, _, _, hcount, _⟩, _⟩, _⟩ := h
  exact hcount

lemma smallName_of_envelope {domain : TransactionV2Domain} {envelope : Str} {outpoint : OutPoint}
    (h : Action.put outpoint ∈ envelopeActions domain envelope) : SmallName outpoint := by
  unfold envelopeActions at h
  split at h
  · simp at h
  · rename_i transaction id hopen
    rcases List.mem_append.mp h with h | h
    · simp at h
    · obtain ⟨⟨output, index⟩, hmem, heq⟩ := List.mem_map.mp h
      obtain rfl : ({ txid := hexEncode id.val, index := index } : OutPoint) = outpoint := by
        simpa using heq
      have hindex : index < transaction.outputs.length := by
        have hget := List.mem_zipIdx hmem
        omega
      have hid := (openEnvelope_eq_some.mp hopen).2
      simp only [TransactionV2.transactionId, Outcome.bind_eq_ok] at hid
      obtain ⟨bytes, hencode, -⟩ := hid
      exact .inr (hindex.trans_le (TransactionV2.outputs_length_le hencode))

omit [Crypto] in
/-- The outputs of a reward are named by the hash of the block and a large position. -/
lemma rewardOutputs_names {block : Block} (committee : List BurnCommitteeMember) :
    ∀ entry ∈ rewardOutputsForBlock block committee,
      entry.1.txid = block.hash ∧ maxV2Outputs ≤ entry.1.index := by
  intro entry hentry
  unfold rewardOutputsForBlock at hentry
  split at hentry
  · simp at hentry
  · rcases List.mem_append.mp hentry with hentry | hentry
    · obtain ⟨-, hentry⟩ := List.mem_ite_nil_right.mp hentry
      obtain rfl := List.mem_singleton.mp hentry
      exact ⟨rfl, by simp [rewardOutpoint, u32Max, maxV2Outputs]⟩
    · obtain ⟨share, -, rfl⟩ := List.mem_map.mp hentry
      refine ⟨rfl, ?_⟩
      simp only [committeeRewardOutpoint, u32Max, maxV2Outputs, burnCommitteeSize]
      omega

end Iuna
