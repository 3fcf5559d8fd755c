import Iuna.Domain.Transaction
import Iuna.Library.Mutation

/-!
# The lineage index

Every mined output starts a lineage, and the outputs of a transaction continue the newest lineage
among its inputs.  Beside the unspent outputs the ledger keeps three maps: the lineage of every
tagged output, the value that each lineage still holds, and for every lineage its outputs by
owner.  This module is `ledger_lineage.rs`: the functions that change the four maps together.
-/

namespace Iuna

/-- The unspent outputs. -/
abbrev Utxos := BTreeMap OutPoint TxOutput

/-- `UtxoLineageRoot`, ordered by outpoint and then by height. -/
structure UtxoLineageRoot where
  outpoint : OutPoint
  height : ℕ
  deriving DecidableEq

instance : Ord UtxoLineageRoot where
  compare := compareLex (compareOn UtxoLineageRoot.outpoint) (compareOn UtxoLineageRoot.height)

instance : Std.TransOrd UtxoLineageRoot :=
  inferInstanceAs (Std.TransCmp (compareLex (compareOn UtxoLineageRoot.outpoint)
    (compareOn UtxoLineageRoot.height)))

instance : Std.LawfulEqOrd UtxoLineageRoot where
  eq_of_compare {a b} h := by
    have hlex : (compareOn UtxoLineageRoot.outpoint a b).then
        (compareOn UtxoLineageRoot.height a b) = .eq := h
    rw [Ordering.then_eq_eq] at hlex
    obtain ⟨houtpoint, hheight⟩ := hlex
    cases a
    cases b
    simp only [compareOn] at houtpoint hheight
    rw [Std.LawfulEqOrd.eq_of_compare houtpoint, Std.LawfulEqOrd.eq_of_compare hheight]

/-- `LineageOwnerValues`. -/
abbrev LineageOwnerValues := BTreeMap UtxoLineageRoot (BTreeMap Str (BTreeMap OutPoint Amount))

/-- The unspent outputs with their lineage index, the four maps that block application threads
through as `&mut` parameters. -/
structure LineageState where
  utxos : Utxos
  utxoLineage : BTreeMap OutPoint UtxoLineageRoot
  lineageValues : BTreeMap UtxoLineageRoot Amount
  lineageOwners : LineageOwnerValues

/-- `newest_lineage_root`. -/
def newestLineageRoot : Option UtxoLineageRoot → Option UtxoLineageRoot → Option UtxoLineageRoot
  | none, none => none
  | some root, none => some root
  | none, some root => some root
  | some left, some right =>
    if left.height < right.height
        ∨ left.height = right.height ∧ compare left.outpoint right.outpoint = .lt then
      some right
    else some left

/-- `output_lineage_root_for_transaction`. -/
def outputLineageRootForTransaction (transaction : Transaction) (blockHeight : ℕ)
    (inheritedRoot : Option UtxoLineageRoot) : Option UtxoLineageRoot :=
  match transaction with
  | .mine _ _ _ _ _ _ signature =>
    some { outpoint := { txid := signature, index := 0 }, height := blockHeight }
  | .transfer _ _ _ _ => inheritedRoot
  | .burn _ _ _ _ _ _ => inheritedRoot

/-! ## The two value maps -/

/-- `subtract_lineage_value`: a lineage that has nothing left is forgotten. -/
def subtractLineageValue (lineageValues : BTreeMap UtxoLineageRoot Amount) (root : UtxoLineageRoot)
    (amount : Amount) : Result (BTreeMap UtxoLineageRoot Amount) := do
  let value ← orError "lineage index is missing spent root" lineageValues[root]?
  let remaining ← orError "lineage value underflows" (checkedSub value amount)
  pure (if remaining = 0 then lineageValues.erase root else lineageValues.insert root remaining)

/-- The addition to a lineage that an inserted output makes. -/
def addLineageValue (lineageValues : BTreeMap UtxoLineageRoot Amount) (root : UtxoLineageRoot)
    (amount : Amount) : Result (BTreeMap UtxoLineageRoot Amount) := do
  let value ← orError "lineage value overflows" (checkedAdd (lineageValues[root]?.getD 0) amount)
  pure (lineageValues.insert root value)

/-- `subtract_lineage_owner_value`: inner maps that become empty are removed. -/
def subtractLineageOwnerValue (lineageOwners : LineageOwnerValues) (root : UtxoLineageRoot)
    (owner : Str) (outpoint : OutPoint) : Result LineageOwnerValues := do
  let owners ← orError "lineage owner index is missing spent root" lineageOwners[root]?
  let outputs ← orError "lineage owner index is missing spent owner" owners[owner]?
  bailIf (outpoint ∉ outputs) "lineage owner index is missing spent output"
  let outputs := outputs.erase outpoint
  let owners := if outputs.isEmpty then owners.erase owner else owners.insert owner outputs
  pure (if owners.isEmpty then lineageOwners.erase root else lineageOwners.insert root owners)

/-- The entry of the owner index that an inserted output makes. -/
def addLineageOwnerValue (lineageOwners : LineageOwnerValues) (root : UtxoLineageRoot)
    (owner : Str) (outpoint : OutPoint) (amount : Amount) : LineageOwnerValues :=
  let owners := lineageOwners[root]?.getD ∅
  let outputs := owners[owner]?.getD ∅
  lineageOwners.insert root (owners.insert owner (outputs.insert outpoint amount))

/-! ## Changes of the whole state -/

/-- `remove_spent_output_lineage`. -/
def removeSpentOutputLineage (outpoint : OutPoint) (output : TxOutput) :
    Mutate Error LineageState (Option UtxoLineageRoot) := do
  let state ← get
  match state.utxoLineage[outpoint]? with
  | none => pure none
  | some root => do
    modify fun state => { state with utxoLineage := state.utxoLineage.erase outpoint }
    let lineageValues ← subtractLineageValue state.lineageValues root output.amount
    modify fun state => { state with lineageValues := lineageValues }
    let lineageOwners ← subtractLineageOwnerValue state.lineageOwners root output.address outpoint
    modify fun state => { state with lineageOwners := lineageOwners }
    pure (some root)

/-- The local variables of the loop of `spend_inputs_with_lineage`. -/
structure SpentInputs where
  seen : List OutPoint
  total : Amount
  inheritedRoot : Option UtxoLineageRoot

/-- One round of `spend_inputs_with_lineage`. -/
def spendInputWithLineage (spent : SpentInputs) (input : TxInput) :
    Mutate Error LineageState SpentInputs := do
  bailIf (input.outpoint ∈ spent.seen) "duplicate input in transaction"
  let state ← get
  let output ← orError s!"transaction spends missing output {String.ofList input.outpoint.id}"
    state.utxos[input.outpoint]?
  modify fun state => { state with utxos := state.utxos.erase input.outpoint }
  bailIf (output.address ≠ input.owner) "transaction input owner does not match spent output"
  let total ← orError "transaction input total overflows" (checkedAdd spent.total output.amount)
  let root ← removeSpentOutputLineage input.outpoint output
  pure { seen := input.outpoint :: spent.seen, total := total,
         inheritedRoot := newestLineageRoot spent.inheritedRoot root }

/-- `spend_inputs_with_lineage`. -/
def spendInputsWithLineage (inputs : List TxInput) :
    Mutate Error LineageState (Amount × Option UtxoLineageRoot) := do
  let spent ← inputs.foldlM spendInputWithLineage { seen := [], total := 0, inheritedRoot := none }
  pure (spent.total, spent.inheritedRoot)

/-- `insert_output_with_lineage`. -/
def insertOutputWithLineage (outpoint : OutPoint) (output : TxOutput)
    (root : Option UtxoLineageRoot) : Mutate Error LineageState Unit := do
  let state ← get
  modify fun state => { state with utxos := state.utxos.insert outpoint output }
  bailIf (outpoint ∈ state.utxos)
    s!"created output replaces existing UTXO {String.ofList outpoint.id}"
  match root with
  | none => pure ()
  | some root => do
    modify fun state => { state with utxoLineage := state.utxoLineage.insert outpoint root }
    let lineageValues ← addLineageValue state.lineageValues root output.amount
    modify fun state => { state with
      lineageValues := lineageValues
      lineageOwners := addLineageOwnerValue state.lineageOwners root output.address outpoint
        output.amount }

/-- `attach_existing_output_lineage`. -/
def attachExistingOutputLineage (outpoint : OutPoint) (output : TxOutput)
    (root : UtxoLineageRoot) : Mutate Error LineageState Unit := do
  let state ← get
  modify fun state => { state with utxoLineage := state.utxoLineage.insert outpoint root }
  bailIf (outpoint ∈ state.utxoLineage) "created output replaces existing UTXO lineage"
  let lineageValues ← addLineageValue state.lineageValues root output.amount
  modify fun state => { state with
    lineageValues := lineageValues
    lineageOwners := addLineageOwnerValue state.lineageOwners root output.address outpoint
      output.amount }

/-! ## What a successful change does -/

@[simp] lemma subtractLineageValue_eq_ok {lineageValues result : BTreeMap UtxoLineageRoot Amount}
    {root : UtxoLineageRoot} {amount : Amount} :
    subtractLineageValue lineageValues root amount = .ok result ↔
      ∃ remaining, lineageValues[root]? = some (amount + remaining) ∧
        (if remaining = 0 then lineageValues.erase root
          else lineageValues.insert root remaining) = result := by
  simp only [subtractLineageValue, Outcome.bind_eq_ok, Outcome.ofOption_eq_ok,
    checkedSub_eq_some, Outcome.pure_eq_ok]
  constructor
  · rintro ⟨value, hvalue, remaining, rfl, rfl⟩
    exact ⟨remaining, hvalue, rfl⟩
  · rintro ⟨remaining, hvalue, rfl⟩
    exact ⟨_, hvalue, remaining, rfl, rfl⟩

@[simp] lemma addLineageValue_eq_ok {lineageValues result : BTreeMap UtxoLineageRoot Amount}
    {root : UtxoLineageRoot} {amount : Amount} :
    addLineageValue lineageValues root amount = .ok result ↔
      lineageValues[root]?.getD 0 + amount ≤ u64Max ∧
        lineageValues.insert root (lineageValues[root]?.getD 0 + amount) = result := by
  simp only [addLineageValue, Outcome.bind_eq_ok, Outcome.ofOption_eq_ok, checkedAdd_eq_some,
    Outcome.pure_eq_ok]
  constructor
  · rintro ⟨_, ⟨rfl, hle⟩, rfl⟩
    exact ⟨hle, rfl⟩
  · rintro ⟨hle, rfl⟩
    exact ⟨_, ⟨rfl, hle⟩, rfl⟩

/-- The state after the lineage of a spent output has been removed. -/
lemma removeSpentOutputLineage_eq_ok {outpoint : OutPoint} {output : TxOutput}
    {state state' : LineageState} {root : Option UtxoLineageRoot} :
    removeSpentOutputLineage outpoint output state = .ok root state' ↔
      root = state.utxoLineage[outpoint]? ∧
        match state.utxoLineage[outpoint]? with
        | none => state' = state
        | some root => ∃ lineageValues lineageOwners,
          subtractLineageValue state.lineageValues root output.amount = .ok lineageValues ∧
          subtractLineageOwnerValue state.lineageOwners root output.address outpoint
            = .ok lineageOwners ∧
          state' = { state with
            utxoLineage := state.utxoLineage.erase outpoint
            lineageValues := lineageValues
            lineageOwners := lineageOwners } := by
  rw [removeSpentOutputLineage, Mutate.get_bind_eq_ok]
  cases state.utxoLineage[outpoint]? with
  | none => simp only [Mutate.pure_eq_ok, eq_comm]
  | some tag =>
    simp only [Mutate.modify_bind_eq_ok, Mutate.liftM_eq_lift, Mutate.lift_bind_eq_ok,
      Mutate.pure_eq_ok]
    constructor
    · rintro ⟨values, hvalues, owners, howners, rfl, rfl⟩
      exact ⟨rfl, values, owners, hvalues, howners, rfl⟩
    · rintro ⟨rfl, values, owners, hvalues, howners, rfl⟩
      exact ⟨values, hvalues, owners, howners, rfl, rfl⟩

/-- The state after an output has been inserted: its outpoint was free. -/
lemma insertOutputWithLineage_eq_ok {outpoint : OutPoint} {output : TxOutput}
    {root : Option UtxoLineageRoot} {state state' : LineageState} {u : Unit} :
    insertOutputWithLineage outpoint output root state = .ok u state' ↔
      outpoint ∉ state.utxos ∧
        match root with
        | none => state' = { state with utxos := state.utxos.insert outpoint output }
        | some root => ∃ lineageValues,
          addLineageValue state.lineageValues root output.amount = .ok lineageValues ∧
          state' = {
            utxos := state.utxos.insert outpoint output
            utxoLineage := state.utxoLineage.insert outpoint root
            lineageValues := lineageValues
            lineageOwners := addLineageOwnerValue state.lineageOwners root output.address outpoint
              output.amount } := by
  unfold insertOutputWithLineage
  simp only [Mutate.get_bind_eq_ok, Mutate.modify_bind_eq_ok, Mutate.liftM_eq_lift,
    Mutate.lift_bind_eq_ok, Outcome.bailIf_eq_ok, exists_const]
  refine and_congr_right fun _ => ?_
  cases root with
  | none =>
    rw [Mutate.pure_eq_ok]
    exact ⟨fun h => h.2.symm, fun h => ⟨rfl, h.symm⟩⟩
  | some root =>
    simp only [Mutate.modify_bind_eq_ok, Mutate.lift_bind_eq_ok, Mutate.modify_eq_ok]
    exact exists_congr fun _ => and_congr_right fun _ => eq_comm

/-- The state after an existing output has been tagged: it had no tag. -/
lemma attachExistingOutputLineage_eq_ok {outpoint : OutPoint} {output : TxOutput}
    {root : UtxoLineageRoot} {state state' : LineageState} {u : Unit} :
    attachExistingOutputLineage outpoint output root state = .ok u state' ↔
      outpoint ∉ state.utxoLineage ∧ ∃ lineageValues,
        addLineageValue state.lineageValues root output.amount = .ok lineageValues ∧
        state' = { state with
          utxoLineage := state.utxoLineage.insert outpoint root
          lineageValues := lineageValues
          lineageOwners := addLineageOwnerValue state.lineageOwners root output.address outpoint
            output.amount } := by
  simp only [attachExistingOutputLineage, Mutate.get_bind_eq_ok, Mutate.modify_bind_eq_ok,
    Mutate.liftM_eq_lift, Mutate.lift_bind_eq_ok, Outcome.bailIf_eq_ok, Mutate.modify_eq_ok,
    exists_const]
  exact and_congr_right fun _ => exists_congr fun _ => and_congr_right fun _ => eq_comm

/-- The state after one input has been spent: the output was there, belonged to the input's owner,
and has left with its lineage. -/
lemma spendInputWithLineage_eq_ok {spent spent' : SpentInputs} {input : TxInput}
    {state state' : LineageState} :
    spendInputWithLineage spent input state = .ok spent' state' ↔
      input.outpoint ∉ spent.seen ∧ ∃ output root,
        state.utxos[input.outpoint]? = some output ∧ output.address = input.owner ∧
        spent.total + output.amount ≤ u64Max ∧
        removeSpentOutputLineage input.outpoint output
          { state with utxos := state.utxos.erase input.outpoint } = .ok root state' ∧
        spent' = {
          seen := input.outpoint :: spent.seen
          total := spent.total + output.amount
          inheritedRoot := newestLineageRoot spent.inheritedRoot root } := by
  simp only [spendInputWithLineage, Mutate.get_bind_eq_ok, Mutate.modify_bind_eq_ok,
    Mutate.liftM_eq_lift, Mutate.lift_bind_eq_ok, Outcome.bailIf_eq_ok, Outcome.ofOption_eq_ok,
    checkedAdd_eq_some, not_not, exists_const]
  refine and_congr_right fun _ => exists_congr fun output => ?_
  constructor
  · rintro ⟨houtput, howner, _, ⟨rfl, htotal⟩, h⟩
    rw [Mutate.bind_eq_ok] at h
    obtain ⟨root, _, hroot, h⟩ := h
    obtain ⟨rfl, rfl⟩ := Mutate.pure_eq_ok.mp h
    exact ⟨root, houtput, howner, htotal, hroot, rfl⟩
  · rintro ⟨root, houtput, howner, htotal, hroot, rfl⟩
    exact ⟨houtput, howner, _, ⟨rfl, htotal⟩,
      Mutate.bind_eq_ok.mpr ⟨root, _, hroot, Mutate.pure_eq_ok.mpr ⟨rfl, rfl⟩⟩⟩

end Iuna
