import Iuna.Properties.Launch
import Iuna.Properties.LineageIndex

/-!
# The mempool's application and the block's application

The mempool and the block builder apply a transaction to the unspent outputs alone
(`applyTransaction`); a block applies it together with the lineage index
(`applyTransactionWithLineage`).  What the block accepts the mempool accepts, with the same
outputs.  The converse fails where the index refuses what the outputs allow, and `Trackable` says
exactly when it does not: the created outputs replace nothing, the lineage of every spent output
is still remembered when the output is spent, and the lineage that the created outputs continue
does not overflow.

A lineage is forgotten when its value is spent, whether or not outputs of amount zero still carry
it; such an output is then unspendable in a block.
-/

namespace Iuna

open Resource Runs

/-! ## What the index refuses -/

/-- The amount that some inputs take out of a lineage. -/
def takenFrom (state : LineageState) (root : UtxoLineageRoot) (inputs : List TxInput) : ℕ :=
  (inputs.map fun input => if state.utxoLineage[input.outpoint]? = some root then
    (state.utxos[input.outpoint]?.map TxOutput.amount).getD 0 else 0).sum

/-- The lineage that the outputs of some inputs continue. -/
def inheritedRoot (state : LineageState) (inputs : List TxInput) : Option UtxoLineageRoot :=
  inputs.foldl (fun root input => newestLineageRoot root state.utxoLineage[input.outpoint]?) none

/-- The index still has a lineage after some inputs have been spent: it had a value, which the
inputs have not used up, unless none of them belongs to it. -/
def Remembered (state : LineageState) (spent : List TxInput) (root : UtxoLineageRoot) : Prop :=
  ∃ value, state.lineageValues[root]? = some value ∧
    (takenFrom state root spent < value
      ∨ ∀ input ∈ spent, state.utxoLineage[input.outpoint]? ≠ some root)

/-- A transaction that the index does not refuse. -/
structure Trackable (transaction : Transaction) (height : ℕ) (state : LineageState) : Prop where
  free : ∀ entry ∈ createdOutputs transaction, entry.1 ∈ state.utxos →
    entry.1 ∈ transaction.inputs.map TxInput.outpoint
  distinct : ((createdOutputs transaction).map Prod.fst).Nodup
  remembered : ∀ before input after root, transaction.inputs = before ++ input :: after →
    state.utxoLineage[input.outpoint]? = some root → Remembered state before root
  bounded : ∀ root, outputLineageRootForTransaction transaction height
      (inheritedRoot state transaction.inputs) = some root → transaction.outputs ≠ [] →
    state.lineageValues[root]?.getD 0 - takenFrom state root transaction.inputs
      + transaction.created ≤ u64Max

lemma takenFrom_append (state : LineageState) (root : UtxoLineageRoot)
    (inputs inputs' : List TxInput) :
    takenFrom state root (inputs ++ inputs')
      = takenFrom state root inputs + takenFrom state root inputs' := by
  simp [takenFrom]

lemma inheritedRoot_snoc (state : LineageState) (inputs : List TxInput) (input : TxInput) :
    inheritedRoot state (inputs ++ [input])
      = newestLineageRoot (inheritedRoot state inputs) state.utxoLineage[input.outpoint]? := by
  simp [inheritedRoot]

/-! ## Spending inputs -/

/-- With an index, the lineage of an unspent output can be removed as long as it has a value. -/
lemma removeSpentOutputLineage_of_known {tagged : TaggedOutputs} {state : LineageState}
    {outpoint : OutPoint} {output : TxOutput} (mirrors : Mirrors tagged state)
    (same : ∀ root output', tagged[outpoint]? = some (root, output') → output' = output)
    (known : ∀ root, state.utxoLineage[outpoint]? = some root → root ∈ state.lineageValues) :
    ∃ state', removeSpentOutputLineage outpoint output state
      = .ok state.utxoLineage[outpoint]? state' := by
  simp only [removeSpentOutputLineage_eq_ok, true_and]
  cases htag : state.utxoLineage[outpoint]? with
  | none => exact ⟨state, rfl⟩
  | some root =>
    obtain ⟨⟨root', output'⟩, hentry, rfl⟩ : ∃ entry, tagged[outpoint]? = some entry
        ∧ entry.1 = root := by
      have htags := mirrors.tags outpoint
      rw [htag] at htags
      simpa using htags.symm
    obtain rfl := same _ _ hentry
    obtain ⟨value, hvalue⟩ := Option.isSome_iff_exists.mp
      (Std.ExtTreeMap.mem_iff_isSome_getElem?.mp (known root' htag))
    have hle : output'.amount ≤ value := by
      have htotal := mirrors.values root'
      rw [hvalue, Option.getD_some] at htotal
      have hweight := MapSum.le_total (w := rootWeight root') hentry
      rw [← htotal, rootWeight, if_pos rfl] at hweight
      exact hweight
    have howned : outpoint ∈ Pruned.under (Pruned.under state.lineageOwners root')
        output'.address := by
      have hamount := (mirrors.owners root' output'.address outpoint output'.amount).mpr hentry
      exact Std.ExtTreeMap.mem_iff_isSome_getElem?.mpr (Option.isSome_of_eq_some hamount)
    exact ⟨_, _, _, subtractLineageValue_eq_ok.mpr
      ⟨value - output'.amount, by rw [hvalue, Nat.add_sub_cancel' hle], rfl⟩,
      subtractLineageOwnerValue_eq_ok.mpr ⟨howned, rfl⟩, rfl⟩

/-- What a block spends, the mempool spends. -/
lemma spendInput_of_lineage {spent spent' : SpentInputs} {input : TxInput}
    {state state' : LineageState} (h : spendInputWithLineage spent input state = .ok spent' state') :
    spendInput (spent.seen, spent.total) input state.utxos
      = .ok (spent'.seen, spent'.total) state'.utxos := by
  obtain ⟨hnew, output, root, houtput, howner, htotal, hremove, rfl⟩ :=
    spendInputWithLineage_eq_ok.mp h
  exact spendInput_eq_ok.mpr ⟨hnew, output, houtput, howner, htotal,
    removeSpentOutputLineage_utxos hremove, rfl⟩

/-- The state and the local variables after some inputs of a transaction have been spent, in terms
of the state before them. -/
structure SpentPrefix (start : LineageState) (before : List TxInput) (locals : SpentInputs)
    (state : LineageState) : Prop where
  seen : ∀ outpoint, outpoint ∈ locals.seen ↔ outpoint ∈ before.map TxInput.outpoint
  root : locals.inheritedRoot = inheritedRoot start before
  utxos : ∀ outpoint : OutPoint, state.utxos[outpoint]?
    = if outpoint ∈ before.map TxInput.outpoint then none else start.utxos[outpoint]?
  tags : ∀ outpoint : OutPoint, outpoint ∉ before.map TxInput.outpoint →
    state.utxoLineage[outpoint]? = start.utxoLineage[outpoint]?
  remaining : ∀ root : UtxoLineageRoot, state.lineageValues[root]?.getD 0
    + takenFrom start root before = start.lineageValues[root]?.getD 0
  remembered : ∀ root : UtxoLineageRoot,
    root ∈ state.lineageValues ↔ Remembered start before root

lemma SpentPrefix.nil (start : LineageState) :
    SpentPrefix start [] { seen := [], total := 0, inheritedRoot := none } start := by
  refine ⟨by simp, rfl, by simp, fun _ _ => rfl, fun _ => by simp [takenFrom], fun root => ?_⟩
  rw [Std.ExtTreeMap.mem_iff_isSome_getElem?, Option.isSome_iff_exists]
  exact exists_congr fun value => (and_iff_left (.inr (by simp))).symm

/-- The value of a lineage after one of its outputs has been removed. -/
lemma removeSpentOutputLineage_value {outpoint : OutPoint} {output : TxOutput}
    {state state' : LineageState} {tag : Option UtxoLineageRoot} {root : UtxoLineageRoot}
    (h : removeSpentOutputLineage outpoint output state = .ok tag state')
    (tagged : state.utxoLineage[outpoint]? = some root) :
    ∃ remaining : ℕ, state.lineageValues[root]? = some (output.amount + remaining) ∧
      state'.lineageValues[root]? = if remaining = 0 then none else some remaining := by
  obtain ⟨-, hstate⟩ := removeSpentOutputLineage_eq_ok.mp h
  rw [tagged] at hstate
  obtain ⟨lineageValues, _, hvalues, -, rfl⟩ := hstate
  obtain ⟨remaining, hvalue, rfl⟩ := subtractLineageValue_eq_ok.mp hvalues
  refine ⟨remaining, hvalue, ?_⟩
  dsimp only
  by_cases hzero : remaining = 0
  · rw [if_pos hzero, if_pos hzero, Std.ExtTreeMap.getElem?_erase_self]
  · rw [if_neg hzero, if_neg hzero, Std.ExtTreeMap.getElem?_insert_self]

/-- Removing an output leaves the values of the other lineages. -/
lemma removeSpentOutputLineage_value_of_ne {outpoint : OutPoint} {output : TxOutput}
    {state state' : LineageState} {tag : Option UtxoLineageRoot} {root : UtxoLineageRoot}
    (h : removeSpentOutputLineage outpoint output state = .ok tag state')
    (other : state.utxoLineage[outpoint]? ≠ some root) :
    state'.lineageValues[root]? = state.lineageValues[root]? := by
  obtain ⟨-, hstate⟩ := removeSpentOutputLineage_eq_ok.mp h
  cases htag : state.utxoLineage[outpoint]? with
  | none =>
    rw [htag] at hstate
    rw [hstate]
  | some root' =>
    rw [htag] at hstate other
    obtain ⟨lineageValues, _, hvalues, -, rfl⟩ := hstate
    obtain ⟨remaining, -, rfl⟩ := subtractLineageValue_eq_ok.mp hvalues
    have hne : compare root' root ≠ .eq := fun heq =>
      other (by rw [Std.LawfulEqOrd.eq_of_compare heq])
    dsimp only
    split
    · rw [Std.ExtTreeMap.getElem?_erase, if_neg hne]
    · rw [Std.ExtTreeMap.getElem?_insert, if_neg hne]

/-- Removing an output leaves the tags of the other outputs. -/
lemma removeSpentOutputLineage_tag_of_ne {outpoint other : OutPoint} {output : TxOutput}
    {state state' : LineageState} {tag : Option UtxoLineageRoot}
    (h : removeSpentOutputLineage outpoint output state = .ok tag state') (ne : other ≠ outpoint) :
    state'.utxoLineage[other]? = state.utxoLineage[other]? := by
  obtain ⟨-, hstate⟩ := removeSpentOutputLineage_eq_ok.mp h
  split at hstate
  · rw [hstate]
  · obtain ⟨_, _, -, -, rfl⟩ := hstate
    rw [Std.ExtTreeMap.getElem?_erase, if_neg fun heq =>
      ne (Std.LawfulEqOrd.eq_of_compare heq).symm]

/-- What is taken out of the lineage of an unspent output. -/
lemma takenFrom_singleton {start : LineageState} {input : TxInput} {output : TxOutput}
    (unspent : start.utxos[input.outpoint]? = some output) (root : UtxoLineageRoot) :
    takenFrom start root [input]
      = if start.utxoLineage[input.outpoint]? = some root then output.amount else 0 := by
  simp [takenFrom, unspent]

/-- A lineage that an input does not belong to is remembered after it as before it. -/
lemma remembered_snoc_of_ne {start : LineageState} {before : List TxInput} {input : TxInput}
    {root : UtxoLineageRoot} (ne : start.utxoLineage[input.outpoint]? ≠ some root) :
    Remembered start (before ++ [input]) root ↔ Remembered start before root := by
  have htaken : takenFrom start root [input] = 0 := by simp [takenFrom, ne]
  simp only [Remembered, takenFrom_append, htaken, Nat.add_zero, List.forall_mem_append,
    List.forall_mem_singleton, and_iff_left ne]

/-- The lineage of an input is remembered after it as long as its value is not used up. -/
lemma remembered_snoc_of_eq {start : LineageState} {before : List TxInput} {input : TxInput}
    {root : UtxoLineageRoot} {value : Amount} (eq : start.utxoLineage[input.outpoint]? = some root)
    (known : start.lineageValues[root]? = some value) :
    Remembered start (before ++ [input]) root ↔
      takenFrom start root before + takenFrom start root [input] < value := by
  rw [Remembered, known, takenFrom_append]
  constructor
  · rintro ⟨value', hvalue, hlt | hnone⟩
    · rwa [Option.some.inj hvalue]
    · exact absurd eq (hnone input (by simp))
  · intro hlt
    exact ⟨value, rfl, .inl hlt⟩

/-- A spent input extends the prefix. -/
lemma SpentPrefix.step {start state state' : LineageState} {before : List TxInput}
    {locals locals' : SpentInputs} {input : TxInput}
    (prior : SpentPrefix start before locals state)
    (h : spendInputWithLineage locals input state = .ok locals' state') :
    SpentPrefix start (before ++ [input]) locals' state' := by
  obtain ⟨hnew, output, root, houtput, -, -, hremove, rfl⟩ := spendInputWithLineage_eq_ok.mp h
  rw [prior.seen] at hnew
  have hunspent : start.utxos[input.outpoint]? = some output := by
    rwa [prior.utxos, if_neg hnew] at houtput
  have htag := prior.tags input.outpoint hnew
  obtain rfl : root = state.utxoLineage[input.outpoint]? :=
    (removeSpentOutputLineage_eq_ok.mp hremove).1
  have hmem (outpoint : OutPoint) : outpoint ∈ (before ++ [input]).map TxInput.outpoint ↔
      outpoint ∈ before.map TxInput.outpoint ∨ outpoint = input.outpoint := by
    simp
  refine ⟨?_, ?_, ?_, ?_, ?_, ?_⟩
  · intro outpoint
    rw [hmem, List.mem_cons, prior.seen, or_comm]
  · rw [inheritedRoot_snoc, ← prior.root, ← htag]
  · intro outpoint
    rw [removeSpentOutputLineage_utxos hremove, Std.ExtTreeMap.getElem?_erase, prior.utxos]
    by_cases hsame : outpoint = input.outpoint
    · subst hsame
      rw [if_pos Std.ReflOrd.compare_self, if_pos ((hmem _).mpr (.inr rfl))]
    · have hne : compare input.outpoint outpoint ≠ .eq := fun heq =>
        hsame (Std.LawfulEqOrd.eq_of_compare heq).symm
      rw [if_neg hne]
      simp only [hmem, hsame, or_false]
  · intro outpoint hnot
    rw [hmem, not_or] at hnot
    exact (removeSpentOutputLineage_tag_of_ne hremove hnot.2).trans (prior.tags outpoint hnot.1)
  · intro other
    rw [takenFrom_append, takenFrom_singleton hunspent, ← prior.remaining other, ← htag]
    by_cases hother : state.utxoLineage[input.outpoint]? = some other
    · obtain ⟨remaining, hvalue, hafter⟩ := removeSpentOutputLineage_value hremove hother
      have hremaining : (if remaining = 0 then none else some remaining).getD 0 = remaining := by
        split
        · exact (‹remaining = 0›).symm
        · rfl
      rw [if_pos hother, hafter, hvalue, hremaining, Option.getD_some]
      have hsum (a b c : ℕ) : a + (b + c) = c + a + b := by omega
      exact hsum _ _ _
    · rw [if_neg hother, removeSpentOutputLineage_value_of_ne hremove hother, Nat.add_zero]
  · intro other
    rw [Std.ExtTreeMap.mem_iff_isSome_getElem?]
    by_cases hother : state.utxoLineage[input.outpoint]? = some other
    · obtain ⟨remaining, hvalue, hafter⟩ := removeSpentOutputLineage_value hremove hother
      obtain ⟨value, hstart, -⟩ := (prior.remembered other).mp
        (Std.ExtTreeMap.mem_iff_isSome_getElem?.mpr (Option.isSome_of_eq_some hvalue))
      have hvalues := prior.remaining other
      rw [hvalue, hstart, Option.getD_some, Option.getD_some] at hvalues
      rw [htag] at hother
      rw [remembered_snoc_of_eq hother hstart, takenFrom_singleton hunspent, if_pos hother, hafter,
        ← hvalues]
      by_cases hzero : remaining = 0
      · rw [if_pos hzero, hzero]
        simp [Nat.add_comm]
      · have hlt (a b c : ℕ) (hc : c ≠ 0) : a + b < b + c + a := by omega
        rw [if_neg hzero]
        simpa using hlt _ _ _ hzero
    · rw [removeSpentOutputLineage_value_of_ne hremove hother,
        ← Std.ExtTreeMap.mem_iff_isSome_getElem?, prior.remembered]
      rw [htag] at hother
      exact (remembered_snoc_of_ne hother).symm

/-- A lineage that an input spends from is remembered. -/
lemma SpentPrefix.remembered_of_spent {start state state' : LineageState} {before : List TxInput}
    {locals locals' : SpentInputs} {input : TxInput} {root : UtxoLineageRoot}
    (prior : SpentPrefix start before locals state)
    (h : spendInputWithLineage locals input state = .ok locals' state')
    (tagged : start.utxoLineage[input.outpoint]? = some root) : Remembered start before root := by
  obtain ⟨hnew, output, tag, -, -, -, hremove, rfl⟩ := spendInputWithLineage_eq_ok.mp h
  rw [prior.seen] at hnew
  rw [← prior.tags _ hnew] at tagged
  obtain ⟨remaining, hvalue, -⟩ := removeSpentOutputLineage_value hremove tagged
  exact (prior.remembered root).mp
    (Std.ExtTreeMap.mem_iff_isSome_getElem?.mpr (Option.isSome_of_eq_some hvalue))

/-- Where the lineage of an input is remembered, a block spends what the mempool spends. -/
lemma SpentPrefix.spend {start state : LineageState} {before : List TxInput}
    {locals : SpentInputs} {input : TxInput} {tagged : TaggedOutputs} {utxos' : Utxos}
    {spent' : List OutPoint × Amount}
    (prior : SpentPrefix start before locals state) (indexed : Indexed tagged state)
    (remembered : ∀ root, start.utxoLineage[input.outpoint]? = some root →
      Remembered start before root)
    (h : spendInput (locals.seen, locals.total) input state.utxos = .ok spent' utxos') :
    ∃ locals' state', spendInputWithLineage locals input state = .ok locals' state'
      ∧ spent' = (locals'.seen, locals'.total) ∧ utxos' = state'.utxos := by
  obtain ⟨hnew, output, houtput, howner, htotal, rfl, rfl⟩ := spendInput_eq_ok.mp h
  have hstart := prior.tags input.outpoint (fun hmem => hnew ((prior.seen _).mpr hmem))
  have hmirrors : Mirrors tagged { state with utxos := state.utxos.erase input.outpoint } :=
    ⟨indexed.mirrors.tags, indexed.mirrors.values, indexed.mirrors.owners, indexed.mirrors.pruned⟩
  obtain ⟨state', hremove⟩ := @removeSpentOutputLineage_of_known _ _ input.outpoint output hmirrors
    (fun root output' hentry => by
      have hunspent := indexed.unspent _ _ _ hentry
      rw [houtput] at hunspent
      exact (Option.some.inj hunspent).symm)
    (fun root htag => (prior.remembered root).mpr (remembered root (hstart ▸ htag)))
  exact ⟨_, state', spendInputWithLineage_eq_ok.mpr ⟨hnew, output, _, houtput, howner, htotal,
    hremove, rfl⟩, rfl, (removeSpentOutputLineage_utxos hremove).symm⟩

/-- The loop of a block: the mempool's loop succeeds with the same total and the same outputs, and
every lineage was remembered when one of its outputs was spent. -/
lemma SpentPrefix.loop {start : LineageState} {before inputs : List TxInput}
    {first last : SpentInputs × LineageState} (prior : SpentPrefix start before first.1 first.2)
    (run : Run (fun before input after =>
      spendInputWithLineage before.1 input before.2 = .ok after.1 after.2) first inputs last) :
    Run (fun before input after => spendInput before.1 input before.2 = .ok after.1 after.2)
        ((first.1.seen, first.1.total), first.2.utxos) inputs
        ((last.1.seen, last.1.total), last.2.utxos)
      ∧ SpentPrefix start (before ++ inputs) last.1 last.2
      ∧ ∀ between input after root, inputs = between ++ input :: after →
        start.utxoLineage[input.outpoint]? = some root →
        Remembered start (before ++ between) root := by
  induction run generalizing before with
  | nil => exact ⟨.nil _, by simpa using prior, by simp⟩
  | @cons _ _ _ input _ head _ ih =>
    obtain ⟨hplain, hlast, hremembered⟩ := ih (prior.step head)
    rw [List.append_assoc, List.singleton_append] at hlast
    refine ⟨.cons (spendInput_of_lineage head) hplain, hlast, ?_⟩
    intro between other after root hsplit htag
    rcases List.cons_eq_append_iff.mp hsplit with ⟨rfl, hother⟩ | ⟨between, rfl, hrest⟩
    · obtain ⟨rfl, -⟩ : other = input ∧ after = _ := by simpa using hother
      rw [List.append_nil]
      exact prior.remembered_of_spent head htag
    · have hprefix := hremembered between other after root hrest htag
      rwa [List.append_assoc, List.singleton_append] at hprefix

/-- The loop of the mempool: where every lineage is remembered when one of its outputs is spent,
the block's loop succeeds. -/
lemma SpentPrefix.loop_of_plain {start : LineageState} {before inputs : List TxInput}
    {locals : SpentInputs} {state : LineageState} {last : (List OutPoint × Amount) × Utxos}
    (prior : SpentPrefix start before locals state) (index : HasIndex state)
    (remembered : ∀ between input after root, inputs = between ++ input :: after →
      start.utxoLineage[input.outpoint]? = some root → Remembered start (before ++ between) root)
    (run : Run (fun before input after => spendInput before.1 input before.2 = .ok after.1 after.2)
      ((locals.seen, locals.total), state.utxos) inputs last) :
    ∃ locals' state', Run (fun before input after =>
        spendInputWithLineage before.1 input before.2 = .ok after.1 after.2)
        (locals, state) inputs (locals', state')
      ∧ last = ((locals'.seen, locals'.total), state'.utxos) := by
  induction inputs generalizing before locals state with
  | nil => exact ⟨locals, state, .nil _, (run_nil_iff.mp run).symm⟩
  | cons input inputs ih =>
    obtain ⟨tagged, indexed⟩ := index
    obtain ⟨⟨spent', utxos'⟩, head, tail⟩ := run_cons_iff.mp run
    obtain ⟨locals', state', hspend, rfl, rfl⟩ := prior.spend indexed (fun root htag => by
      simpa using remembered [] input inputs root rfl htag) head
    obtain ⟨locals'', state'', hrun, hlast⟩ := ih (prior.step hspend)
      ⟨_, spendInputWithLineage_indexed indexed hspend⟩ (fun between other after root hsplit htag => by
        have hprefix := remembered (input :: between) other after root (by rw [hsplit]; rfl) htag
        rwa [List.append_assoc, List.singleton_append]) tail
    exact ⟨locals'', state'', .cons hspend hrun, hlast⟩

/-! ## Inserting outputs -/

/-- A list of outputs replaces nothing if its head does not and its tail replaces nothing after
that. -/
lemma replaces_nothing_cons {entry : OutPoint × TxOutput} {created : List (OutPoint × TxOutput)}
    {utxos : Utxos} :
    ((∀ other ∈ entry :: created, other.1 ∉ utxos) ∧ ((entry :: created).map Prod.fst).Nodup) ↔
      entry.1 ∉ utxos ∧ (∀ other ∈ created, other.1 ∉ utxos.insert entry.1 entry.2) ∧
        (created.map Prod.fst).Nodup := by
  simp only [List.forall_mem_cons, List.map_cons, List.nodup_cons, List.mem_map,
    Std.ExtTreeMap.mem_insert, Std.LawfulEqCmp.compare_eq_iff_eq]
  constructor
  · rintro ⟨⟨hfree, hrest⟩, hnew, hnodup⟩
    refine ⟨hfree, ?_, hnodup⟩
    rintro other hother (heq | hmem)
    · exact hnew ⟨other, hother, heq.symm⟩
    · exact hrest other hother hmem
  · rintro ⟨hfree, hrest, hnodup⟩
    refine ⟨⟨hfree, fun other hother hmem => hrest other hother (.inr hmem)⟩, ?_, hnodup⟩
    rintro ⟨other, hother, heq⟩
    exact hrest other hother (.inl heq.symm)

/-- Outputs are inserted if they replace nothing, and, where they continue a lineage, if its value
stays in range. -/
lemma insertOutputs_eq_ok {created : List (OutPoint × TxOutput)} {root : Option UtxoLineageRoot}
    {state : LineageState} :
    (∃ state', (forM created fun entry => insertOutputWithLineage entry.1 entry.2 root) state
        = .ok ⟨⟩ state') ↔
      ((∀ entry ∈ created, entry.1 ∉ state.utxos) ∧ (created.map Prod.fst).Nodup) ∧
        ∀ tag, root = some tag → created ≠ [] →
          state.lineageValues[tag]?.getD 0 + entriesTotal created ≤ u64Max := by
  induction created generalizing state with
  | nil => simp
  | cons entry created ih =>
    have hcons : (∃ state', (forM (entry :: created) fun entry =>
          insertOutputWithLineage entry.1 entry.2 root) state = .ok ⟨⟩ state') ↔
        ∃ middle, insertOutputWithLineage entry.1 entry.2 root state = .ok ⟨⟩ middle
          ∧ ∃ state', (forM created fun entry =>
            insertOutputWithLineage entry.1 entry.2 root) middle = .ok ⟨⟩ state' := by
      simp only [List.forM_cons, Mutate.bind_eq_ok]
      constructor
      · rintro ⟨state', _, middle, hhead, htail⟩
        exact ⟨middle, hhead, state', htail⟩
      · rintro ⟨middle, hhead, state', htail⟩
        exact ⟨state', _, middle, hhead, htail⟩
    rw [hcons, replaces_nothing_cons]
    simp only [ih, insertOutputWithLineage_eq_ok]
    cases root with
    | none => simp [and_assoc]
    | some root =>
      have hvalue (value amount rest : ℕ) (empty : created = [] → rest = 0) :
          (value + amount ≤ u64Max ∧ (created ≠ [] → value + amount + rest ≤ u64Max)) ↔
            value + (amount + rest) ≤ u64Max := by
        by_cases hnil : created = []
        · have := empty hnil
          simp [hnil]
          omega
        · simp [hnil]
          omega
      have hempty : created = [] → entriesTotal created = 0 := by
        rintro rfl
        rfl
      simp only [addLineageValue_eq_ok, Option.some.injEq, forall_eq', ne_eq, reduceCtorEq,
        not_false_eq_true, forall_const, entriesTotal_cons, ← hvalue _ _ _ hempty]
      constructor
      · rintro ⟨middle, ⟨hfree, _, ⟨hbound, rfl⟩, rfl⟩, hrest, hrange⟩
        refine ⟨⟨hfree, hrest⟩, hbound, fun hne => ?_⟩
        simpa using hrange hne
      · rintro ⟨⟨hfree, hrest⟩, hbound, hrange⟩
        refine ⟨_, ⟨hfree, _, ⟨hbound, rfl⟩, rfl⟩, hrest, fun hne => ?_⟩
        simpa using hrange hne

/-- The outputs after an insertion with lineage are those after a plain insertion. -/
lemma insertOutputs_utxos {created : List (OutPoint × TxOutput)} {root : Option UtxoLineageRoot}
    {state state' : LineageState}
    (h : (forM created fun entry => insertOutputWithLineage entry.1 entry.2 root) state
      = .ok ⟨⟩ state') : state'.utxos = insertOutputs state.utxos created := by
  have hrun := Mutate.forM_run.mp h
  clear h
  induction hrun with
  | nil => rfl
  | cons head _ ih =>
    obtain ⟨-, hstate⟩ := insertOutputWithLineage_eq_ok.mp head
    rw [ih, insertOutputs, insertOutputs, List.foldl_cons]
    cases root with
    | none =>
      dsimp only at hstate
      rw [hstate]
    | some root =>
      obtain ⟨_, -, rfl⟩ := hstate
      rfl

/-! ## Transactions -/

lemma createdOutputs_eq_nil {transaction : Transaction} :
    createdOutputs transaction = [] ↔ transaction.outputs = [] := by
  rw [createdOutputs, List.map_eq_nil_iff, List.zipIdx_eq_nil_iff]

variable [Crypto]

/-- **One transaction.** The block's application accepts what the mempool's accepts and the index
does not refuse, with the same outputs. -/
theorem applyTransactionWithLineage_iff_plain {transaction : Transaction} {height : ℕ}
    {domain : TransactionSigningDomain} {state : LineageState} {utxos' : Utxos}
    (index : HasIndex state) :
    (∃ state', applyTransactionWithLineage transaction height (some domain) state = .ok ⟨⟩ state'
        ∧ state'.utxos = utxos') ↔
      applyTransaction transaction domain state.utxos = .ok ⟨⟩ utxos'
        ∧ Trackable transaction height state := by
  rw [applyTransaction_eq_ok]
  simp only [applyTransactionWithLineage_eq_ok, Option.mem_def, Option.some.injEq, forall_eq']
  have hbound {middle : LineageState} {locals : SpentInputs}
      (last : SpentPrefix state transaction.inputs locals middle) :
      (∃ state', (forM (createdOutputs transaction) fun entry => insertOutputWithLineage entry.1
          entry.2 (outputLineageRootForTransaction transaction height locals.inheritedRoot)) middle
          = .ok ⟨⟩ state') ↔
        ((∀ entry ∈ createdOutputs transaction, entry.1 ∈ state.utxos →
            entry.1 ∈ transaction.inputs.map TxInput.outpoint)
          ∧ ((createdOutputs transaction).map Prod.fst).Nodup) ∧
        ∀ root, outputLineageRootForTransaction transaction height
            (inheritedRoot state transaction.inputs) = some root → transaction.outputs ≠ [] →
          state.lineageValues[root]?.getD 0 - takenFrom state root transaction.inputs
            + transaction.created ≤ u64Max := by
    rw [insertOutputs_eq_ok, last.root, Ne, createdOutputs_eq_nil, entriesTotal_createdOutputs]
    have hfree (outpoint : OutPoint) : outpoint ∉ middle.utxos ↔
        (outpoint ∈ state.utxos → outpoint ∈ transaction.inputs.map TxInput.outpoint) := by
      rw [Std.ExtTreeMap.mem_iff_isSome_getElem?, Std.ExtTreeMap.mem_iff_isSome_getElem?,
        last.utxos]
      by_cases hmem : outpoint ∈ transaction.inputs.map TxInput.outpoint
      · simp [hmem]
      · simp [hmem]
    have hvalue (root : UtxoLineageRoot) : middle.lineageValues[root]?.getD 0
        = state.lineageValues[root]?.getD 0 - takenFrom state root transaction.inputs :=
      Nat.eq_sub_of_add_eq (last.remaining root)
    simp only [hfree, hvalue]
  constructor
  · rintro ⟨state', ⟨hverify, howner, total, root, middle, hspent, hrequired, hoverflow, hinsert⟩,
      rfl⟩
    obtain ⟨locals, _, hloop, hresult⟩ := Mutate.bind_eq_ok.mp hspent
    obtain ⟨hlocals, rfl⟩ := Mutate.pure_eq_ok.mp hresult
    obtain ⟨rfl, rfl⟩ := Prod.mk.inj hlocals
    obtain ⟨hplain, hlast, hremembered⟩ := (SpentPrefix.nil state).loop
      (Mutate.foldlM_run.mp hloop)
    obtain ⟨⟨hfree, hdistinct⟩, hbounded⟩ := (hbound hlast).mp ⟨_, hinsert⟩
    refine ⟨⟨hverify, howner, _, _, ?_, hrequired, hoverflow, insertOutputs_utxos hinsert⟩,
      hfree, hdistinct, hremembered, hbounded⟩
    exact Mutate.bind_eq_ok.mpr ⟨_, _, Mutate.foldlM_run.mpr hplain, rfl⟩
  · rintro ⟨⟨hverify, howner, total, middle, hspent, hrequired, hoverflow, rfl⟩, trackable⟩
    obtain ⟨spent, _, hloop, hresult⟩ := Mutate.bind_eq_ok.mp hspent
    obtain ⟨rfl, rfl⟩ := Mutate.pure_eq_ok.mp hresult
    obtain ⟨locals, middle', hrun, hlast⟩ := (SpentPrefix.nil state).loop_of_plain index
      trackable.remembered (Mutate.foldlM_run.mp hloop)
    obtain ⟨rfl, rfl⟩ := Prod.mk.inj hlast
    obtain ⟨-, hprefix, -⟩ := (SpentPrefix.nil state).loop hrun
    obtain ⟨state', hinsert⟩ := (hbound hprefix).mpr
      ⟨⟨trackable.free, trackable.distinct⟩, trackable.bounded⟩
    refine ⟨state', ⟨hverify, howner, _, _, middle', ?_, hrequired, hoverflow, hinsert⟩,
      insertOutputs_utxos hinsert⟩
    exact Mutate.bind_eq_ok.mpr ⟨_, _, Mutate.foldlM_run.mpr hrun, rfl⟩

/-- The mempool's application of a list of transactions. -/
def applyTransactions (transactions : List Transaction) (domain : TransactionSigningDomain) :
    Mutate Error Utxos Unit :=
  forM transactions fun transaction => applyTransaction transaction domain

/-- The block's application of a list of transactions. -/
def applyTransactionsWithLineage (transactions : List Transaction) (height : ℕ)
    (domain : TransactionSigningDomain) : Mutate Error LineageState Unit :=
  forM transactions fun transaction => applyTransactionWithLineage transaction height (some domain)

/-- The two applications of a list agree: one accepts it if and only if the other does, and they
leave the same outputs. -/
def ApplicationsAgree (transactions : List Transaction) (height : ℕ)
    (domain : TransactionSigningDomain) (state : LineageState) : Prop :=
  ∀ utxos', applyTransactions transactions domain state.utxos = .ok ⟨⟩ utxos' ↔
    ∃ state', applyTransactionsWithLineage transactions height domain state = .ok ⟨⟩ state'
      ∧ state'.utxos = utxos'

/-- Every transaction of a list is one that the index does not refuse, in the state before it. -/
def AllTrackable (height : ℕ) (domain : TransactionSigningDomain) :
    List Transaction → LineageState → Prop
  | [], _ => True
  | transaction :: transactions, state => Trackable transaction height state ∧
      ∀ state', applyTransactionWithLineage transaction height (some domain) state = .ok ⟨⟩ state' →
        AllTrackable height domain transactions state'

lemma applyTransactions_cons_eq_ok {transaction : Transaction} {transactions : List Transaction}
    {domain : TransactionSigningDomain} {utxos utxos' : Utxos} :
    applyTransactions (transaction :: transactions) domain utxos = .ok ⟨⟩ utxos' ↔
      ∃ middle, applyTransaction transaction domain utxos = .ok ⟨⟩ middle
        ∧ applyTransactions transactions domain middle = .ok ⟨⟩ utxos' := by
  rw [applyTransactions, List.forM_cons, Mutate.bind_eq_ok]
  exact Unique.exists_iff

lemma applyTransactionsWithLineage_cons_eq_ok {transaction : Transaction}
    {transactions : List Transaction} {height : ℕ} {domain : TransactionSigningDomain}
    {state state' : LineageState} :
    applyTransactionsWithLineage (transaction :: transactions) height domain state
        = .ok ⟨⟩ state' ↔
      ∃ middle, applyTransactionWithLineage transaction height (some domain) state = .ok ⟨⟩ middle
        ∧ applyTransactionsWithLineage transactions height domain middle = .ok ⟨⟩ state' := by
  rw [applyTransactionsWithLineage, List.forM_cons, Mutate.bind_eq_ok]
  exact Unique.exists_iff

/-- **A list of transactions.** The block's application accepts what the mempool's accepts and the
index refuses nowhere. -/
theorem applyTransactionsWithLineage_iff_plain {transactions : List Transaction} {height : ℕ}
    {domain : TransactionSigningDomain} {state : LineageState} {utxos' : Utxos}
    (small : ∀ transaction ∈ transactions, ∀ entry ∈ createdOutputs transaction, SmallName entry.1)
    (index : HasIndex state) :
    (∃ state', applyTransactionsWithLineage transactions height domain state = .ok ⟨⟩ state'
        ∧ state'.utxos = utxos') ↔
      applyTransactions transactions domain state.utxos = .ok ⟨⟩ utxos'
        ∧ AllTrackable height domain transactions state := by
  induction transactions generalizing state with
  | nil => simp [applyTransactions, applyTransactionsWithLineage, AllTrackable]
  | cons transaction transactions ih =>
    obtain ⟨hsmall, hrest⟩ := List.forall_mem_cons.mp small
    simp only [applyTransactionsWithLineage_cons_eq_ok, applyTransactions_cons_eq_ok, AllTrackable]
    constructor
    · rintro ⟨state', ⟨middle, hhead, htail⟩, hutxos⟩
      obtain ⟨hplain, htrackable⟩ := (applyTransactionWithLineage_iff_plain index).mp
        ⟨middle, hhead, rfl⟩
      obtain ⟨hplains, htrackables⟩ := (ih hrest
        (applyTransactionWithLineage_hasIndex hsmall index hhead)).mp ⟨state', htail, hutxos⟩
      refine ⟨⟨_, hplain, hplains⟩, htrackable, fun middle' hmiddle' => ?_⟩
      rw [hhead] at hmiddle'
      obtain rfl := (EStateM.Result.ok.inj hmiddle').2
      exact htrackables
    · rintro ⟨⟨_, hplain, hplains⟩, htrackable, htrackables⟩
      obtain ⟨middle, hhead, rfl⟩ := (applyTransactionWithLineage_iff_plain index).mpr
        ⟨hplain, htrackable⟩
      obtain ⟨state', htail, hutxos⟩ := (ih hrest
        (applyTransactionWithLineage_hasIndex hsmall index hhead)).mpr
        ⟨hplains, htrackables middle hhead⟩
      exact ⟨state', ⟨middle, hhead, htail⟩, hutxos⟩

namespace Ledger

/-- **Agreement of mempool and block.** On a reachable ledger the two applications of a list of
checked transactions agree if and only if, should the mempool accept the list, the index refuses
none of its transactions. -/
theorem applications_agree_iff {ledger : Ledger} (reachable : Reachable ledger)
    {transactions : List Transaction}
    (terms : ∀ transaction ∈ transactions, ledger.validateTransactionTerms transaction = .ok ⟨⟩)
    (height : ℕ) (domain : TransactionSigningDomain) :
    ApplicationsAgree transactions height domain ledger.toLineageState ↔
      ((∃ utxos', applyTransactions transactions domain ledger.utxos = .ok ⟨⟩ utxos') →
        AllTrackable height domain transactions ledger.toLineageState) := by
  have hiff (utxos' : Utxos) :
      (∃ state', applyTransactionsWithLineage transactions height domain ledger.toLineageState
          = .ok ⟨⟩ state' ∧ state'.utxos = utxos') ↔
        applyTransactions transactions domain ledger.utxos = .ok ⟨⟩ utxos'
          ∧ AllTrackable height domain transactions ledger.toLineageState :=
    applyTransactionsWithLineage_iff_plain
      (fun transaction hmem => smallName_of_terms (terms transaction hmem))
      (reachable_hasIndex reachable)
  unfold ApplicationsAgree
  simp only [hiff]
  constructor
  · rintro agree ⟨utxos', hplain⟩
    exact ((agree utxos').mp hplain).2
  · intro trackable utxos'
    exact ⟨fun hplain => ⟨hplain, trackable ⟨utxos', hplain⟩⟩, And.left⟩

end Ledger

end Iuna

namespace Iuna.Toy

attribute [local instance] crypto

/-- A mined coin whose transfer leaves an empty output beside the coin. -/
def coinSplit : Transaction :=
  signedTransfer [⟨(minedCoin 0).signature, 0⟩] [⟨owner, 0⟩, ⟨owner, mineReward - 1⟩] 1

/-- The coin is burned, and with it its lineage. -/
def coinBurn : Transaction := signedBurn [⟨coinSplit.signature, 1⟩] [] (mineReward - 2) 1

/-- The empty output is spent together with the allocation. -/
def sweep : Transaction :=
  signedTransfer [⟨coinSplit.signature, 0⟩, genesisAllocationOutpoint owner]
    [⟨owner, allocation - 1⟩] 1

def coinSpends : List Transaction := [minedCoin 0, coinSplit, coinBurn, sweep]

set_option maxRecDepth 10000 in
/-- The mempool takes the spends one by one, and the index does not follow them. -/
lemma coinSpends_facts :
    (∀ transaction ∈ coinSpends, genesis.validateTransactionTerms transaction = .ok ⟨⟩)
    ∧ (Mutate.outcome (applyTransactions coinSpends .legacy) genesis.utxos).isOk = true
    ∧ (Mutate.outcome (applyTransactionsWithLineage coinSpends 1 .legacy)
      genesis.toLineageState).isOk = false := by
  decide +kernel

lemma coinSpends_terms :
    ∀ transaction ∈ coinSpends, genesis.validateTransactionTerms transaction = .ok ⟨⟩ :=
  coinSpends_facts.1

/-- The agreement on the spends of a mined coin. -/
theorem applications_agree_iff_coinSpends :
    ApplicationsAgree coinSpends 1 .legacy genesis.toLineageState ↔
      ((∃ utxos', applyTransactions coinSpends .legacy genesis.utxos = .ok ⟨⟩ utxos') →
        AllTrackable 1 .legacy coinSpends genesis.toLineageState) :=
  Ledger.applications_agree_iff genesis_reachable coinSpends_terms 1 .legacy

/-- **A spend that only the index refuses.** The mempool accepts the four transactions, a block
does not: the lineage of the empty output is forgotten when the coin is burned. -/
theorem spend_refused :
    Ledger.Reachable genesis
      ∧ (∀ transaction ∈ coinSpends, genesis.validateTransactionTerms transaction = .ok ⟨⟩)
      ∧ (∃ utxos', applyTransactions coinSpends .legacy genesis.utxos = .ok ⟨⟩ utxos')
      ∧ ¬ (∃ state', applyTransactionsWithLineage coinSpends 1 .legacy genesis.toLineageState
        = .ok ⟨⟩ state')
      ∧ ¬ ApplicationsAgree coinSpends 1 .legacy genesis.toLineageState := by
  obtain ⟨-, haccepted, hforgotten⟩ := coinSpends_facts
  obtain ⟨_, utxos', hplain⟩ := Mutate.outcome_isOk.mp haccepted
  have hrefused : ¬ ∃ state', applyTransactionsWithLineage coinSpends 1 .legacy
      genesis.toLineageState = .ok ⟨⟩ state' := by
    rintro ⟨state', htracked⟩
    exact Bool.eq_false_iff.mp hforgotten (Mutate.outcome_isOk.mpr ⟨_, state', htracked⟩)
  refine ⟨genesis_reachable, coinSpends_terms, ⟨utxos', hplain⟩, hrefused, fun agree => ?_⟩
  obtain ⟨state', htracked, -⟩ := (agree utxos').mp hplain
  exact hrefused ⟨state', htracked⟩

end Iuna.Toy
