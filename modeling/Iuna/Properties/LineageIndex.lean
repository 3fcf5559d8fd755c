import Iuna.Library.Pruned
import Iuna.Properties.Effects
import Iuna.Properties.Launch

/-!
# Consistency of the lineage index

The three index maps say one thing in three ways: which unspent outputs are tagged, and with which
root.  `Mirrors` is that statement, with the tagged outputs as one map from outpoints to a root
and an output; every change of the index is an erasure or an insertion of that map
(`removeSpentOutputLineage_mirrors`, `addOutputLineage_mirrors`).  The index of a ledger mirrors
tagged outputs that are unspent (`Indexed`), and this is kept by legacy transactions, by v2
transactions, which change the outputs before the index, and by the reward, which is never named
like a tagged output.
-/

namespace Iuna

open Resource Runs

/-- The tagged outputs, with the root of each. -/
abbrev TaggedOutputs := BTreeMap OutPoint (UtxoLineageRoot × TxOutput)

/-- The amount of a tagged output, counted for one root. -/
def rootWeight (root : UtxoLineageRoot) (_ : OutPoint) (tagged : UtxoLineageRoot × TxOutput) : ℕ :=
  if tagged.1 = root then tagged.2.amount else 0

/-- The amount that the owner index has for an outpoint of an owner in a lineage. -/
def ownedAmount (lineageOwners : LineageOwnerValues) (root : UtxoLineageRoot) (owner : Str)
    (outpoint : OutPoint) : Option Amount :=
  (Pruned.under (Pruned.under lineageOwners root) owner)[outpoint]?

/-- The owner index has no empty map on either level. -/
def OwnersPruned (lineageOwners : LineageOwnerValues) : Prop :=
  Pruned.IsPruned lineageOwners
    ∧ ∀ root, Pruned.IsPruned (Pruned.under lineageOwners root)

/-- The index maps of a state say which outputs are tagged, and with which root. -/
structure Mirrors (tagged : TaggedOutputs) (state : LineageState) : Prop where
  tags : ∀ outpoint : OutPoint, state.utxoLineage[outpoint]? = tagged[outpoint]?.map Prod.fst
  values : ∀ root : UtxoLineageRoot, state.lineageValues[root]?.getD 0 = MapSum.total (rootWeight root) tagged
  owners : ∀ (root : UtxoLineageRoot) (owner : Str) (outpoint : OutPoint) (amount : Amount),
    ownedAmount state.lineageOwners root owner outpoint = some amount ↔
      tagged[outpoint]? = some (root, { address := owner, amount := amount })
  pruned : OwnersPruned state.lineageOwners

/-! ## One change of the index -/

/-- Writing the outputs of an owner in a lineage keeps the owner index pruned. -/
lemma OwnersPruned.put {lineageOwners : LineageOwnerValues} (h : OwnersPruned lineageOwners)
    (root : UtxoLineageRoot) (owner : Str) (outputs : BTreeMap OutPoint Amount) :
    OwnersPruned (Pruned.put lineageOwners root
      (Pruned.put (Pruned.under lineageOwners root) owner outputs)) := by
  refine ⟨h.1.put, fun root' => ?_⟩
  rw [Pruned.under_put]
  split
  · exact (h.2 root).put
  · exact h.2 root'

lemma ownedAmount_put (lineageOwners : LineageOwnerValues) (root root' : UtxoLineageRoot)
    (owner owner' : Str) (outputs : BTreeMap OutPoint Amount) (outpoint : OutPoint) :
    ownedAmount (Pruned.put lineageOwners root
      (Pruned.put (Pruned.under lineageOwners root) owner outputs)) root' owner' outpoint =
      if root = root' ∧ owner = owner' then outputs[outpoint]?
      else ownedAmount lineageOwners root' owner' outpoint := by
  unfold ownedAmount
  rw [Pruned.under_put]
  by_cases hroot : root = root'
  · rw [if_pos hroot, Pruned.under_put]
    by_cases howner : owner = owner'
    · rw [if_pos howner, if_pos ⟨hroot, howner⟩]
    · rw [if_neg howner, if_neg fun h => howner h.2, hroot]
  · rw [if_neg hroot, if_neg fun h => hroot h.1]

/-- A spent output leaves the owner index by a write of what is left. -/
lemma subtractLineageOwnerValue_eq_ok {lineageOwners result : LineageOwnerValues}
    {root : UtxoLineageRoot} {owner : Str} {outpoint : OutPoint} :
    subtractLineageOwnerValue lineageOwners root owner outpoint = .ok result ↔
      outpoint ∈ Pruned.under (Pruned.under lineageOwners root) owner ∧
      result = Pruned.put lineageOwners root (Pruned.put (Pruned.under lineageOwners root) owner
        ((Pruned.under (Pruned.under lineageOwners root) owner).erase outpoint)) := by
  simp only [subtractLineageOwnerValue, Outcome.bind_eq_ok, Outcome.ofOption_eq_ok,
    Outcome.bailIf_eq_ok, Outcome.pure_eq_ok, not_not]
  constructor
  · rintro ⟨owners, howners, outputs, houtputs, _, hmem, rfl⟩
    rw [Pruned.under_of_some howners, Pruned.under_of_some houtputs]
    exact ⟨hmem, rfl⟩
  · rintro ⟨hmem, rfl⟩
    have houtputs := Pruned.getElem?_of_under_ne (Pruned.under_ne_of_mem hmem)
    have howner : owner ∈ Pruned.under lineageOwners root := by
      rw [Std.ExtTreeMap.mem_iff_isSome_getElem?, houtputs]
      rfl
    have howners := Pruned.getElem?_of_under_ne (Pruned.under_ne_of_mem howner)
    exact ⟨_, howners, _, houtputs, ⟨⟩, hmem, rfl⟩

/-- An added output enters the owner index by a write. -/
lemma addLineageOwnerValue_eq (lineageOwners : LineageOwnerValues) (root : UtxoLineageRoot)
    (owner : Str) (outpoint : OutPoint) (amount : Amount) :
    addLineageOwnerValue lineageOwners root owner outpoint amount =
      Pruned.put lineageOwners root (Pruned.put (Pruned.under lineageOwners root) owner
        ((Pruned.under (Pruned.under lineageOwners root) owner).insert outpoint amount)) := by
  have houtputs : (Pruned.under (Pruned.under lineageOwners root) owner).insert outpoint amount
      ≠ ∅ := Std.ExtTreeMap.insert_ne_empty
  rw [← Pruned.insert_eq_put houtputs, ← Pruned.insert_eq_put Std.ExtTreeMap.insert_ne_empty]
  rfl

/-- The weight of a root loses what an erased output has under it. -/
lemma total_rootWeight_erase {tagged : TaggedOutputs} {outpoint : OutPoint}
    {root : UtxoLineageRoot} {output : TxOutput} (h : tagged[outpoint]? = some (root, output))
    (root' : UtxoLineageRoot) :
    MapSum.total (rootWeight root') tagged =
      MapSum.total (rootWeight root') (tagged.erase outpoint)
        + if root = root' then output.amount else 0 := by
  rw [← MapSum.total_erase (w := rootWeight root') h, Nat.add_comm]
  rfl

/-- **Removal.** The lineage of a spent output leaves the index, and what leaves is the tag of that
output. -/
theorem removeSpentOutputLineage_mirrors {tagged : TaggedOutputs} {state state' : LineageState}
    {outpoint : OutPoint} {output : TxOutput} {root : Option UtxoLineageRoot}
    (mirrors : Mirrors tagged state)
    (same : ∀ root output', tagged[outpoint]? = some (root, output') → output' = output)
    (h : removeSpentOutputLineage outpoint output state = .ok root state') :
    Mirrors (tagged.erase outpoint) state' ∧ root = tagged[outpoint]?.map Prod.fst := by
  obtain ⟨rfl, hstate⟩ := removeSpentOutputLineage_eq_ok.mp h
  refine ⟨?_, mirrors.tags outpoint⟩
  cases htag : state.utxoLineage[outpoint]? with
  | none =>
    rw [htag] at hstate
    obtain rfl : state' = state := hstate
    have habsent : outpoint ∉ tagged := by
      have htags := mirrors.tags outpoint
      rw [htag] at htags
      simpa using htags.symm
    rwa [MapSum.erase_eq_self habsent]
  | some root =>
    rw [htag] at hstate
    obtain ⟨lineageValues, lineageOwners, hvalues, howners, rfl⟩ := hstate
    obtain ⟨⟨root', output'⟩, hentry, rfl⟩ : ∃ entry, tagged[outpoint]? = some entry
        ∧ entry.1 = root := by
      have htags := mirrors.tags outpoint
      rw [htag] at htags
      simpa using htags.symm
    obtain rfl := same _ _ hentry
    obtain ⟨-, rfl⟩ := subtractLineageOwnerValue_eq_ok.mp howners
    obtain ⟨remaining, hvalue, rfl⟩ := subtractLineageValue_eq_ok.mp hvalues
    refine ⟨?_, ?_, ?_, mirrors.pruned.put _ _ _⟩
    · intro other
      rw [Std.ExtTreeMap.getElem?_erase, Std.ExtTreeMap.getElem?_erase, mirrors.tags other]
      split <;> rfl
    · intro other
      have hbefore := mirrors.values other
      rw [total_rootWeight_erase hentry other] at hbefore
      by_cases hroot : root' = other
      · subst hroot
        rw [if_pos rfl, hvalue] at hbefore
        have hremaining : (if remaining = 0 then state.lineageValues.erase root'
            else state.lineageValues.insert root' remaining)[root']?.getD 0 = remaining := by
          split
          · rename_i hzero
            simp [hzero]
          · simp
        rw [hremaining]
        rw [Option.getD_some] at hbefore
        exact Nat.add_left_cancel (hbefore.trans (Nat.add_comm _ _))
      · have hne : compare root' other ≠ .eq := fun heq =>
          hroot (Std.LawfulEqOrd.eq_of_compare heq)
        rw [if_neg hroot, Nat.add_zero] at hbefore
        rw [← hbefore]
        split <;> simp [Std.ExtTreeMap.getElem?_erase, Std.ExtTreeMap.getElem?_insert, hne]
    · intro other owner other' amount
      have hbefore := mirrors.owners other owner other' amount
      simp only [ownedAmount_put, Std.ExtTreeMap.getElem?_erase]
      by_cases hspent : outpoint = other'
      · subst hspent
        simp only [Std.ReflOrd.compare_self, if_true]
        split
        · simp
        · rename_i hother
          rw [hbefore, hentry]
          constructor
          · intro heq
            obtain ⟨rfl, rfl⟩ : root' = other
                ∧ output' = { address := owner, amount := amount } := by simpa using heq
            exact absurd ⟨rfl, rfl⟩ hother
          · intro heq
            cases heq
      · have hne : compare outpoint other' ≠ .eq := fun heq =>
          hspent (Std.LawfulEqOrd.eq_of_compare heq)
        simp only [hne, if_false]
        split
        · rename_i hother
          obtain ⟨rfl, rfl⟩ := hother
          exact hbefore
        · exact hbefore

/-- **Addition.** A new tag enters the index with its output. -/
theorem addOutputLineage_mirrors {tagged : TaggedOutputs} {state : LineageState}
    {outpoint : OutPoint} {output : TxOutput} {root : UtxoLineageRoot}
    {lineageValues : BTreeMap UtxoLineageRoot Amount} (utxos : Utxos)
    (mirrors : Mirrors tagged state) (new : outpoint ∉ tagged)
    (h : addLineageValue state.lineageValues root output.amount = .ok lineageValues) :
    Mirrors (tagged.insert outpoint (root, output))
      { utxos := utxos
        utxoLineage := state.utxoLineage.insert outpoint root
        lineageValues := lineageValues
        lineageOwners := addLineageOwnerValue state.lineageOwners root output.address outpoint
          output.amount } := by
  obtain ⟨-, rfl⟩ := addLineageValue_eq_ok.mp h
  refine ⟨?_, ?_, ?_, ?_⟩
  · intro other
    rw [Std.ExtTreeMap.getElem?_insert, Std.ExtTreeMap.getElem?_insert, mirrors.tags other]
    split <;> rfl
  · intro other
    rw [MapSum.total_insert_of_not_mem new, ← mirrors.values other, Std.ExtTreeMap.getElem?_insert,
      rootWeight]
    by_cases hroot : root = other
    · subst hroot
      rw [if_pos Std.ReflOrd.compare_self, if_pos rfl]
      exact Nat.add_comm _ _
    · have hne : compare root other ≠ .eq := fun heq => hroot (Std.LawfulEqOrd.eq_of_compare heq)
      rw [if_neg hne, if_neg hroot, Nat.zero_add]
  · intro other owner other' amount
    have hbefore := mirrors.owners other owner other' amount
    rw [addLineageOwnerValue_eq, ownedAmount_put, Std.ExtTreeMap.getElem?_insert,
      Std.ExtTreeMap.getElem?_insert]
    by_cases hsame : outpoint = other'
    · subst hsame
      rw [if_pos Std.ReflOrd.compare_self, if_pos Std.ReflOrd.compare_self]
      split
      · rename_i hother
        obtain ⟨rfl, rfl⟩ := hother
        cases output
        simp
      · rename_i hother
        rw [hbefore, Std.ExtTreeMap.getElem?_eq_none new]
        constructor
        · intro heq
          cases heq
        · intro heq
          obtain ⟨rfl, rfl⟩ : root = other ∧ output = { address := owner, amount := amount } := by
            simpa using heq
          exact absurd ⟨rfl, rfl⟩ hother
    · have hne : compare outpoint other' ≠ .eq := fun heq =>
        hsame (Std.LawfulEqOrd.eq_of_compare heq)
      rw [if_neg hne, if_neg hne]
      split
      · rename_i hother
        obtain ⟨rfl, rfl⟩ := hother
        exact hbefore
      · exact hbefore
  · rw [addLineageOwnerValue_eq]
    exact mirrors.pruned.put _ _ _

/-! ## The index of a state -/

/-- The index of a state: the tagged outputs are unspent, and none is named like a reward. -/
structure Indexed (tagged : TaggedOutputs) (state : LineageState) : Prop where
  mirrors : Mirrors tagged state
  unspent : ∀ (outpoint : OutPoint) (root : UtxoLineageRoot) (output : TxOutput),
    tagged[outpoint]? = some (root, output) → state.utxos[outpoint]? = some output
  small : ∀ outpoint ∈ tagged, SmallName outpoint

/-- Some tagged outputs are the ones the index speaks of. -/
def HasIndex (state : LineageState) : Prop := ∃ tagged, Indexed tagged state

/-- A spent input leaves the outputs and the index together. -/
lemma spendInputWithLineage_indexed {tagged : TaggedOutputs} {spent spent' : SpentInputs}
    {input : TxInput} {state state' : LineageState} (indexed : Indexed tagged state)
    (h : spendInputWithLineage spent input state = .ok spent' state') :
    Indexed (tagged.erase input.outpoint) state' := by
  obtain ⟨-, output, root, houtput, -, -, hremove, -⟩ := spendInputWithLineage_eq_ok.mp h
  have hutxos := removeSpentOutputLineage_utxos hremove
  have hmirrors : Mirrors tagged { state with utxos := state.utxos.erase input.outpoint } :=
    ⟨indexed.mirrors.tags, indexed.mirrors.values, indexed.mirrors.owners, indexed.mirrors.pruned⟩
  refine ⟨(removeSpentOutputLineage_mirrors hmirrors ?_ hremove).1, ?_, ?_⟩
  · intro root output' hentry
    have hunspent := indexed.unspent _ _ _ hentry
    rw [houtput] at hunspent
    exact (Option.some.inj hunspent).symm
  · intro outpoint root output' hentry
    rw [Std.ExtTreeMap.getElem?_erase] at hentry
    split at hentry
    · cases hentry
    · rename_i hne
      rw [hutxos, Std.ExtTreeMap.getElem?_erase, if_neg hne]
      exact indexed.unspent _ _ _ hentry
  · intro outpoint hmem
    exact indexed.small outpoint (Std.ExtTreeMap.mem_erase.mp hmem).2

/-- An inserted output enters the outputs, and the index if it has a root. -/
lemma insertOutputWithLineage_indexed {tagged : TaggedOutputs} {outpoint : OutPoint}
    {output : TxOutput} {root : Option UtxoLineageRoot} {state state' : LineageState} {u : Unit}
    (indexed : Indexed tagged state) (small : SmallName outpoint)
    (h : insertOutputWithLineage outpoint output root state = .ok u state') : HasIndex state' := by
  obtain ⟨hfree, h⟩ := insertOutputWithLineage_eq_ok.mp h
  have hunspent (other : OutPoint) (root : UtxoLineageRoot) (output' : TxOutput)
      (hentry : tagged[other]? = some (root, output')) :
      (state.utxos.insert outpoint output)[other]? = some output' := by
    have hbefore := indexed.unspent _ _ _ hentry
    have hne : compare outpoint other ≠ .eq := fun heq => hfree (by
      rw [Std.LawfulEqOrd.eq_of_compare heq, Std.ExtTreeMap.mem_iff_isSome_getElem?, hbefore]
      rfl)
    rw [Std.ExtTreeMap.getElem?_insert, if_neg hne, hbefore]
  have hnew : outpoint ∉ tagged := by
    intro hmem
    obtain ⟨⟨root, output'⟩, hentry⟩ := Option.isSome_iff_exists.mp
      (Std.ExtTreeMap.mem_iff_isSome_getElem?.mp hmem)
    refine hfree ?_
    rw [Std.ExtTreeMap.mem_iff_isSome_getElem?, indexed.unspent _ _ _ hentry]
    rfl
  cases root with
  | none =>
    obtain rfl : state' = _ := h
    exact ⟨tagged, ⟨indexed.mirrors.tags, indexed.mirrors.values, indexed.mirrors.owners,
      indexed.mirrors.pruned⟩, hunspent, indexed.small⟩
  | some root =>
    obtain ⟨lineageValues, hvalues, rfl⟩ := h
    refine ⟨_, addOutputLineage_mirrors _ indexed.mirrors hnew hvalues, ?_, ?_⟩
    · intro other root' output' hentry
      rw [Std.ExtTreeMap.getElem?_insert] at hentry
      split at hentry
      · rename_i heq
        obtain ⟨rfl, rfl⟩ : root = root' ∧ output = output' := by simpa using hentry
        rw [Std.ExtTreeMap.getElem?_insert, if_pos heq]
      · exact hunspent _ _ _ hentry
    · intro other hmem
      rcases Std.ExtTreeMap.mem_insert.mp hmem with heq | hmem
      · exact Std.LawfulEqOrd.eq_of_compare heq ▸ small
      · exact indexed.small other hmem

/-- A tag that is attached to an unspent output enters the index. -/
lemma attachExistingOutputLineage_indexed {tagged : TaggedOutputs} {outpoint : OutPoint}
    {output : TxOutput} {root : UtxoLineageRoot} {state state' : LineageState} {u : Unit}
    (indexed : Indexed tagged state) (small : SmallName outpoint)
    (unspent : state.utxos[outpoint]? = some output)
    (h : attachExistingOutputLineage outpoint output root state = .ok u state') :
    HasIndex state' := by
  obtain ⟨huntagged, lineageValues, hvalues, rfl⟩ := attachExistingOutputLineage_eq_ok.mp h
  have hnew : outpoint ∉ tagged := by
    intro hmem
    refine huntagged ?_
    rw [Std.ExtTreeMap.mem_iff_isSome_getElem?] at hmem ⊢
    rw [indexed.mirrors.tags outpoint, Option.isSome_map]
    exact hmem
  refine ⟨_, addOutputLineage_mirrors _ indexed.mirrors hnew hvalues, ?_, ?_⟩
  · intro other root' output' hentry
    rw [Std.ExtTreeMap.getElem?_insert] at hentry
    split at hentry
    · rename_i heq
      obtain ⟨rfl, rfl⟩ : root = root' ∧ output = output' := by simpa using hentry
      rw [← Std.LawfulEqOrd.eq_of_compare heq]
      exact unspent
    · exact indexed.unspent _ _ _ hentry
  · intro other hmem
    rcases Std.ExtTreeMap.mem_insert.mp hmem with heq | hmem
    · exact Std.LawfulEqOrd.eq_of_compare heq ▸ small
    · exact indexed.small other hmem

/-- The tags of spent outputs leave the index, one after another. -/
lemma inheritSpentLineage_mirrors {entries : List (OutPoint × TxOutput)} {tagged : TaggedOutputs}
    {root root' : Option UtxoLineageRoot} {state state' : LineageState}
    (mirrors : Mirrors tagged state)
    (same : ∀ entry ∈ entries, ∀ root output,
      tagged[entry.1]? = some (root, output) → output = entry.2)
    (h : (entries.foldlM inheritSpentLineage root) state = .ok root' state') :
    Mirrors (entries.foldl (fun tagged entry => tagged.erase entry.1) tagged) state'
      ∧ state'.utxos = state.utxos := by
  induction entries generalizing tagged root state with
  | nil =>
    obtain ⟨-, rfl⟩ := Mutate.pure_eq_ok.mp h
    exact ⟨mirrors, rfl⟩
  | cons entry entries ih =>
    obtain ⟨_, middle, hhead, htail⟩ := Mutate.foldlM_cons_eq_ok.mp h
    obtain ⟨_, hremove, -⟩ := inheritSpentLineage_eq_ok.mp hhead
    have hmirrors := (removeSpentOutputLineage_mirrors mirrors (same entry List.mem_cons_self)
      hremove).1
    obtain ⟨hrest, hutxos⟩ := ih hmirrors (fun other hother root output hentry => by
      rw [Std.ExtTreeMap.getElem?_erase] at hentry
      split at hentry
      · cases hentry
      · exact same other (List.mem_cons_of_mem _ hother) root output hentry) htail
    exact ⟨hrest, hutxos.trans (removeSpentOutputLineage_utxos hremove)⟩

/-- The outputs that a v2 transaction is about to spend are those that its outpoints name. -/
lemma spentOutputs_eq_ok {transaction : TransactionV2} {utxos : Utxos}
    {spent : List (OutPoint × TxOutput)} (h : spentOutputs transaction utxos = .ok spent) :
    spent.map Prod.fst = transactionV2Outpoints transaction
      ∧ ∀ entry ∈ spent, utxos[entry.1]? = some entry.2 := by
  rw [spentOutputs, Outcome.mapM_eq_ok] at h
  simp only [Outcome.bind_eq_ok, Outcome.ofOption_eq_ok, Outcome.pure_eq_ok] at h
  generalize transactionV2Outpoints transaction = outpoints at h
  induction h with
  | nil => exact ⟨rfl, by simp⟩
  | cons head _ ih =>
    obtain ⟨output, houtput, rfl⟩ := head
    refine ⟨by rw [List.map_cons, ih.1], ?_⟩
    intro entry hentry
    rcases List.mem_cons.mp hentry with rfl | hentry
    · exact houtput
    · exact ih.2 entry hentry

variable [Crypto]

/-- **Legacy transactions** keep the index. -/
theorem applyTransactionWithLineage_hasIndex {transaction : Transaction} {height : ℕ}
    {domain : Option TransactionSigningDomain} {state state' : LineageState} {u : Unit}
    (small : ∀ entry ∈ createdOutputs transaction, SmallName entry.1) (index : HasIndex state)
    (h : applyTransactionWithLineage transaction height domain state = .ok u state') :
    HasIndex state' := by
  obtain ⟨-, -, total, root, middle, hspent, -, -, hinsert⟩ :=
    applyTransactionWithLineage_eq_ok.mp h
  obtain ⟨locals, _, hloop, hresult⟩ := Mutate.bind_eq_ok.mp hspent
  obtain ⟨-, rfl⟩ := Mutate.pure_eq_ok.mp hresult
  have hmiddle := (Mutate.foldlM_run.mp hloop).invariant (fun s => HasIndex s.2)
    (fun _ _ _ ⟨_, indexed⟩ hround => ⟨_, spendInputWithLineage_indexed indexed hround⟩) index
  refine Mutate.forM_invariant HasIndex ?_ hmiddle hinsert
  rintro entry hentry before after ⟨_, indexed⟩ hround
  exact insertOutputWithLineage_indexed indexed (small entry hentry) hround

/-- **Transactions v2** keep the index: between the change of the outputs and the attachment of
the new tags, it mirrors the tagged outputs that are not spent. -/
theorem applyTransactionV2WithLineage_hasIndex {transaction : TransactionV2}
    {domain : TransactionV2Domain} {network : AddressNetwork} {verify : Bool}
    {state state' : LineageState} {u : Unit} (index : HasIndex state)
    (h : applyTransactionV2WithLineage transaction domain network verify state = .ok u state') :
    HasIndex state' := by
  obtain ⟨tagged, indexed⟩ := index
  obtain ⟨spent, utxos, root, untagged, hspent, happlied, hinherit, h⟩ :=
    applyTransactionV2WithLineage_eq_ok.mp h
  obtain ⟨houtpoints, hentries⟩ := spentOutputs_eq_ok hspent
  obtain ⟨id, taken, created, hid, howned, hcreated, hrun, -, -⟩ :=
    applyTransactionV2ToUtxos_effects happlied
  have hmirrors : Mirrors tagged { state with utxos := utxos } :=
    ⟨indexed.mirrors.tags, indexed.mirrors.values, indexed.mirrors.owners, indexed.mirrors.pruned⟩
  obtain ⟨huntagged, hutxos⟩ := inheritSpentLineage_mirrors hmirrors (fun entry hentry root output
      htagged => by
    have hunspent := indexed.unspent _ _ _ htagged
    rw [hentries entry hentry] at hunspent
    exact (Option.some.inj hunspent).symm) hinherit
  have hindexed : Indexed (spent.foldl (fun tagged entry => tagged.erase entry.1) tagged)
      untagged := by
    refine ⟨huntagged, ?_, ?_⟩
    · intro outpoint root output hentry
      obtain ⟨hbefore, hnotSpent⟩ := getElem?_foldl_erase hentry
      rw [hutxos]
      refine getElem?_of_run hrun (indexed.unspent _ _ _ hbefore) ?_
      rw [List.map_append, map_action_takesOf, map_action_putsOf, List.mem_append, not_or]
      refine ⟨?_, by simp⟩
      intro htaken
      obtain ⟨input, hinput, heq⟩ := List.mem_map.mp htaken
      refine hnotSpent ?_
      rw [houtpoints, ← transaction.ownedInputs_map_fst, ← howned.map_fst]
      obtain rfl : input.1 = outpoint := by simpa using heq
      exact List.mem_map_of_mem hinput
    · intro outpoint hmem
      obtain ⟨entry, hentry⟩ := Option.isSome_iff_exists.mp
        (Std.ExtTreeMap.mem_iff_isSome_getElem?.mp hmem)
      refine indexed.small outpoint ?_
      rw [Std.ExtTreeMap.mem_iff_isSome_getElem?, (getElem?_foldl_erase hentry).1]
      rfl
  cases root with
  | none =>
    obtain rfl : state' = untagged := h
    exact ⟨_, hindexed⟩
  | some root =>
    obtain ⟨id', hid', hattach⟩ := h
    refine Mutate.forM_invariant HasIndex ?_ ⟨_, hindexed⟩ hattach
    rintro ⟨output, position⟩ houtput before after ⟨_, hbefore⟩ hround
    obtain ⟨-, entry, hentry, hround⟩ := attachOutputV2_eq_ok.mp hround
    have hcount : transaction.outputs.length ≤ maxV2Outputs := by
      simp only [TransactionV2.transactionId, Outcome.bind_eq_ok] at hid'
      obtain ⟨bytes, hencode, -⟩ := hid'
      exact TransactionV2.outputs_length_le hencode
    have hposition := List.mem_zipIdx houtput
    exact attachExistingOutputLineage_indexed hbefore (.inr (by dsimp only; omega)) hentry hround

/-! ## The index of a reachable ledger -/

namespace Ledger

/-- An accepted block keeps the index: no reward is named like a tagged output. -/
theorem accepts_hasIndex {ledger ledger' : Ledger} {block : Block} {effects : BlockEffects}
    (accepts : ledger.Accepts block effects ledger') (index : HasIndex ledger.toLineageState) :
    HasIndex ledger'.toLineageState := by
  obtain ⟨nowMs, prechecked⟩ := accepts.prechecked
  obtain ⟨seen, middle, last, domain, staged⟩ := stageBlock_eq_ok.mp accepts.staged
  have hmiddle : HasIndex middle :=
    staged.transactions.invariant (fun s => HasIndex s.2) (fun _ _ _ hbefore hround => by
      obtain ⟨-, hterms, -, happlied, -⟩ := applyBlockTransaction_eq_ok.mp hround
      exact applyTransactionWithLineage_hasIndex (smallName_of_terms hterms) hbefore happlied)
      index
  obtain ⟨tagged, indexed⟩ : HasIndex last :=
    staged.envelopes.invariant (fun s => HasIndex s.2) (fun _ _ _ hbefore hround => by
      obtain ⟨_, _, _, -, -, -, -, -, happlied, -⟩ := applyBlockEnvelope_eq_ok.mp hround
      exact applyTransactionV2WithLineage_hasIndex hbefore happlied) hmiddle
  have hcredited := staged.credited
  simp only [creditRewardOutputs, Outcome.bind_eq_ok, Outcome.pure_eq_ok] at hcredited
  obtain ⟨_, -, hcredited⟩ := hcredited
  rw [accepts.lineageState, staged.lineage]
  refine ⟨tagged, ⟨indexed.mirrors.tags, indexed.mirrors.values, indexed.mirrors.owners,
    indexed.mirrors.pruned⟩, ?_, indexed.small⟩
  intro outpoint root output hentry
  rw [← hcredited]
  refine (getElem?_foldl_insert fun entry hreward heq => ?_).trans
    (indexed.unspent _ _ _ hentry)
  obtain ⟨htxid, hindex⟩ := rewardOutputs_names _ entry hreward
  have hsmall : SmallName outpoint := indexed.small outpoint (by
    rw [Std.ExtTreeMap.mem_iff_isSome_getElem?, hentry]
    rfl)
  rw [← heq] at hsmall
  rcases hsmall with hlength | hposition
  · rw [htxid, ← prechecked.hash, Block.computeHash_length] at hlength
    omega
  · omega

end Ledger

/-- The amount of an output that is tagged with a root. -/
def taggedWeight (utxoLineage : BTreeMap OutPoint UtxoLineageRoot) (root : UtxoLineageRoot)
    (outpoint : OutPoint) (output : TxOutput) : ℕ :=
  if utxoLineage[outpoint]? = some root then output.amount else 0

/-- The four maps agree. -/
structure LineageConsistent (state : LineageState) : Prop where
  unspent : ∀ outpoint ∈ state.utxoLineage, outpoint ∈ state.utxos
  values : ∀ root : UtxoLineageRoot,
    state.lineageValues[root]?.getD 0
      = MapSum.total (taggedWeight state.utxoLineage root) state.utxos
  owners : ∀ (root : UtxoLineageRoot) (owner : Str) (outpoint : OutPoint) (amount : Amount),
    (∃ owners outputs, state.lineageOwners[root]? = some owners ∧ owners[owner]? = some outputs
        ∧ outputs[outpoint]? = some amount) ↔
      state.utxoLineage[outpoint]? = some root
        ∧ state.utxos[outpoint]? = some { address := owner, amount := amount }
  owners_ne_empty : ∀ (root : UtxoLineageRoot) (owners : BTreeMap Str (BTreeMap OutPoint Amount)),
    state.lineageOwners[root]? = some owners → owners ≠ ∅
  outputs_ne_empty : ∀ (root : UtxoLineageRoot) (owners : BTreeMap Str (BTreeMap OutPoint Amount))
    (owner : Str) (outputs : BTreeMap OutPoint Amount),
    state.lineageOwners[root]? = some owners → owners[owner]? = some outputs → outputs ≠ ∅

omit [Crypto]

lemma ownedAmount_eq_some {lineageOwners : LineageOwnerValues} {root : UtxoLineageRoot}
    {owner : Str} {outpoint : OutPoint} {amount : Amount} :
    ownedAmount lineageOwners root owner outpoint = some amount ↔
      ∃ owners outputs, lineageOwners[root]? = some owners ∧ owners[owner]? = some outputs
        ∧ outputs[outpoint]? = some amount := by
  constructor
  · intro h
    have houtputs := Pruned.getElem?_of_under_ne (Pruned.under_ne_of_mem
      (Std.ExtTreeMap.mem_iff_isSome_getElem?.mpr (Option.isSome_of_eq_some h)))
    have howners := Pruned.getElem?_of_under_ne (Pruned.under_ne_of_mem
      (Std.ExtTreeMap.mem_iff_isSome_getElem?.mpr (Option.isSome_of_eq_some houtputs)))
    exact ⟨_, _, howners, houtputs, h⟩
  · rintro ⟨owners, outputs, howners, houtputs, h⟩
    rwa [ownedAmount, Pruned.under_of_some howners, Pruned.under_of_some houtputs]

/-- A tag that the index records is the tag of an unspent output. -/
lemma Indexed.getElem?_eq_some {tagged : TaggedOutputs} {state : LineageState}
    (indexed : Indexed tagged state) {outpoint : OutPoint} {root : UtxoLineageRoot}
    {output : TxOutput} :
    tagged[outpoint]? = some (root, output) ↔
      state.utxoLineage[outpoint]? = some root ∧ state.utxos[outpoint]? = some output := by
  constructor
  · intro h
    refine ⟨?_, indexed.unspent _ _ _ h⟩
    rw [indexed.mirrors.tags, h]
    rfl
  · rintro ⟨htag, hunspent⟩
    rw [indexed.mirrors.tags, Option.map_eq_some_iff] at htag
    obtain ⟨⟨root', output'⟩, hentry, rfl⟩ := htag
    rw [indexed.unspent _ _ _ hentry] at hunspent
    rw [hentry, Option.some.inj hunspent]

/-- **Agreement.** The maps of a state that has an index agree. -/
theorem HasIndex.consistent {state : LineageState} (index : HasIndex state) :
    LineageConsistent state := by
  obtain ⟨tagged, indexed⟩ := index
  refine ⟨?_, ?_, ?_, indexed.mirrors.pruned.1, ?_⟩
  · intro outpoint hmem
    rw [Std.ExtTreeMap.mem_iff_isSome_getElem?, indexed.mirrors.tags, Option.isSome_map,
      Option.isSome_iff_exists] at hmem
    obtain ⟨⟨root, output⟩, hentry⟩ := hmem
    rw [Std.ExtTreeMap.mem_iff_isSome_getElem?, indexed.unspent _ _ _ hentry]
    rfl
  · intro root
    rw [indexed.mirrors.values root]
    refine MapSum.total_eq_of_weightAt fun outpoint => ?_
    have htags := indexed.mirrors.tags outpoint
    cases hentry : tagged[outpoint]? with
    | none =>
      rw [hentry, Option.map_none] at htags
      have hweight (output : TxOutput) : taggedWeight state.utxoLineage root outpoint output = 0 := by
        rw [taggedWeight, htags, if_neg nofun]
      rw [MapSum.weightAt, MapSum.weightAt, hentry]
      cases state.utxos[outpoint]? with
      | none => rfl
      | some output => exact (hweight output).symm
    | some entry =>
      obtain ⟨root', output⟩ := entry
      rw [hentry, Option.map_some] at htags
      rw [MapSum.weightAt, MapSum.weightAt, hentry, indexed.unspent _ _ _ hentry]
      simp [rootWeight, taggedWeight, htags]
  · intro root owner outpoint amount
    rw [← ownedAmount_eq_some, indexed.mirrors.owners, indexed.getElem?_eq_some]
  · intro root owners owner outputs howners houtputs
    have hpruned := indexed.mirrors.pruned.2 root
    rw [Pruned.under_of_some howners] at hpruned
    exact hpruned owner outputs houtputs

/-- Where nothing is tagged the index is empty. -/
lemma hasIndex_of_untagged {state : LineageState} (tags : state.utxoLineage = ∅)
    (values : state.lineageValues = ∅) (owners : state.lineageOwners = ∅) : HasIndex state := by
  refine ⟨∅, ⟨fun outpoint => by simp [tags], fun root => by simp [values],
    fun root owner outpoint amount => by simp [owners, ownedAmount], ?_⟩, by simp, by simp⟩
  rw [owners]
  exact ⟨Pruned.isPruned_empty, fun root => by
    rw [Pruned.under_empty]
    exact Pruned.isPruned_empty⟩

namespace Ledger

variable [Crypto]

/-- Every reachable ledger has an index. -/
lemma reachable_hasIndex {ledger : Ledger} (reachable : Reachable ledger) :
    HasIndex ledger.toLineageState := by
  obtain ⟨genesis, events, initial, run⟩ := reachable
  refine run_track (fun _ ledger => HasIndex ledger.toLineageState) run ?_ ?_ ?_ ?_
  · obtain ⟨_, _, _, _, _, _, _, _, _, _, _, _, rfl⟩ := initial_eq initial
    exact hasIndex_of_untagged rfl rfl rfl
  · intro _ _ _ _ _ index accepts
    exact accepts_hasIndex accepts index
  · intro _ _ _ index
    exact index
  · intro _ ledger recentLimit index
    rwa [retainRecentChainBlocks_toLineageState]

/-- **Consistency of the lineage index.** In every reachable ledger the tagged outputs are unspent,
the value of a lineage is the sum of its outputs, the owner index lists exactly the tagged outputs
of each owner, and no map is kept empty. -/
theorem reachable_lineageConsistent {ledger : Ledger} (reachable : Reachable ledger) :
    LineageConsistent ledger.toLineageState :=
  (reachable_hasIndex reachable).consistent

end Ledger

end Iuna

namespace Iuna.Toy

attribute [local instance] crypto

/-- The index after two blocks with mine actions. -/
theorem reachable_lineageConsistent_coins : LineageConsistent coinLedger.toLineageState :=
  Ledger.reachable_lineageConsistent coinLedger_reachable

end Iuna.Toy
