import Iuna.Properties.Finality
import Iuna.Properties.Identities
import Iuna.Properties.LineageIndex

/-!
# The burn committee

The committee of a ticket block is its finalizer, in slot zero, and up to four owners of eligible
tickets that are drawn by the value of the lineages they hold outputs of.  What a draw needs of the
candidates that remain (`Candidate`) is kept by every round: a root that is drawn is removed, an
owner that is drawn is skipped, and the representatives of the other roots are chosen again.
`committee_wellFormed` reads the lineage index back as the unspent outputs, which it lists exactly
in every reachable ledger.

An owner is compared by its identity (`committee_identity_for_lineage_owner`): from the activation
height on that of a hybrid address is the legacy owner that it was seen to be bound to.  The owners of
tickets are their own identities (`Iuna.Properties.Identities`), so that two members, or a member
and the finalizer, are never a hybrid address and the legacy owner it is bound to.
-/

namespace Iuna

open Runs

namespace Ledger

/-- An output of the lineage of a root is unspent, and its address has an identity. -/
def HoldsRoot (ledger : Ledger) (root : UtxoLineageRoot) (identity : Str) : Prop :=
  ∃ (outpoint : OutPoint) (output : TxOutput), ledger.utxoLineage[outpoint]? = some root ∧
    ledger.utxos[outpoint]? = some output ∧
    ledger.committeeIdentityForLineageOwner output.address = identity

/-- A root that is old enough for the next committee. -/
def MatureRoot (ledger : Ledger) (root : UtxoLineageRoot) : Prop :=
  saturatingAdd root.height ledger.launchProfile.burnLineageMaturityHeights ≤ ledger.tip.height

/-! ## Roots and their owners -/

variable {ledger : Ledger} {root : UtxoLineageRoot}

/-- The entries of the owner index are the unspent outputs of the lineage. -/
lemma holdsRoot_iff (consistent : LineageConsistent ledger.toLineageState) {identity : Str} :
    ledger.HoldsRoot root identity ↔
      ∃ owners owner outputs, ledger.lineageOwners[root]? = some owners ∧
        owners[owner]? = some outputs ∧
        ledger.committeeIdentityForLineageOwner owner = identity := by
  constructor
  · rintro ⟨outpoint, output, htag, hunspent, hidentity⟩
    obtain ⟨owners, outputs, howners, houtputs, -⟩ :=
      (consistent.owners root output.address outpoint output.amount).mpr ⟨htag, hunspent⟩
    exact ⟨owners, output.address, outputs, howners, houtputs, hidentity⟩
  · rintro ⟨owners, owner, outputs, howners, houtputs, hidentity⟩
    -- no list of outputs is kept empty
    have hne := consistent.outputs_ne_empty root owners owner outputs howners houtputs
    obtain ⟨⟨outpoint, amount⟩, hentry⟩ : ∃ entry, entry ∈ outputs.toList := by
      refine List.exists_mem_of_ne_nil _ fun hempty => hne ?_
      rw [← Std.ExtTreeMap.isEmpty_iff, ← Std.ExtTreeMap.isEmpty_toList, hempty]
      rfl
    rw [Std.ExtTreeMap.mem_toList_iff_getElem?_eq_some] at hentry
    obtain ⟨htag, hunspent⟩ :=
      (consistent.owners root owner outpoint amount).mp ⟨owners, outputs, howners, houtputs, hentry⟩
    exact ⟨outpoint, _, htag, hunspent, hidentity⟩

/-- The check for an owner of a root finds every holder. -/
lemma not_holdsRoot (consistent : LineageConsistent ledger.toLineageState) {owner : Str}
    (h : ledger.lineageRootHasOwner root owner = false) : ¬ ledger.HoldsRoot root owner := by
  rw [holdsRoot_iff consistent]
  rintro ⟨owners, holder, outputs, howners, houtputs, hidentity⟩
  have hne := consistent.outputs_ne_empty root owners holder outputs howners houtputs
  unfold lineageRootHasOwner at h
  rw [howners] at h
  dsimp only at h
  rw [List.any_eq_false] at h
  refine h (holder, outputs) (Std.ExtTreeMap.mem_toList_iff_getElem?_eq_some.mpr houtputs) ?_
  rw [decide_eq_true_eq]
  refine ⟨fun hempty => hne ?_, hidentity⟩
  exact Std.ExtTreeMap.isEmpty_iff.mp hempty

/-- A representative has an eligible ticket, is not skipped and holds an output of the root. -/
lemma representative_spec (consistent : LineageConsistent ledger.toLineageState)
    {skippedOwners eligibleTicketOwners : List Str} {owner : Str}
    (h : ledger.representativeOwnerForLineageRoot root skippedOwners eligibleTicketOwners
      = some owner) :
    owner ∈ eligibleTicketOwners ∧ owner ∉ skippedOwners ∧ ledger.HoldsRoot root owner := by
  simp only [representativeOwnerForLineageRoot, Option.bind_eq_bind, Option.bind_eq_some_iff,
    Option.pure_def, Option.some.injEq] at h
  obtain ⟨owners, howners, representative, hrepresentative, rfl⟩ := h
  obtain ⟨entry, hentry, hholder⟩ := List.mem_filterMap.mp (maxBy_mem hrepresentative)
  obtain ⟨output, -, hpair⟩ := Option.bind_eq_some_iff.mp hholder
  obtain rfl := Option.some.inj hpair
  obtain ⟨hlisted, hfilter⟩ := List.mem_filter.mp hentry
  simp only [decide_eq_true_eq] at hfilter
  refine ⟨hfilter.1, hfilter.2.1, ?_⟩
  rw [holdsRoot_iff consistent]
  exact ⟨owners, entry.1, entry.2, howners,
    Std.ExtTreeMap.mem_toList_iff_getElem?_eq_some.mp hlisted, rfl⟩

/-! ## Candidates -/

/-- What a candidate that remains is known to be: a mature root with its value, of which no
excluded owner holds an output, and a representative that may be drawn. -/
structure Candidate (ledger : Ledger) (excluded skippedOwners eligibleTicketOwners : List Str)
    (candidate : LineageCommitteeCandidate) : Prop where
  value : ledger.lineageValues[candidate.root]? = some candidate.value
  mature : ledger.MatureRoot candidate.root
  unrelated : ∀ owner ∈ excluded, ¬ ledger.HoldsRoot candidate.root owner
  eligible : candidate.owner ∈ eligibleTicketOwners
  unskipped : candidate.owner ∉ skippedOwners
  holds : ledger.HoldsRoot candidate.root candidate.owner

/-- A candidate whose representative is chosen again stays one. -/
lemma Candidate.withRepresentative (consistent : LineageConsistent ledger.toLineageState)
    {excluded skippedOwners skippedOwners' eligibleTicketOwners : List Str}
    {candidate represented : LineageCommitteeCandidate}
    (known : Candidate ledger excluded skippedOwners eligibleTicketOwners candidate)
    (h : ledger.withRepresentative skippedOwners' eligibleTicketOwners candidate
      = some represented) :
    represented.root = candidate.root ∧
      Candidate ledger excluded skippedOwners' eligibleTicketOwners represented := by
  simp only [Ledger.withRepresentative, Option.bind_eq_bind, Option.bind_eq_some_iff,
    Option.pure_def, Option.some.injEq] at h
  obtain ⟨owner, howner, rfl⟩ := h
  obtain ⟨heligible, hunskipped, hholds⟩ := representative_spec consistent howner
  exact ⟨rfl, known.value, known.mature, known.unrelated, heligible, hunskipped, hholds⟩

/-- What a partial function keeps of each element stays in the order of the elements. -/
lemma map_filterMap_sublist {α β γ : Type} {f : α → Option β} {g : β → γ} {g' : α → γ}
    (h : ∀ x y, f x = some y → g y = g' x) (xs : List α) :
    ((xs.filterMap f).map g).Sublist (xs.map g') := by
  induction xs with
  | nil => exact List.Sublist.refl _
  | cons x xs ih =>
    cases hx : f x with
    | none =>
      rw [List.filterMap_cons_none hx, List.map_cons]
      exact ih.cons _
    | some y =>
      rw [List.filterMap_cons_some hx, List.map_cons, List.map_cons, h x y hx]
      exact ih.cons_cons _

lemma withRepresentative_root {skippedOwners eligibleTicketOwners : List Str}
    {candidate represented : LineageCommitteeCandidate}
    (h : ledger.withRepresentative skippedOwners eligibleTicketOwners candidate
      = some represented) : represented.root = candidate.root := by
  simp only [Ledger.withRepresentative, Option.bind_eq_bind, Option.bind_eq_some_iff,
    Option.pure_def, Option.some.injEq] at h
  obtain ⟨owner, -, rfl⟩ := h
  rfl

/-- A root with a positive value is listed once among the eligible lineages. -/
lemma eligibleLineageCandidates_nodup (skippedOwners : List Str) :
    ((ledger.eligibleLineageCandidates skippedOwners).map
      LineageCommitteeCandidate.root).Nodup := by
  have hkeys : (ledger.lineageValues.toList.map Prod.fst).Nodup := by
    rw [Std.ExtTreeMap.map_fst_toList_eq_keys]
    exact Std.ExtTreeMap.nodup_keys
  unfold eligibleLineageCandidates
  refine List.Sublist.nodup ?_ hkeys
  refine (map_filterMap_sublist ?_ _).trans (List.filter_sublist.map _)
  intro entry candidate h
  dsimp only at h
  split at h
  · obtain rfl := Option.some.inj h
    rfl
  · cases h

lemma mem_eligibleLineageCandidates (consistent : LineageConsistent ledger.toLineageState)
    {skippedOwners : List Str} {candidate : LineageCommitteeCandidate}
    (h : candidate ∈ ledger.eligibleLineageCandidates skippedOwners) :
    ledger.lineageValues[candidate.root]? = some candidate.value ∧
      ledger.MatureRoot candidate.root ∧
      ∀ owner ∈ skippedOwners, ¬ ledger.HoldsRoot candidate.root owner := by
  unfold eligibleLineageCandidates at h
  obtain ⟨entry, hentry, hcandidate⟩ := List.mem_filterMap.mp h
  obtain ⟨hlisted, hmature⟩ := List.mem_filter.mp hentry
  simp only [decide_eq_true_eq, Bool.not_eq_true, List.any_eq_false] at hmature
  dsimp only at hcandidate
  split at hcandidate
  · obtain rfl := Option.some.inj hcandidate
    refine ⟨Std.ExtTreeMap.mem_toList_iff_getElem?_eq_some.mp hlisted, hmature.2.1, ?_⟩
    intro owner howner
    exact not_holdsRoot consistent (by simpa using hmature.2.2 owner howner)
  · cases hcandidate

/-- The first candidates. -/
lemma first_candidates (consistent : LineageConsistent ledger.toLineageState)
    {skippedOwners eligibleTicketOwners : List Str} {candidate : LineageCommitteeCandidate}
    (h : candidate ∈ (ledger.eligibleLineageCandidates skippedOwners).filterMap
      (ledger.withRepresentative skippedOwners eligibleTicketOwners)) :
    Candidate ledger skippedOwners skippedOwners eligibleTicketOwners candidate := by
  obtain ⟨eligible, heligible, hrepresented⟩ := List.mem_filterMap.mp h
  obtain ⟨hvalue, hmature, hunrelated⟩ := mem_eligibleLineageCandidates consistent heligible
  simp only [Ledger.withRepresentative, Option.bind_eq_bind, Option.bind_eq_some_iff,
    Option.pure_def, Option.some.injEq] at hrepresented
  obtain ⟨owner, howner, rfl⟩ := hrepresented
  obtain ⟨hticket, hunskipped, hholds⟩ := representative_spec consistent howner
  exact ⟨hvalue, hmature, hunrelated, hticket, hunskipped, hholds⟩

/-! ## The draw -/

/-- A member that is drawn for a root. -/
structure Drawn (ledger : Ledger) (excluded eligibleTicketOwners : List Str)
    (member : BurnCommitteeMember) (root : UtxoLineageRoot) : Prop where
  root_eq : member.root = root.outpoint.id
  weight : ledger.lineageValues[root]? = some member.weight
  mature : ledger.MatureRoot root
  unrelated : ∀ owner ∈ excluded, ¬ ledger.HoldsRoot root owner
  eligible : member.owner ∈ eligibleTicketOwners
  holds : ledger.HoldsRoot root member.owner

variable [Crypto]

/-- **The draw.** Members are drawn for different roots of the candidates, and their owners are
different and none that is skipped. -/
theorem drawCommittee_spec (consistent : LineageConsistent ledger.toLineageState) {height : ℕ}
    {excluded eligibleTicketOwners : List Str} {slots : List ℕ} {skippedOwners : List Str}
    {remaining : List LineageCommitteeCandidate}
    (known : ∀ candidate ∈ remaining,
      Candidate ledger excluded skippedOwners eligibleTicketOwners candidate)
    (distinct : (remaining.map LineageCommitteeCandidate.root).Nodup) :
    ∃ roots, List.Forall₂ (Drawn ledger excluded eligibleTicketOwners)
        (ledger.drawCommittee height eligibleTicketOwners slots skippedOwners remaining) roots ∧
      roots.Nodup ∧ (∀ root ∈ roots, root ∈ remaining.map LineageCommitteeCandidate.root) ∧
      ((ledger.drawCommittee height eligibleTicketOwners slots skippedOwners remaining).map
        BurnCommitteeMember.owner).Nodup := by
  induction slots generalizing skippedOwners remaining with
  | nil => exact ⟨[], .nil, List.nodup_nil, by simp, List.nodup_nil⟩
  | cons slot slots ih =>
    rw [drawCommittee]
    split
    · exact ⟨[], .nil, List.nodup_nil, by simp, List.nodup_nil⟩
    · rename_i hselected
      obtain ⟨index, -, hentry⟩ := Option.bind_eq_some_iff.mp hselected
      obtain ⟨selected, hindex, hpair⟩ := Option.map_eq_some_iff.mp hentry
      obtain ⟨rfl, rfl⟩ := Prod.mk.inj hpair
      have hmem := List.mem_of_getElem? hindex
      have hmember := known _ hmem
      dsimp only
      -- the candidates of the next round
      generalize hrest : ((remaining.eraseIdx index).filter fun candidate =>
        decide (candidate.root ≠ selected.root)) = rest
      have hrestMem : ∀ candidate ∈ rest, candidate ∈ remaining ∧ candidate.root ≠ selected.root := by
        intro candidate hcandidate
        rw [← hrest, List.mem_filter, decide_eq_true_eq] at hcandidate
        exact ⟨List.mem_of_mem_eraseIdx hcandidate.1, hcandidate.2⟩
      have hrestSublist : rest.Sublist remaining := by
        rw [← hrest]
        exact List.filter_sublist.trans (List.eraseIdx_sublist _ _)
      have hnextSublist : ((rest.filterMap (ledger.withRepresentative
          (selected.owner :: skippedOwners) eligibleTicketOwners)).map
          LineageCommitteeCandidate.root).Sublist (rest.map LineageCommitteeCandidate.root) :=
        map_filterMap_sublist (fun _ _ h => withRepresentative_root h) rest
      obtain ⟨roots, hdrawn, hroots, hsubset, howners⟩ := @ih (selected.owner :: skippedOwners)
        (rest.filterMap (ledger.withRepresentative (selected.owner :: skippedOwners)
          eligibleTicketOwners))
        (fun candidate hcandidate => by
          obtain ⟨before, hbefore, hrepresented⟩ := List.mem_filterMap.mp hcandidate
          exact ((known before (hrestMem before hbefore).1).withRepresentative consistent
            hrepresented).2)
        ((hnextSublist.trans (hrestSublist.map _)).nodup distinct)
      refine ⟨selected.root :: roots, .cons ?_ hdrawn, ?_, ?_, ?_⟩
      · exact ⟨rfl, hmember.value, hmember.mature, hmember.unrelated, hmember.eligible,
          hmember.holds⟩
      · rw [List.nodup_cons]
        refine ⟨fun hagain => ?_, hroots⟩
        obtain ⟨candidate, hcandidate, hsame⟩ :=
          List.mem_map.mp (hnextSublist.subset (hsubset _ hagain))
        exact (hrestMem candidate hcandidate).2 hsame
      · intro root hroot
        rcases List.mem_cons.mp hroot with rfl | hroot
        · exact List.mem_map.mpr ⟨_, hmem, rfl⟩
        · exact (hrestSublist.map _).subset (hnextSublist.subset (hsubset _ hroot))
      · rw [List.map_cons, List.nodup_cons]
        refine ⟨fun hagain => ?_, howners⟩
        obtain ⟨member, hdrawnAgain, hsame⟩ := List.mem_map.mp hagain
        have hunskipped := (mem_drawCommittee (fun candidate hcandidate => by
          obtain ⟨_, -, hrepresented⟩ := List.mem_filterMap.mp hcandidate
          exact withRepresentative_not_skipped hrepresented) hdrawnAgain).2
        rw [hsame] at hunskipped
        exact hunskipped List.mem_cons_self

/-- What the draws of a committee give, from the owners that are skipped at first. -/
lemma drawn_members (consistent : LineageConsistent ledger.toLineageState) (height : ℕ)
    (skippedOwners eligibleTicketOwners : List Str) {others : List BurnCommitteeMember}
    (draw : ledger.drawCommittee height eligibleTicketOwners (List.range' 1 (burnCommitteeSize - 1))
      skippedOwners ((ledger.eligibleLineageCandidates skippedOwners).filterMap
        (ledger.withRepresentative skippedOwners eligibleTicketOwners)) = others) :
    ∃ roots, List.Forall₂ (Drawn ledger skippedOwners eligibleTicketOwners) others roots ∧
      roots.Nodup ∧ (others.map BurnCommitteeMember.owner).Nodup ∧
      (∀ member ∈ others, member.owner ∉ skippedOwners) ∧
      others.map BurnCommitteeMember.slot = List.range' 1 others.length ∧
      others.length ≤ burnCommitteeSize - 1 := by
  have hcandidates : ∀ candidate ∈ (ledger.eligibleLineageCandidates skippedOwners).filterMap
      (ledger.withRepresentative skippedOwners eligibleTicketOwners),
      Candidate ledger skippedOwners skippedOwners eligibleTicketOwners candidate :=
    fun candidate hcandidate => first_candidates consistent hcandidate
  have hdistinct : (((ledger.eligibleLineageCandidates skippedOwners).filterMap
      (ledger.withRepresentative skippedOwners eligibleTicketOwners)).map
      LineageCommitteeCandidate.root).Nodup :=
    (map_filterMap_sublist (fun _ _ h => withRepresentative_root h) _).nodup
      (eligibleLineageCandidates_nodup skippedOwners)
  obtain ⟨roots, hdrawn, hroots, -, howners⟩ :=
    @drawCommittee_spec _ _ consistent height skippedOwners eligibleTicketOwners
      (List.range' 1 (burnCommitteeSize - 1)) skippedOwners _ hcandidates hdistinct
  have hslots := @drawCommittee_slots _ ledger height eligibleTicketOwners
    (List.range' 1 (burnCommitteeSize - 1)) skippedOwners
    ((ledger.eligibleLineageCandidates skippedOwners).filterMap
      (ledger.withRepresentative skippedOwners eligibleTicketOwners))
  rw [draw] at hdrawn howners hslots
  have hlength : others.length ≤ burnCommitteeSize - 1 := by
    have hprefix := hslots.length_le
    rwa [List.length_map, List.length_range'] at hprefix
  refine ⟨roots, hdrawn, hroots, howners, ?_, ?_, hlength⟩
  · intro member hmember
    rw [← draw] at hmember
    exact (mem_drawCommittee (fun candidate hcandidate =>
      (hcandidates candidate hcandidate).unskipped) hmember).2
  · have htake := List.prefix_iff_eq_take.mp hslots
    rw [List.length_map, List.take_range'_of_length_ge hlength] at htake
    exact htake

/-! ## The committee -/

/-- A member other than the finalizer: it owns a ticket that is eligible at the height, it holds an
output of a mature root, and neither is it one of the excluded owners nor do these hold an output of
the root. -/
structure ExtraMember (ledger : Ledger) (height : ℕ) (excluded : List Str)
    (member : BurnCommitteeMember) (root : UtxoLineageRoot) : Prop where
  root_eq : member.root = root.outpoint.id
  weight : ledger.lineageValues[root]? = some member.weight
  mature : ledger.MatureRoot root
  holds : ledger.HoldsRoot root member.owner
  ticket : ∃ ticket ∈ ledger.tickets, ticketIsEligibleForHeight ticket height = true ∧
    ticket.owner = member.owner
  not_excluded : ∀ owner ∈ excluded, member.owner ≠ owner ∧ ¬ ledger.HoldsRoot root owner

/-- A committee with its roots: the finalizer and the members drawn for the roots. -/
structure CommitteeWellFormed (ledger : Ledger) (height : ℕ) (finalizer : BurnTicket)
    (excluded : List Str) (committee : List BurnCommitteeMember) (roots : List UtxoLineageRoot) :
    Prop where
  finalizer_first : committee.head? = some
    { slot := 0, root := finalizer.id, owner := finalizer.owner, weight := finalizer.amount }
  slots : committee.map BurnCommitteeMember.slot = List.range committee.length
  size : committee.length ≤ burnCommitteeSize
  owners_nodup : (committee.map BurnCommitteeMember.owner).Nodup
  identities : ∀ owner, owner ∈ committee.map BurnCommitteeMember.owner ∨ owner ∈ excluded →
    ledger.committeeIdentityForLineageOwner owner = owner
  roots_nodup : roots.Nodup
  members : List.Forall₂ (ExtraMember ledger height excluded) committee.tail roots

/-- The owners of the finalizer's ticket and of the tickets that were ranked before it. -/
def excludedOwners (ledger : Ledger) (height finalizerRank : ℕ) : List Str :=
  ((rankedTicketsForHeight ledger.tip height ledger.tickets).take (finalizerRank + 1)).map
    BurnTicket.owner

end Ledger

end Iuna

namespace Iuna.Toy

attribute [local instance] crypto

/-- A second owner. -/
def partner : Str := repeatChar 'd' 64

/-- A burn of an allocation in the genesis block. -/
def genesisBurn (burner : Str) : Transaction :=
  .burn [⟨genesisAllocationOutpoint burner, burner, str "genesis"⟩]
    [⟨burner, allocation - microIuna⟩] microIuna 0 none
    (hexHash (colons [str "iuna-genesis-burn", burner]))

/-- A mine action on the genesis block of a ledger. -/
def minedFor (ledger : Ledger) (recipient : Str) (salt : ℕ) : Transaction :=
  let difficultyBits := ledger.launchProfile.mineDifficultyBits
  .mine recipient ledger.genesisHash salt 0 difficultyBits none
    ((mineSignature .legacy recipient ledger.genesisHash salt 0 difficultyBits).toOption.getD [])

/-- Two owners burn in the genesis block, and lineages need not mature. -/
def pairLaunch : Result Ledger :=
  Ledger.newWithGenesisTransactions (genesisAllocations.insert partner allocation)
    [genesisBurn owner, genesisBurn partner] 10
    { LaunchProfile.default with burnLineageMaturityHeights := 0 }

/-- The owner burns, recovers, and mines a coin for each of the two. -/
def pairBlock (ledger : Ledger) : Block :=
  ledger.recoveryBlock owner
    [signedBurn [⟨(genesisBurn owner).signature, 0⟩] [⟨owner, allocation - 2 * microIuna - 1⟩]
      microIuna 1, minedFor ledger owner 0, minedFor ledger partner 1] (1 + 2 * mineFinalizerFee)

def pairRun : Result (Ledger × List Block × Ledger) := do
  let start ← pairLaunch
  let (blocks, last) ← Ledger.acceptEach [pairBlock] start
  pure (start, blocks, last)

set_option maxRecDepth 10000 in
lemma pairRun_committee : pairRun.toOption.any (fun result =>
    decide ((result.2.2.burnCommitteeForTicketBlock 2 0).length = 2)) = true := by decide +kernel

lemma pairRun_isOk : pairRun.isOk = true := Outcome.isOk_of_any pairRun_committee

def pairLedger : Ledger := (Outcome.value pairRun pairRun_isOk).2.2

lemma pairRun_reachable {result : Ledger × List Block × Ledger} (h : pairRun = .ok result) :
    Ledger.Reachable result.2.2 := by
  simp only [pairRun, Outcome.bind_eq_ok, Outcome.pure_eq_ok] at h
  obtain ⟨start, hstart, ⟨blocks, last⟩, hrun, rfl⟩ := h
  exact ⟨start, _, .launch hstart, Ledger.run_of_acceptEach hrun⟩

lemma pairLedger_reachable : Ledger.Reachable pairLedger := by
  rw [pairLedger]
  exact pairRun_reachable (Outcome.eq_ok_value pairRun pairRun_isOk)

lemma pairLedger_committee : (pairLedger.burnCommitteeForTicketBlock 2 0).length = 2 := by
  rw [pairLedger]
  exact of_decide_eq_true (Outcome.value_of_any pairRun_committee pairRun_isOk)

end Iuna.Toy
