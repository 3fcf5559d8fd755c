import Iuna.Adapters.Fetch
import Iuna.Library.Preserve
import Iuna.Properties.ForkChoice

/-!
# The ledgers of a node

A node comes to its ledgers in a few ways: it applies blocks, it replays its own store, it rebuilds
a chain from a snapshot or extends a stored fork, its pools change, and it prunes.  `Obtained` says
so once, with the blocks that are applied and the blocks that are replayed without validation as
parameters; what holds of all these ledgers is proved by one induction.
-/

namespace Iuna

namespace Ledger

open Mutate

variable [Crypto] {ledger : Ledger}

/-- The ledgers that a node comes to have: from a genesis block by blocks, applied or replayed from
its own store, changes of the pools, and pruning down to a number of recent blocks.  With history
that was pruned and is restored they are the `Maintained` ones. -/
inductive Obtained (allowed trusted : Block → Prop) (keep : ℕ) : Ledger → Prop
  | initial {ledger : Ledger} (initial : Initial ledger) : Obtained allowed trusted keep ledger
  | applied {ledger : Ledger} (obtained : Obtained allowed trusted keep ledger) (block : Block)
      (isAllowed : allowed block) (verifyVdf : Bool) (nowMs : ℕ) :
      Obtained allowed trusted keep (after (applyBlockWithVdfPolicy block verifyVdf nowMs) ledger)
  | restored {ledger ledger' : Ledger} {block : Block}
      (obtained : Obtained allowed trusted keep ledger) (isTrusted : trusted block)
      (height : block.height = ledger.tip.height + 1) (prevHash : block.prevHash = ledger.tip.hash)
      (replayed : ledger.applyTrustedBlockAt block = .ok ledger') :
      Obtained allowed trusted keep ledger'
  | poolsChanged {ledger : Ledger} (obtained : Obtained allowed trusted keep ledger)
      (pools : Pools) : Obtained allowed trusted keep (ledger.withPools pools)
  | historyPruned {ledger : Ledger} (obtained : Obtained allowed trusted keep ledger)
      (recentLimit : ℕ) (keeps : keep ≤ recentLimit) :
      Obtained allowed trusted keep (ledger.retainRecentChainBlocks recentLimit)

variable {allowed trusted allowed' trusted' : Block → Prop} {keep : ℕ}

lemma Obtained.mono (obtained : Obtained allowed trusted keep ledger)
    (hallowed : ∀ block, allowed block → allowed' block)
    (htrusted : ∀ block, trusted block → trusted' block) : Obtained allowed' trusted' keep ledger := by
  induction obtained with
  | initial initial => exact .initial initial
  | applied _ block isAllowed verifyVdf nowMs ih =>
    exact ih.applied block (hallowed block isAllowed) verifyVdf nowMs
  | restored _ isTrusted height prevHash replayed ih =>
    exact ih.restored (htrusted _ isTrusted) height prevHash replayed
  | poolsChanged _ pools ih => exact ih.poolsChanged pools
  | historyPruned _ recentLimit keeps ih => exact ih.historyPruned recentLimit keeps

/-- Blocks applied one after the other. -/
lemma Obtained.applyAll (obtained : Obtained allowed trusted keep ledger) {blocks : List Block}
    (isAllowed : ∀ block ∈ blocks, allowed block) {verifyVdf : Bool} {nowMs : ℕ} {u : Unit}
    {ledger' : Ledger} (applied : forM blocks
      (fun block => applyBlockWithVdfPolicy block verifyVdf nowMs) ledger = .ok u ledger') :
    Obtained allowed trusted keep ledger' := by
  have hpreserves : Preserves (Obtained allowed trusted keep)
      (forM blocks fun block => applyBlockWithVdfPolicy block verifyVdf nowMs) :=
    preserves_forM fun block hmem ledger obtained =>
      obtained.applied block (isAllowed block hmem) verifyVdf nowMs
  exact hpreserves.of_ok applied obtained

/-- A ledger that is rebuilt from a snapshot. -/
lemma obtained_of_snapshot {snapshot : ChainSnapshot}
    (isAllowed : ∀ block ∈ snapshot.blocks.tail, allowed block) {verifyVdf : Bool} {nowMs : ℕ}
    (rebuilt : fromSnapshotWithVdfPolicy snapshot verifyVdf nowMs = .ok ledger) :
    Obtained allowed trusted keep ledger := by
  simp only [fromSnapshotWithVdfPolicy, Outcome.bind_eq_ok, Outcome.pure_eq_ok,
    Mutate.outcome_eq_ok, Prod.exists] at rebuilt
  obtain ⟨start, hstart, _, last, hblocks, rfl⟩ := rebuilt
  exact (Obtained.initial (.snapshot hstart)).applyAll isAllowed hblocks

lemma Obtained.replace {candidate : Ledger} (obtained : Obtained allowed trusted keep candidate)
    (ledger : Ledger) (staleBlocks : List Block) :
    Obtained allowed trusted keep (ledger.replaceWithBetterChain candidate staleBlocks) := by
  obtain ⟨pools, hpools⟩ := ledger.replaceWithBetterChain_eq candidate staleBlocks
  rw [hpools]
  exact obtained.poolsChanged pools

/-- A reorganization to a snapshot. -/
lemma Obtained.extendFromSnapshot (obtained : Obtained allowed trusted keep ledger)
    {snapshot : ChainSnapshot} (isAllowed : ∀ block ∈ snapshot.blocks.tail, allowed block)
    {verifyVdf : Bool} {nowMs : ℕ} {replaced : Bool} {ledger' : Ledger}
    (extended : ledger.extendFromSnapshotWithVdfPolicy snapshot verifyVdf nowMs
      = .ok (replaced, ledger')) : Obtained allowed trusted keep ledger' := by
  simp only [extendFromSnapshotWithVdfPolicy, Outcome.bind_eq_ok] at extended
  obtain ⟨_, -, candidate, hcandidate, hadopted⟩ := extended
  simp only [adoptCandidate, Outcome.bind_eq_ok] at hadopted
  obtain ⟨ancestor, -, hadopted⟩ := hadopted
  split at hadopted
  · simp only [Outcome.pure_eq_ok, Prod.mk.injEq] at hadopted
    exact hadopted.2 ▸ obtained
  · simp only [Outcome.pure_eq_ok, Prod.mk.injEq] at hadopted
    rw [← hadopted.2]
    exact (obtained_of_snapshot isAllowed hcandidate).replace ledger _

lemma Obtained.applyPreverifiedBlocks (obtained : Obtained allowed trusted keep ledger)
    {blocks : List Block} (isAllowed : ∀ block ∈ blocks, allowed block) {nowMs : ℕ}
    {extended : Ledger} (applied : Iuna.applyPreverifiedBlocks blocks nowMs ledger = .ok extended) :
    Obtained allowed trusted keep extended := by
  simp only [Iuna.applyPreverifiedBlocks, Outcome.bind_eq_ok, Mutate.outcome_eq_ok,
    Outcome.pure_eq_ok] at applied
  obtain ⟨⟨_, left⟩, hblocks, rfl⟩ := applied
  exact obtained.applyAll isAllowed hblocks

/-! ## Where the blocks come from -/

/-- The application of a block leaves the chain alone, or the block has passed the checks and is
the next one. -/
lemma applyBlock_after (ledger : Ledger) (block : Block) (verifyVdf : Bool) (nowMs : ℕ) :
    (after (applyBlockWithVdfPolicy block verifyVdf nowMs) ledger).chain = ledger.chain
      ∨ (after (applyBlockWithVdfPolicy block verifyVdf nowMs) ledger).chain
          = ledger.chain ++ [block] ∧ Prechecked ledger block nowMs := by
  let Grown (other : Ledger) : Prop := other.chain = ledger.chain
    ∨ other.chain = ledger.chain ++ [block] ∧ Prechecked ledger block nowMs
  have hstart : Grown ledger := .inl rfl
  suffices h : Grown (after (applyBlockWithVdfPolicy block verifyVdf nowMs) ledger) from h
  unfold applyBlockWithVdfPolicy
  rw [after_get_bind]
  refine holds_lift_bind hstart fun isNew hprecheck => ?_
  cases isNew with
  | false => exact hstart
  | true =>
    have hchecked := precheck_eq_ok_true.mp hprecheck
    refine preserves_ite (I := Grown) ?_ (preserves_pure _) ledger hstart
    refine preserves_bind (preserves_lift _) fun _ => ?_
    refine preserves_bind (preserves_lift _) fun effects => ?_
    refine preserves_bind (preserves_lift _) fun context => ?_
    have hrecord : Grown (ledger.recordBlock block effects context) := by
      obtain ⟨_, _, _, _, hrecord⟩ := recordBlock_eq ledger block effects context
      refine .inr ⟨?_, hchecked⟩
      rw [hrecord]
      rfl
    refine preserves_bind (preserves_set hrecord) fun _ => ?_
    refine preserves_get_bind fun recorded hrecorded => ?_
    have hzoom : Preserves Grown (zoom Ledger.toPools withPools
        (recorded.refreshPools (block.transactions.map Transaction.signature))) :=
      preserves_zoom (I := fun _ => True) (fun _ _ => trivial) (fun _ _ => trivial)
        fun _ _ h _ => h
    refine preserves_bind hzoom (fun _ => ?_) recorded hrecorded
    exact preserves_modify fun _ h => h

/-- What a block of an obtained chain has been: allowed, and the next one on a ledger that held its
ancestors, those that have been pruned since then included. -/
structure Sourced (allowed : Block → Prop) (keep : ℕ) (genesis : Block) (ancestors : List Block)
    (block : Block) : Prop where
  isAllowed : allowed block
  parent : ∃ prior pruned nowMs, Obtained allowed (fun _ => False) keep prior
    ∧ prior.chain = genesis :: (pruned ++ ancestors) ∧ Prechecked prior block nowMs

/-- Every block of an obtained chain but the first has its source. -/
lemma Obtained.sourced (obtained : Obtained allowed (fun _ => False) keep ledger) {genesis : Block}
    {ancestors descendants : List Block} {block : Block}
    (chain : ledger.chain = genesis :: (ancestors ++ block :: descendants)) :
    Sourced allowed keep genesis ancestors block := by
  induction obtained generalizing ancestors descendants with
  | initial initial =>
    obtain ⟨_, _, _, _, _, _, _, _, -, -, -, -, rfl⟩ := initial_eq initial
    simp [atGenesis] at chain
  | @applied before obtained applied isAllowed verifyVdf nowMs ih =>
    rcases applyBlock_after before applied verifyVdf nowMs with hsame | ⟨hpushed, hchecked⟩
    · rw [hsame] at chain
      exact ih chain
    · rw [hpushed, ← List.cons_append] at chain
      rcases List.eq_nil_or_concat descendants with rfl | ⟨front, last, rfl⟩
      · obtain ⟨hancestors, hblock⟩ := List.append_inj' chain rfl
        obtain rfl := List.cons.inj hblock |>.1
        exact ⟨isAllowed, before, [], nowMs, obtained, hancestors, hchecked⟩
      · rw [List.concat_eq_append, ← List.cons_append, ← List.append_assoc] at chain
        exact ih (List.append_inj' chain rfl).1
  | restored _ isTrusted => exact isTrusted.elim
  | poolsChanged _ _ ih => exact ih chain
  | @historyPruned before _ recentLimit _ ih =>
    unfold retainRecentChainBlocks at chain
    dsimp only at chain
    split at chain
    · exact ih chain
    · rename_i hlong
      obtain ⟨rfl, hrest⟩ := List.cons.inj chain
      obtain ⟨kept, hkept⟩ : ∃ kept, before.chain.length - max recentLimit 1 = kept + 1 :=
        ⟨before.chain.length - max recentLimit 1 - 1, by omega⟩
      have hdrop : before.chain.tail.drop kept = ancestors ++ block :: descendants := by
        rw [← hrest, hkept, ← List.drop_one, List.drop_drop, Nat.add_comm]
      have hwhole : before.chain
          = before.genesis :: ((before.chain.tail.take kept ++ ancestors)
            ++ block :: descendants) := by
        rw [List.append_assoc, ← hdrop, List.take_append_drop]
        exact (List.cons_head_tail before.chainNonempty).symm
      have hsource := ih hwhole
      obtain ⟨prior, pruned, priorNowMs, hobtained, hchain, hchecked⟩ := hsource.parent
      rw [← List.append_assoc] at hchain
      exact ⟨hsource.isAllowed, prior, _, priorNowMs, hobtained, hchain, hchecked⟩

lemma Obtained.isAllowed_of_mem (obtained : Obtained allowed (fun _ => False) keep ledger)
    {block : Block} (mem : block ∈ ledger.chain.tail) : allowed block := by
  obtain ⟨ancestors, descendants, htail⟩ := List.append_of_mem mem
  have hchain : ledger.chain = ledger.genesis :: (ancestors ++ block :: descendants) := by
    rw [← htail]
    exact (List.cons_head_tail ledger.chainNonempty).symm
  exact (obtained.sourced hchain).isAllowed

/-- What a validated page has proved of its blocks. -/
lemma verified_of_verifyBlockVdfs {blocks : List Block} (h : verifyBlockVdfs blocks = .ok ())
    {block : Block} (mem : block ∈ blocks) :
    verifyVdf block.vdfSeed block.vdfRounds block.vdfOutput = true := by
  rw [verifyBlockVdfs, Outcome.bailIf_eq_ok, List.any_eq_true, not_exists] at h
  by_contra hinvalid
  exact h block ⟨mem, by simpa using hinvalid⟩

/-- A page of blocks with valid proofs that extends the tip or a stored fork. -/
lemma Obtained.validateBlocksExtension (obtained : Obtained allowed (fun _ => False) keep ledger)
    {forkBase : Option PersistedForkBase} (base : ∀ known, forkBase = some known →
      Obtained allowed (fun _ => False) keep known.ledger)
    (verified : ∀ block : Block, verifyVdf block.vdfSeed block.vdfRounds block.vdfOutput = true →
      allowed block) {blocks : List Block} {nowMs : ℕ} {validated : Ledger}
    (h : Iuna.validateBlocksExtension forkBase blocks nowMs ledger = .ok validated) :
    Obtained allowed (fun _ => False) keep validated := by
  cases blocks with
  | nil =>
    simp only [Iuna.validateBlocksExtension, Outcome.pure_eq_ok] at h
    exact h ▸ obtained
  | cons first rest =>
    unfold Iuna.validateBlocksExtension at h
    dsimp only at h
    split at h
    · simp only [Outcome.bind_eq_ok, Outcome.pure_eq_ok] at h
      obtain ⟨extended, happlied, ⟨⟩, hvdfs, rfl⟩ := h
      exact obtained.applyPreverifiedBlocks
        (fun block hmem => verified block (verified_of_verifyBlockVdfs hvdfs hmem)) happlied
    · cases forkBase with
      | some known =>
        simp only [Outcome.bind_eq_ok, Outcome.pure_eq_ok] at h
        obtain ⟨_, -, candidate, happlied, ⟨⟩, hvdfs, ⟨replaced, adopted⟩, hadopted, rfl⟩ := h
        have hcandidate := (base known rfl).applyPreverifiedBlocks
          (fun block hmem => verified block (verified_of_verifyBlockVdfs hvdfs hmem)) happlied
        simp only [adoptPrevalidatedFork, Outcome.bind_eq_ok] at hadopted
        obtain ⟨_, -, ancestor, -, _, -, _, -, hadopted⟩ := hadopted
        split at hadopted
        · simp only [Outcome.pure_eq_ok, Prod.mk.injEq] at hadopted
          exact hadopted.2 ▸ obtained
        · simp only [Outcome.pure_eq_ok, Prod.mk.injEq] at hadopted
          rw [← hadopted.2]
          exact hcandidate.replace ledger _
      | none =>
        simp only [Outcome.bind_eq_ok, Outcome.pure_eq_ok] at h
        obtain ⟨position, -, ⟨replaced, extended⟩, hextended, ⟨⟩, hvdfs, rfl⟩ := h
        refine obtained.extendFromSnapshot (fun block hmem => ?_) hextended
        have hprefix : (ledger.chain.take (position + 1) ++ first :: rest).tail
            = (ledger.chain.take (position + 1)).tail ++ first :: rest := by
          apply List.tail_append_of_ne_nil
          rw [Ne, List.take_eq_nil_iff, not_or]
          exact ⟨by omega, ledger.chainNonempty⟩
        rw [Ledger.snapshot, hprefix, List.mem_append] at hmem
        rcases hmem with hown | hpage
        · rw [← List.drop_one, List.drop_take, List.drop_one] at hown
          exact obtained.isAllowed_of_mem (List.mem_of_mem_take hown)
        · exact verified block (verified_of_verifyBlockVdfs hvdfs hpage)

end Ledger

end Iuna
