import Iuna.Adapters.Process
import Iuna.Library.Runs
import Iuna.Properties.Obtained
import Iuna.Properties.PoolUpdates

/-!
# Every adopted block carries a verified VDF

The ledger is extended through calls that skip the verification of the VDF.  What a node has
verified is therefore kept along with the work in flight (`Task.Sound`): a block that waits to be
applied has been verified, a ledger that waits to be imported was obtained from verified blocks,
and so was everything that was ever persisted and may serve as the base of a fork.
-/

namespace Iuna

open Mutate

section Processing

variable [Crypto] [SerdeJson] {network next : GossipNetwork} {produced : List Block}

/-- The block was produced locally, or its VDF output is valid. -/
def Verified (produced : List Block) (block : Block) : Prop :=
  block ∈ produced ∨ verifyVdf block.vdfSeed block.vdfRounds block.vdfOutput = true

/-- A ledger that was obtained from verified blocks. -/
def Ledger.FromVerified (produced : List Block) (ledger : Ledger) : Prop :=
  ledger.Obtained (Verified produced) (fun _ => False) 0

/-- What is known of a message in flight. -/
def Task.Sound (produced : List Block) : Task → Prop
  | .prechecked _ _ => True
  | .verified block _ => verifyVdf block.vdfSeed block.vdfRounds block.vdfOutput = true
  | .cloned clone _ _ => clone.FromVerified produced
  | .bootstrap _ _ _ _ _ => True
  | .validated ledger _ => ledger.FromVerified produced

namespace GossipNetwork

/-- The invariant of a node and its work. -/
structure Sound (network : GossipNetwork) : Prop where
  ledger : network.node.ledger.FromVerified network.produced
  tasks : ∀ task ∈ network.tasks, task.Sound network.produced
  persisted : ∀ block ∈ network.persisted, Verified network.produced block

/-- A node that starts on a genesis block. -/
structure Starts (network : GossipNetwork) : Prop where
  ledger : Ledger.Initial network.node.ledger
  tasks : network.tasks = []
  persisted : network.persisted = []

end GossipNetwork

/-! ## More blocks that are produced locally -/

omit [SerdeJson] in
lemma Verified.cons {block : Block} (verified : Verified produced block) (other : Block) :
    Verified (other :: produced) block :=
  verified.imp (List.mem_cons_of_mem other) id

omit [SerdeJson] in
lemma Ledger.FromVerified.cons {ledger : Ledger} (h : ledger.FromVerified produced)
    (block : Block) : ledger.FromVerified (block :: produced) :=
  h.mono (fun _ verified => verified.cons block) fun _ => id

omit [SerdeJson] in
lemma Task.Sound.cons {task : Task} (sound : task.Sound produced) (block : Block) :
    task.Sound (block :: produced) := by
  cases task with
  | prechecked => exact trivial
  | verified => exact sound
  | cloned => exact Ledger.FromVerified.cons sound block
  | bootstrap => exact trivial
  | validated => exact Ledger.FromVerified.cons sound block

/-! ## Ledgers in one step -/

omit [SerdeJson] in
/-- The base of a fork. -/
lemma FromVerified.loadBounded {header : ChainSnapshot} {genesisBlock : Block}
    {stored : List Block} {revalidationFromHeight : Option ℕ} {residentBlocks : ℕ}
    {ledger : Ledger} (verified : ∀ block ∈ stored, Verified produced block)
    (loaded : loadBoundedLedger header genesisBlock stored revalidationFromHeight residentBlocks
      = .ok ledger) : ledger.FromVerified produced := by
  simp only [loadBoundedLedger, Outcome.bind_eq_ok, Outcome.pure_eq_ok, Mutate.outcome_eq_ok,
    Prod.exists] at loaded
  obtain ⟨start, hstart, _, last, hblocks, rfl⟩ := loaded
  have hpreserves : Preserves (Ledger.FromVerified produced) (forM stored fun block => do
      Ledger.applyBlockWithVdfPolicy block (revalidationFromHeight.any fun height =>
        height ≤ block.height) u64Max
      modify fun ledger => ledger.retainRecentChainBlocks residentBlocks) := by
    refine preserves_forM fun block hmem => ?_
    refine preserves_bind (fun ledger h => ?_) fun _ => ?_
    · exact Ledger.Obtained.applied h block (verified block hmem) _ _
    · exact preserves_modify fun ledger h => Ledger.Obtained.historyPruned h residentBlocks (Nat.zero_le _)
  exact hpreserves.of_ok hblocks (Ledger.obtained_of_snapshot (by simp) hstart)

omit [SerdeJson] in
/-- A bootstrap is a genesis block. -/
lemma FromVerified.bootstrap {genesisAllocations : BTreeMap Str Amount} {vdfRounds : ℕ}
    {launchProfile : LaunchProfile} {genesisBlock : Block} {nowMs : ℕ} {ledger : Ledger}
    (validated : validateChainBootstrap genesisAllocations vdfRounds launchProfile genesisBlock
      nowMs = .ok ledger) : ledger.FromVerified produced :=
  Ledger.obtained_of_snapshot (by simp) validated

/-- A verified block leaves a ledger from verified blocks. -/
lemma receiveBlock_fromVerified {block : Block} (verified : Verified produced block)
    (verifyVdf : Bool) (nowMs : ℕ) : Preserves (fun node : Node => node.ledger.FromVerified produced)
      (Node.receiveBlock block verifyVdf nowMs) := by
  refine preserves_get_bind fun current hcurrent => ?_
  have hzoom : Preserves (fun node : Node => node.ledger.FromVerified produced)
      (zoom Node.ledger (fun node ledger => { node with ledger := ledger })
        (Ledger.applyBlockWithVdfPolicy block verifyVdf nowMs)) :=
    preserves_zoom (I := Ledger.FromVerified produced)
      (fun _ h => Ledger.Obtained.applied h block verified verifyVdf nowMs) (fun _ h => h)
      fun _ _ _ h => h
  refine preserves_bind hzoom (fun _ => preserves_modify fun node h => ?_) current hcurrent
  split
  · exact h
  · exact h

lemma FromVerified.applyVerified {node : Node} (h : node.ledger.FromVerified produced)
    {block : Block} (verified : Verified produced block) (baseTip : Str) (isCurrent : Bool)
    (nowMs : ℕ) :
    (node.applyVerified block baseTip isCurrent nowMs).ledger.FromVerified produced := by
  unfold Node.applyVerified
  split
  · exact receiveBlock_fromVerified verified false nowMs node h
  · exact h

lemma FromVerified.completePreparedBlock {node : Node} (h : node.ledger.FromVerified produced)
    (block : Block) (nowMs : ℕ) :
    (node.completePreparedBlock block nowMs).ledger.FromVerified (block :: produced) := by
  have happlied := Ledger.Obtained.applied (h.cons block) block (.inl List.mem_cons_self) false nowMs
  unfold Node.completePreparedBlock
  split
  · rename_i ledger hrun
    have hafter : after (Ledger.applyBlockWithVdfPolicy block false nowMs) node.ledger = ledger :=
      after_of_ok hrun
    rw [hafter] at happlied
    exact happlied
  · exact h.cons block

lemma FromVerified.importValidated {node : Node} {ledger : Ledger}
    (h : node.ledger.FromVerified produced) (validated : ledger.FromVerified produced)
    (baseTip : Str) (isCurrent : Bool) :
    (node.importValidated baseTip isCurrent (.ok ledger)).ledger.FromVerified produced := by
  rcases importValidated_ledger node baseTip isCurrent (.ok ledger) with
    ⟨other, hother, -, -, -, himported⟩ | ⟨-, himported⟩
  · rw [himported]
    exact Except.ok.inj hother ▸ validated
  · rw [himported]
    exact h

/-! ## Steps and runs -/

omit [SerdeJson] in
/-- The work that one step leaves alone. -/
lemma GossipNetwork.Sound.others (sound : network.Sound) {before rest : List Task} {task : Task}
    (tasks : network.tasks = before ++ task :: rest) :
    task.Sound network.produced ∧ ∀ other ∈ before ++ rest, other.Sound network.produced := by
  have hall := sound.tasks
  rw [tasks, List.forall_mem_append, List.forall_mem_cons] at hall
  exact ⟨hall.2.1, List.forall_mem_append.mpr ⟨hall.1, hall.2.2⟩⟩

omit [SerdeJson] in
/-- The task that one step replaces. -/
lemma GossipNetwork.Sound.replaced (sound : network.Sound) {before rest : List Task}
    {task task' : Task} (tasks : network.tasks = before ++ task :: rest)
    (h : task'.Sound network.produced) :
    ∀ other ∈ before ++ task' :: rest, other.Sound network.produced := by
  have hothers := List.forall_mem_append.mp (sound.others tasks).2
  exact List.forall_mem_append.mpr ⟨hothers.1, List.forall_mem_cons.mpr ⟨h, hothers.2⟩⟩

/-- Every step keeps the invariant. -/
lemma processStep_sound {event : ProcessEvent} (step : ProcessStep network event next)
    (sound : network.Sound) : next.Sound := by
  cases step with
  | blockPrechecked => exact ⟨sound.ledger, List.forall_mem_cons.mpr ⟨trivial, sound.tasks⟩,
      sound.persisted⟩
  | blockVerified tasks verified =>
    exact ⟨sound.ledger, sound.replaced tasks verified, sound.persisted⟩
  | blockApplied tasks isCurrent nowMs =>
    have hothers := sound.others tasks
    exact ⟨FromVerified.applyVerified sound.ledger (.inr hothers.1) _ isCurrent nowMs, hothers.2,
      sound.persisted⟩
  | pageCloned => exact ⟨sound.ledger, List.forall_mem_cons.mpr ⟨sound.ledger, sound.tasks⟩,
      sound.persisted⟩
  | pageValidated tasks base validated =>
    have hclone := (sound.others tasks).1
    refine ⟨sound.ledger, sound.replaced tasks ?_, sound.persisted⟩
    refine Ledger.Obtained.validateBlocksExtension hclone ?_ (fun _ => .inr) validated
    intro known hknown
    obtain ⟨_, _, stored, _, _, hstored, hloaded⟩ := base known hknown
    exact FromVerified.loadBounded
      (fun block hmem => sound.persisted block (hstored block hmem)) hloaded
  | bootstrapReceived => exact ⟨sound.ledger, List.forall_mem_cons.mpr ⟨trivial, sound.tasks⟩,
      sound.persisted⟩
  | bootstrapValidated tasks validated =>
    exact ⟨sound.ledger, sound.replaced tasks (FromVerified.bootstrap validated),
      sound.persisted⟩
  | ledgerImported tasks isCurrent =>
    have hothers := sound.others tasks
    exact ⟨FromVerified.importValidated sound.ledger hothers.1 _ isCurrent, hothers.2,
      sound.persisted⟩
  | taskDropped tasks => exact ⟨sound.ledger, (sound.others tasks).2, sound.persisted⟩
  | blockFinalized block nowMs =>
    exact ⟨FromVerified.completePreparedBlock sound.ledger block nowMs,
      fun task hmem => (sound.tasks task hmem).cons block,
      fun other hmem => (sound.persisted other hmem).cons block⟩
  | chainPersisted =>
    exact ⟨sound.ledger, sound.tasks, List.forall_mem_append.mpr ⟨sound.persisted,
      fun _ hmem => Ledger.Obtained.isAllowed_of_mem sound.ledger hmem⟩⟩
  | historyPruned recentLimit =>
    exact ⟨Ledger.Obtained.historyPruned sound.ledger recentLimit (Nat.zero_le _), sound.tasks, sound.persisted⟩
  | poolsChanged ledger =>
    refine ⟨?_, sound.tasks, sound.persisted⟩
    dsimp only
    rw [ledger]
    exact Ledger.Obtained.poolsChanged sound.ledger _

omit [SerdeJson] in
lemma GossipNetwork.Starts.sound (starts : network.Starts) : network.Sound := by
  refine ⟨.initial starts.ledger, ?_, ?_⟩
  · simp [starts.tasks]
  · simp [starts.persisted]

/-- **Every adopted block carries a verified VDF.** Whatever is in flight and in whichever order it
advances, a block of the node's chain behind the genesis block was produced locally, or its VDF
output is valid for its own seed and its own number of rounds; and these are the rounds that the
rules require on the ledger of its ancestors. -/
theorem adopted_vdf_verified {start : GossipNetwork} (starts : start.Starts)
    {events : List ProcessEvent} (run : Runs.Run ProcessStep start events network)
    {genesis block : Block} {ancestors descendants : List Block}
    (chain : network.node.ledger.chain = genesis :: (ancestors ++ block :: descendants)) :
    (block ∈ network.produced
        ∨ verifyVdf block.vdfSeed block.vdfRounds block.vdfOutput = true)
      ∧ ∃ (prior : Ledger) (pruned : List Block), prior.FromVerified network.produced
        ∧ prior.chain = genesis :: (pruned ++ ancestors)
        ∧ block.height = prior.tip.height + 1 ∧ block.prevHash = prior.tip.hash
        ∧ prior.expectedVdfRoundsForBlock block = .ok block.vdfRounds := by
  have sound : network.Sound := by
    refine run.invariant GossipNetwork.Sound ?_ starts.sound
    intro before event left hbefore step
    exact processStep_sound step hbefore
  have hsource := Ledger.Obtained.sourced sound.ledger chain
  obtain ⟨prior, pruned, _, hprior, hchain, hchecked⟩ := hsource.parent
  exact ⟨hsource.isAllowed, prior, pruned, hprior, hchain, hchecked.height, hchecked.prevHash,
    hchecked.vdfRounds⟩

/-- A node on its own: nothing is in flight, persisted or produced. -/
def GossipNetwork.idle (node : Node) : GossipNetwork where
  node := node
  tasks := []
  persisted := []
  produced := []

/-- A page that is validated and imported while nothing else happens. -/
lemma importedPage_run {node : Node} {blocks : List Block} {nowMs : ℕ} {ledger : Ledger}
    (validated : validateBlocksExtension none blocks nowMs node.ledger = .ok ledger) :
    Runs.Run ProcessStep (.idle node)
      [.pageCloned blocks, .pageValidated blocks, .ledgerImported]
      (.idle (node.importValidated node.ledger.tip.hash true (.ok ledger))) := by
  have hcloned : ProcessStep (.idle node) (.pageCloned blocks)
      { GossipNetwork.idle node with
        tasks := [.cloned node.ledger blocks node.ledger.tip.hash] } :=
    .pageCloned blocks
  have hvalidated : ProcessStep
      { GossipNetwork.idle node with
        tasks := [.cloned node.ledger blocks node.ledger.tip.hash] }
      (.pageValidated blocks)
      { GossipNetwork.idle node with tasks := [.validated ledger node.ledger.tip.hash] } :=
    @ProcessStep.pageValidated _ _ _ [] [] node.ledger ledger blocks node.ledger.tip.hash none
      nowMs rfl (fun _ h => by cases h) validated
  have himported : ProcessStep
      { GossipNetwork.idle node with tasks := [.validated ledger node.ledger.tip.hash] }
      .ledgerImported (.idle (node.importValidated node.ledger.tip.hash true (.ok ledger))) :=
    @ProcessStep.ledgerImported _ _ _ [] [] ledger node.ledger.tip.hash rfl true
  exact .cons hcloned (.cons hvalidated (.cons himported (.nil _)))

end Processing

namespace Toy

attribute [local instance] crypto emptyLines

/-- The network after a validated page has been imported. -/
def importedNetwork (base validated : Ledger) : GossipNetwork :=
  .idle ((quietNode base).importValidated base.tip.hash true (.ok validated))

lemma quietNode_starts {base : Ledger} (initial : Ledger.Initial base) :
    (GossipNetwork.idle (quietNode base)).Starts :=
  ⟨initial, rfl, rfl⟩

lemma importedNetwork_run {base validated : Ledger} {blocks : List Block} {nowMs : ℕ}
    (h : validateBlocksExtension none blocks nowMs base = .ok validated) :
    Runs.Run ProcessStep (.idle (quietNode base))
      [.pageCloned blocks, .pageValidated blocks, .ledgerImported]
      (importedNetwork base validated) :=
  importedPage_run h

lemma importedNetwork_ledger {base validated : Ledger} (genesisHash : validated.genesisHash
    = base.genesisHash) (height : base.height < validated.height) :
    (importedNetwork base validated).node.ledger = validated := by
  rcases importValidated_ledger (quietNode base) base.tip.hash true (.ok validated) with
    ⟨ledger, hvalidated, -, -, -, hledger⟩ | ⟨hnot, -⟩
  · exact hledger.trans (Except.ok.inj hvalidated).symm
  · refine absurd ⟨rfl, .inr ⟨genesisHash, height.le, fun hequal => ?_⟩⟩ (hnot validated rfl rfl rfl)
    exact absurd hequal height.ne'

set_option maxRecDepth 10000 in
lemma extended_chain : extended.chain = genesis.genesis :: ([] ++ block :: [])
    ∧ extended.genesisHash = genesis.genesisHash ∧ genesis.height < extended.height := by
  decide +kernel

/-- The first block has been verified. -/
theorem importedBlock_verified :
    (block ∈ (importedNetwork genesis extended).produced
        ∨ verifyVdf block.vdfSeed block.vdfRounds block.vdfOutput = true)
      ∧ ∃ (prior : Ledger) (pruned : List Block),
        prior.FromVerified (importedNetwork genesis extended).produced
        ∧ prior.chain = genesis.genesis :: (pruned ++ [])
        ∧ block.height = prior.tip.height + 1 ∧ block.prevHash = prior.tip.hash
        ∧ prior.expectedVdfRoundsForBlock block = .ok block.vdfRounds := by
  obtain ⟨hchain, hgenesis, hheight⟩ := extended_chain
  rw [← importedNetwork_ledger hgenesis hheight] at hchain
  exact adopted_vdf_verified (quietNode_starts genesis_initial)
    (importedNetwork_run extension_eq) hchain

end Toy

end Iuna
