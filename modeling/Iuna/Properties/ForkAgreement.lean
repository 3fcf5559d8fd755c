import Iuna.Adapters.Fetch
import Iuna.Properties.ForkChoice

/-!
# The two fork choices agree

`chooseFork` compares whole chains from their fork point on, `chooseForkWithLocalBlocks` compares
the candidate with stored local blocks from a common ancestor on, which may lie below the fork
point, and it sees pruned ledgers.  Both read the heights, the tips and the checkpoints; the leader
scores decide for chains of equal height only, and there the blocks between the two ancestors have
the same scores on both sides.
-/

namespace Iuna.Ledger

variable [Crypto] {ledger candidate : Ledger} {highest ancestor : ℕ}

omit [Crypto] in
/-- What a pruned ledger shares with the whole chain. -/
structure ViewOf (view whole : Ledger) : Prop where
  tip : view.tip = whole.tip
  checkpoint : view.objectiveFinalityCheckpoint = whole.objectiveFinalityCheckpoint

omit [Crypto] in
lemma ViewOf.height {view whole : Ledger} (isView : view.ViewOf whole) :
    view.height = whole.height :=
  congrArg Block.height isView.tip

omit [Crypto] in
/-- Pruning leaves a view of the chain. -/
lemma retainRecentChainBlocks_viewOf (ledger : Ledger) (recentLimit : ℕ) :
    (ledger.retainRecentChainBlocks recentLimit).ViewOf ledger where
  tip := retainRecentChainBlocks_tip ledger recentLimit
  checkpoint := by
    obtain ⟨_, _, _, h⟩ := @retainRecentChainBlocks_eq ledger recentLimit
    rw [h]

/-! ## The comparison of leader scores -/

/-- A common ancestor below another one. -/
lemma Linked.hash_eq_of_le (linkedLocal : ledger.Linked) (linkedRemote : candidate.Linked)
    (binds : HashBinds ledger candidate) (lower : ancestor ≤ highest)
    (hlocal : highest < ledger.chain.length) (hremote : highest < candidate.chain.length)
    (hash : ledger.chain[highest].hash = candidate.chain[highest].hash) :
    ledger.chain[ancestor].hash = candidate.chain[ancestor].hash := by
  induction highest, lower using Nat.le_induction with
  | base => exact hash
  | succ height hle ih =>
    have hparent := (binds _ (List.getElem_mem hlocal) _ (List.getElem_mem hremote) hash).1
    rw [linkedLocal.prevHash height hlocal, linkedRemote.prevHash height hremote] at hparent
    exact ih (by omega) (by omega) hparent

/-- The comparison of chains of equal height may start at any common ancestor. -/
lemma Linked.compareForkBlocks_of_common (linkedLocal : ledger.Linked)
    (linkedRemote : candidate.Linked) (binds : HashBinds ledger candidate)
    (heights : ledger.height = candidate.height) (hlocal : ancestor < ledger.chain.length)
    (hremote : ancestor < candidate.chain.length)
    (hash : ledger.chain[ancestor].hash = candidate.chain[ancestor].hash) :
    compareForkBlocks (ledger.forkBlocks ancestor) (candidate.forkBlocks ancestor)
      = .ofOrdering (List.compareLex LeaderScore.cmp ledger.scores candidate.scores) := by
  have hlength : ledger.chain.length = candidate.chain.length := by
    rw [linkedLocal.length, linkedRemote.length, heights]
  have hcommon := linkedLocal.common linkedRemote binds hlocal hremote hash
  rw [linkedLocal.forkBlocks, linkedRemote.forkBlocks, compareForkBlocks_eq (by simp [hlength])]
  congr 1
  unfold scores
  conv_rhs => rw [← List.take_append_drop (ancestor + 1) ledger.chain,
    ← List.take_append_drop (ancestor + 1) candidate.chain]
  rw [List.map_append, List.map_append, hcommon, compareLex_append]

/-! ## The decisions -/

/-- The two decisions on one ancestor. -/
lemma chooseForkWithLocalBlocks_eq {view remote : Ledger} {localBlocks : List Block}
    (localView : view.ViewOf ledger) (remoteView : remote.ViewOf candidate)
    (suffix : candidate.height = ledger.height → localBlocks = ledger.forkBlocks ancestor)
    (complete : remote.forkBlocks ancestor = candidate.forkBlocks ancestor) :
    view.chooseForkWithLocalBlocks remote ancestor localBlocks
      = ledger.chooseFork candidate ancestor := by
  unfold chooseForkWithLocalBlocks chooseFork chooseByHeightAndQuality
  rw [localView.height, remoteView.height, localView.tip, remoteView.tip, localView.checkpoint,
    remoteView.checkpoint, complete]
  dsimp only
  by_cases hhigher : ledger.height < candidate.height
  · cases objectiveFinalityQuality ledger.objectiveFinalityCheckpoint
        candidate.objectiveFinalityCheckpoint <;>
      simp only [if_pos hhigher]
  · by_cases hlower : candidate.height < ledger.height
    · cases objectiveFinalityQuality ledger.objectiveFinalityCheckpoint
          candidate.objectiveFinalityCheckpoint <;>
        simp only [if_neg hhigher, if_pos hlower]
    · rw [suffix (by omega)]
      rfl

/-- Among chains whose fork is under objective finality, the ancestor does not matter. -/
lemma chooseFork_of_lower (linkedLocal : ledger.Linked) (linkedRemote : candidate.Linked)
    (binds : HashBinds ledger candidate)
    (found : ledger.forkPointWithCandidate candidate = .ok highest) (lower : ancestor ≤ highest)
    (active : objectiveFinalityActivationHeight ≤ ancestor + 1) :
    ledger.chooseFork candidate ancestor = ledger.chooseFork candidate highest := by
  obtain ⟨hlocal, hremote, hhash⟩ := linkedLocal.forkPoint linkedRemote found
  have hchoice : ledger.chooseByHeightAndQuality candidate ancestor
      = ledger.chooseByHeightAndQuality candidate highest := by
    unfold chooseByHeightAndQuality
    by_cases hhigher : ledger.height < candidate.height
    · rw [if_pos hhigher, if_pos hhigher]
    · by_cases hlower : candidate.height < ledger.height
      · rw [if_neg hhigher, if_neg hhigher, if_pos hlower, if_pos hlower]
      · have heights : ledger.height = candidate.height := by omega
        have hlowerHash := linkedLocal.hash_eq_of_le linkedRemote binds lower hlocal hremote hhash
        have hquality : ledger.forkQuality candidate ancestor
            = ledger.forkQuality candidate highest := by
          unfold Ledger.forkQuality
          rw [linkedLocal.compareForkBlocks_of_common linkedRemote binds heights (by omega)
            (by omega) hlowerHash, linkedLocal.compareForkBlocks_of_common linkedRemote binds
            heights hlocal hremote hhash]
        rw [hquality]
  have hinactive : ¬ ancestor + 1 < objectiveFinalityActivationHeight := not_lt.mpr active
  have hinactiveHighest : ¬ highest + 1 < objectiveFinalityActivationHeight :=
    not_lt.mpr (active.trans (Nat.succ_le_succ lower))
  unfold chooseFork
  rw [if_neg hinactive, if_neg hinactiveHighest, hchoice]

/-- **The two fork choices agree**, also on pruned views of the chains: at the fork point, and at
any lower common ancestor whose first diverging height is under objective finality. -/
theorem forkChoices_agree {view remote : Ledger} {localBlocks : List Block}
    (linkedLocal : ledger.Linked) (linkedRemote : candidate.Linked)
    (binds : HashBinds ledger candidate)
    (found : ledger.forkPointWithCandidate candidate = .ok highest) (common : ancestor ≤ highest)
    (allowed : ancestor = highest ∨ objectiveFinalityActivationHeight ≤ ancestor + 1)
    (localView : view.ViewOf ledger) (remoteView : remote.ViewOf candidate)
    (suffix : candidate.height = ledger.height → localBlocks = ledger.forkBlocks ancestor)
    (complete : remote.forkBlocks ancestor = candidate.forkBlocks ancestor) :
    view.chooseForkWithLocalBlocks remote ancestor localBlocks
        = ledger.chooseFork candidate ancestor
      ∧ view.chooseForkWithLocalBlocks remote ancestor localBlocks
        = ledger.chooseFork candidate highest := by
  have hsame := chooseForkWithLocalBlocks_eq localView remoteView suffix complete
  refine ⟨hsame, ?_⟩
  rw [hsame]
  rcases allowed with rfl | active
  · rfl
  · exact chooseFork_of_lower linkedLocal linkedRemote binds found common active

end Iuna.Ledger

namespace Iuna.Toy

attribute [local instance] crypto

/-- A block on the genesis block makes a linked chain of two. -/
lemma linked_child {child : Block} {next : Ledger}
    (accepted : Ledger.Step genesis (.accepted child) next) :
    next.Linked ∧ next.chain = [genesis.genesis, child] := by
  obtain ⟨_, _, _, _, _, _, _, _, -, -, -, -, hinitial⟩ := Ledger.initial_eq genesis_initial
  have hchain : genesis.chain = [genesis.genesis] := by
    rw [hinitial]
    rfl
  obtain ⟨effects, accepts⟩ := Ledger.step_accepted accepted
  have hnext : next.chain = [genesis.genesis, child] := by
    rw [accepts.chain, hchain]
    rfl
  cases accepted with
  | accepted _ applied =>
    exact ⟨(Ledger.initial_linked genesis_initial).applied applied, hnext⟩

lemma rival_hashBinds : Ledger.HashBinds rival ledger := by
  obtain ⟨hblock, hrival, hapart⟩ := blocks_hash_ne
  intro x hx y hy hash
  rw [(linked_child rivalBlock_accepted).2] at hx
  rw [(linked_child block_accepted).2] at hy
  simp only [List.mem_cons, List.not_mem_nil, or_false] at hx hy
  rcases hx with hx | hx
  · rcases hy with hy | hy
    · rw [hx, hy]
      exact ⟨rfl, rfl⟩
    · rw [hx, hy] at hash
      exact absurd hash hblock
  · rcases hy with hy | hy
    · rw [hx, hy] at hash
      exact absurd hash.symm hrival
    · rw [hx, hy] at hash
      exact absurd hash hapart

/-- Two blocks on the genesis block: a node that keeps the last block of the one branch takes the
other branch as it would with its whole chain. -/
theorem forkChoices_agree_rival :
    (rival.retainRecentChainBlocks 1).chooseForkWithLocalBlocks ledger 0 [rivalBlock]
        = rival.chooseFork ledger 0
      ∧ (rival.retainRecentChainBlocks 1).chooseForkWithLocalBlocks ledger 0 [rivalBlock]
        = rival.chooseFork ledger 0 := by
  obtain ⟨linkedRival, hrival⟩ := linked_child rivalBlock_accepted
  obtain ⟨linked, hchain⟩ := linked_child block_accepted
  have hgenesis : rival.genesisHash = ledger.genesisHash := by
    simp only [Ledger.genesisHash, Ledger.genesis, hrival, hchain, List.head_cons]
  obtain ⟨height, found⟩ := linkedRival.exists_forkPoint linked hgenesis
  obtain ⟨hheight, _, hash⟩ := linkedRival.forkPoint linked found
  have hzero : height = 0 := by
    simp only [hrival, hchain] at hheight hash
    cases height with
    | zero => rfl
    | succ above =>
      obtain rfl : above = 0 := by
        simp only [List.length_cons, List.length_nil] at hheight
        omega
      exact absurd hash blocks_hash_ne.2.2
  subst hzero
  exact Ledger.forkChoices_agree linkedRival linked rival_hashBinds found le_rfl (.inl rfl)
    (Ledger.retainRecentChainBlocks_viewOf rival 1) ⟨rfl, rfl⟩
    (fun _ => by rw [linkedRival.forkBlocks, hrival]; rfl) rfl

end Iuna.Toy
