import Iuna.Properties.BurnLeaders
import Iuna.Properties.Replay

/-!
# The consensus caches

The difficulty windows and the retarget observations are kept along with the chain.  They are what
a scan of the complete chain computes (`Cached`), also while history is pruned: an appended block
completes at most one window and adds at most one observation, it does not change what the earlier
blocks say, and the blocks of its window are recent enough to be resident.
-/

namespace Iuna

open Mutate

/-! ## Observations of a chain -/

/-- Everything that is observed along a chain, oldest first. -/
def chainObservations (chain : List Block) : List ℕ :=
  ((chain.zip chain.tail).filter fun pair => 0 < pair.1.height).filterMap fun pair =>
    vdfRetargetObservedBlockMs pair.1 pair.2

/-- The observations that the retarget averages. -/
def observationWindow (observations : List ℕ) : List ℕ :=
  observations.drop (observations.length - vdfRetargetWindowBlocks)

lemma averageVdfRetargetObservation_reverse (observations : List ℕ) :
    averageVdfRetargetObservation observations.reverse
      = averageVdfRetargetObservation observations := by
  unfold averageVdfRetargetObservation
  rw [List.length_reverse, List.sum_reverse]

/-- The scan from the tip averages the last observations. -/
lemma recentAverage_eq (chain : List Block) :
    recentVdfRetargetAverageObservedBlockMs chain
      = averageVdfRetargetObservation (observationWindow (chainObservations chain)) := by
  unfold recentVdfRetargetAverageObservedBlockMs
  dsimp only
  rw [List.filter_reverse, List.filterMap_reverse, List.take_reverse,
    averageVdfRetargetObservation_reverse]
  rfl

/-- A window that slides along with a list. -/
lemma observationWindow_append (observations : List ℕ) (observed : ℕ) :
    observationWindow (observationWindow observations ++ [observed])
      = observationWindow (observations ++ [observed]) := by
  unfold observationWindow
  simp only [List.length_append, List.length_drop, List.length_singleton]
  by_cases hshort : observations.length ≤ vdfRetargetWindowBlocks
  · have hdrop : observations.length - vdfRetargetWindowBlocks = 0 := by omega
    rw [hdrop, List.drop_zero]
    simp
  · rw [← List.drop_append_of_le_length (by omega), List.drop_drop]
    congr 1
    omega

lemma zip_tail_append {chain : List Block} (nonempty : chain ≠ []) (block : Block) :
    (chain ++ [block]).zip (chain ++ [block]).tail
      = chain.zip chain.tail ++ [(chain.getLast nonempty, block)] := by
  induction chain with
  | nil => exact absurd rfl nonempty
  | cons first rest ih =>
    cases rest with
    | nil => rfl
    | cons second rest =>
      have hrest := ih (List.cons_ne_nil second rest)
      simp only [List.cons_append, List.tail_cons, List.zip_cons_cons, List.cons.injEq,
        true_and] at hrest ⊢
      rw [List.getLast_cons (List.cons_ne_nil second rest)]
      exact hrest

/-- What a block adds to the observations. -/
lemma chainObservations_append {chain : List Block} (nonempty : chain ≠ []) (block : Block) :
    chainObservations (chain ++ [block]) = chainObservations chain
      ++ (if 0 < (chain.getLast nonempty).height then
          (vdfRetargetObservedBlockMs (chain.getLast nonempty) block).toList else []) := by
  unfold chainObservations
  rw [zip_tail_append nonempty, List.filter_append, List.filterMap_append]
  congr 1
  by_cases hheight : 0 < (chain.getLast nonempty).height
  · rw [if_pos hheight, List.filter_cons_of_pos (by simpa using hheight)]
    cases hobserved : vdfRetargetObservedBlockMs (chain.getLast nonempty) block with
    | none => simp [hobserved]
    | some observed => simp [hobserved]
  · rw [if_neg hheight, List.filter_cons_of_neg (by simpa using hheight)]
    rfl

/-! ## Difficulty windows of a chain -/

/-- The mine actions of the blocks in one window. -/
def windowActions (chain : List Block) (index : ℕ) : ℕ :=
  let windowEnd := (index + 1) * mineRetargetWindowBlocks
  let windowStart := windowEnd + 1 - mineRetargetWindowBlocks
  ((chain.filter fun block =>
    windowStart ≤ block.height ∧ block.height ≤ windowEnd).map mineActionCount).sum

/-- The difficulties after a number of completed windows. -/
def difficultyWindows (chain : List Block) (initialDifficulty completedWindows : ℕ) : List ℕ :=
  (List.range completedWindows).foldl (fun difficulties index => difficulties ++
      [retargetMineDifficultyBits (difficulties.getLast?.getD initialDifficulty)
        (windowActions chain index)])
    [initialDifficulty]

lemma mineDifficultyWindowsForChain_eq (chain : List Block) (initialDifficulty anchorHeight : ℕ) :
    mineDifficultyWindowsForChain chain initialDifficulty anchorHeight
      = difficultyWindows chain initialDifficulty (anchorHeight / mineRetargetWindowBlocks) := rfl

lemma difficultyWindows_succ (chain : List Block) (initialDifficulty completedWindows : ℕ) :
    difficultyWindows chain initialDifficulty (completedWindows + 1)
      = difficultyWindows chain initialDifficulty completedWindows
        ++ [retargetMineDifficultyBits ((difficultyWindows chain initialDifficulty
          completedWindows).getLast?.getD initialDifficulty)
            (windowActions chain completedWindows)] := by
  unfold difficultyWindows
  rw [List.range_succ, List.foldl_append, List.foldl_cons, List.foldl_nil]

lemma difficultyWindows_length (chain : List Block) (initialDifficulty completedWindows : ℕ) :
    (difficultyWindows chain initialDifficulty completedWindows).length
      = completedWindows + 1 := by
  induction completedWindows with
  | zero => rfl
  | succ completedWindows ih =>
    rw [difficultyWindows_succ, List.length_append, ih, List.length_singleton]

/-- An earlier difficulty stays where it is. -/
lemma difficultyWindows_getElem? (chain : List Block) (initialDifficulty : ℕ) {earlier later : ℕ}
    (h : earlier ≤ later) : (difficultyWindows chain initialDifficulty later)[earlier]?
      = (difficultyWindows chain initialDifficulty earlier).getLast? := by
  induction later, h using Nat.le_induction with
  | base => rw [List.getLast?_eq_getElem?, difficultyWindows_length, Nat.add_sub_cancel]
  | succ later hle ih =>
    have hinside : earlier < (difficultyWindows chain initialDifficulty later).length := by
      rw [difficultyWindows_length]
      omega
    rw [difficultyWindows_succ, List.getElem?_append_left hinside, ih]

/-- Difficulties depend on the blocks of the completed windows. -/
lemma difficultyWindows_congr {chain chain' : List Block} (initialDifficulty : ℕ)
    {completedWindows : ℕ}
    (same : ∀ index < completedWindows, windowActions chain index = windowActions chain' index) :
    difficultyWindows chain initialDifficulty completedWindows
      = difficultyWindows chain' initialDifficulty completedWindows := by
  induction completedWindows with
  | zero => rfl
  | succ completedWindows ih =>
    rw [difficultyWindows_succ, difficultyWindows_succ,
      ih fun index hindex => same index (by omega), same completedWindows (by omega)]

/-- A higher block is in no completed window. -/
lemma windowActions_append {chain : List Block} {block : Block} {index : ℕ}
    (h : (index + 1) * mineRetargetWindowBlocks < block.height) :
    windowActions (chain ++ [block]) index = windowActions chain index := by
  unfold windowActions
  dsimp only
  rw [List.filter_append, List.filter_cons_of_neg, List.filter_nil, List.append_nil]
  simp only [decide_eq_true_eq, not_and, not_le]
  exact fun _ => h

/-- The blocks above a height are the rest of a complete chain. -/
lemma WholeChain.filter_above {history : List Block} (whole : WholeChain history) (height : ℕ) :
    history.filter (fun block => height < block.height) = history.drop (height + 1) := by
  conv_lhs => rw [← List.take_append_drop (height + 1) history]
  rw [List.filter_append, List.filter_eq_nil_iff.mpr, List.filter_eq_self.mpr, List.nil_append]
  · intro block hblock
    obtain ⟨index, hindex⟩ := List.mem_iff_getElem?.mp hblock
    rw [List.getElem?_drop] at hindex
    rw [whole.height _ _ hindex]
    exact decide_eq_true (by omega)
  · intro block hblock
    obtain ⟨index, hindex⟩ := List.mem_iff_getElem?.mp hblock
    obtain ⟨hinside, -⟩ := List.getElem?_eq_some_iff.mp hindex
    rw [List.length_take] at hinside
    rw [List.getElem?_take_of_lt (by omega)] at hindex
    rw [whole.height _ _ hindex, decide_eq_true_eq]
    omega

/-- The window that the tip completes consists of the last blocks. -/
lemma WholeChain.windowActions {history : List Block} (whole : WholeChain history) {tip : Block}
    (last : history.getLast? = some tip) {index : ℕ}
    (height : tip.height = (index + 1) * mineRetargetWindowBlocks) :
    Iuna.windowActions history index
      = ((history.reverse.take mineRetargetWindowBlocks).map mineActionCount).sum := by
  have hlength := whole.length last
  have hbelow : ∀ block ∈ history, block.height ≤ tip.height := by
    intro block hblock
    obtain ⟨hinside, -⟩ := List.getElem?_eq_some_iff.mp (whole.getElem?_height hblock)
    omega
  have hfilter : (history.filter fun block =>
      (index + 1) * mineRetargetWindowBlocks + 1 - mineRetargetWindowBlocks ≤ block.height
        ∧ block.height ≤ (index + 1) * mineRetargetWindowBlocks)
      = history.filter fun block => index * mineRetargetWindowBlocks < block.height := by
    apply List.filter_congr
    intro block hblock
    have hle := hbelow block hblock
    rw [height] at hle
    rw [decide_eq_decide]
    unfold mineRetargetWindowBlocks at hle ⊢
    omega
  unfold Iuna.windowActions
  dsimp only
  rw [hfilter, whole.filter_above, List.take_reverse, List.map_reverse, List.sum_reverse]
  congr 3
  unfold mineRetargetWindowBlocks at height ⊢
  omega

/-- The last blocks before and after the next one. -/
lemma take_reverse_append {resident history : List Block} {limit : ℕ}
    (recent : resident.reverse.take limit = history.reverse.take limit) (block : Block) :
    (resident ++ [block]).reverse.take limit = (history ++ [block]).reverse.take limit := by
  rw [List.reverse_append, List.reverse_append, List.reverse_singleton, List.singleton_append,
    List.singleton_append]
  cases limit with
  | zero => rfl
  | succ limit =>
    have hshorter := congrArg (List.take limit) recent
    rw [List.take_take, List.take_take, Nat.min_eq_left (Nat.le_succ limit)] at hshorter
    rw [List.take_succ_cons, List.take_succ_cons, hshorter]

namespace Ledger

variable [Crypto] {ledger ledger' : Ledger} {block : Block} {known : Block → Prop}
  {history : List Block} {keep : ℕ}

/-! ## The caches of a ledger -/

/-- The caches are what a complete chain gives, whose last blocks are resident. -/
structure Cached (known : Block → Prop) (ledger : Ledger) (history : List Block) : Prop where
  indexed : Indexed known ledger history
  windows : ledger.mineDifficultyWindows = mineDifficultyWindowsForChain history
    ledger.launchProfile.mineDifficultyBits ledger.height
  observations : ledger.vdfRetargetObservations = observationWindow (chainObservations history)
  recent : ledger.chain.reverse.take mineRetargetWindowBlocks
    = history.reverse.take mineRetargetWindowBlocks

/-- The windows after a block. -/
lemma Cached.pushBlock_windows (cached : Cached known ledger history)
    (height : block.height = ledger.tip.height + 1) (prevHash : block.prevHash = ledger.tip.hash) :
    (ledger.pushBlock block).updateMineDifficultyCacheAfterTip.mineDifficultyWindows
      = mineDifficultyWindowsForChain (history ++ [block])
        ledger.launchProfile.mineDifficultyBits block.height := by
  have whole := cached.indexed.toWholeChain.push cached.indexed.tip height prevHash
  have hprior : ledger.mineDifficultyWindows = difficultyWindows (history ++ [block])
      ledger.launchProfile.mineDifficultyBits (ledger.tip.height / mineRetargetWindowBlocks) := by
    rw [cached.windows, mineDifficultyWindowsForChain_eq]
    apply difficultyWindows_congr
    intro index hindex
    symm
    apply windowActions_append
    rw [height]
    unfold Ledger.height at hindex
    unfold mineRetargetWindowBlocks at hindex ⊢
    omega
  have hpushed : (ledger.pushBlock block).mineDifficultyWindows = ledger.mineDifficultyWindows := rfl
  rw [mineDifficultyWindowsForChain_eq]
  unfold updateMineDifficultyCacheAfterTip
  dsimp only
  rw [pushBlock_tip, hpushed]
  by_cases hinside : block.height = 0 ∨ block.height % mineRetargetWindowBlocks ≠ 0
  · have hsame : block.height / mineRetargetWindowBlocks
        = ledger.tip.height / mineRetargetWindowBlocks := by
      unfold mineRetargetWindowBlocks at hinside ⊢
      omega
    rw [if_pos hinside, hpushed, hprior, hsame]
  · have hnext : block.height / mineRetargetWindowBlocks
        = ledger.tip.height / mineRetargetWindowBlocks + 1 := by
      unfold mineRetargetWindowBlocks at hinside ⊢
      omega
    have hend : block.height
        = (ledger.tip.height / mineRetargetWindowBlocks + 1) * mineRetargetWindowBlocks := by
      unfold mineRetargetWindowBlocks at hinside ⊢
      omega
    have hroom : ¬ block.height / mineRetargetWindowBlocks + 1
        ≤ ledger.mineDifficultyWindows.length := by
      rw [hprior, difficultyWindows_length, hnext]
      omega
    have hactions := whole.windowActions List.getLast?_concat hend
    rw [← take_reverse_append cached.recent block] at hactions
    rw [if_neg hinside, if_neg hroom, hnext, difficultyWindows_succ, ← hprior]
    dsimp only
    rw [hactions]
    rfl

/-- The observations after a block. -/
lemma Cached.recorded_observations (cached : Cached known ledger history) :
    (ledger.recordVdfRetargetObservation block).vdfRetargetObservations
      = observationWindow (chainObservations (history ++ [block])) := by
  have hnonempty : history ≠ [] := by
    have hlength := cached.indexed.toWholeChain.length cached.indexed.tip
    exact List.ne_nil_of_length_pos (by omega)
  have htip : history.getLast hnonempty = ledger.tip := by
    have hlast := cached.indexed.tip
    rw [List.getLast?_eq_some_getLast hnonempty] at hlast
    exact Option.some.inj hlast
  rw [chainObservations_append hnonempty, htip]
  unfold recordVdfRetargetObservation
  by_cases hzero : ledger.tip.height = 0
  · rw [if_pos hzero, if_neg (by omega), List.append_nil, cached.observations]
  · rw [if_neg hzero, if_pos (by omega)]
    cases hobserved : vdfRetargetObservedBlockMs ledger.tip block with
    | none => simpa using cached.observations
    | some observed =>
      dsimp only
      rw [cached.observations]
      exact observationWindow_append _ _

/-- The commit of the next block keeps the caches. -/
lemma Cached.recordBlock (cached : Cached known ledger history) (isKnown : known block)
    (height : block.height = ledger.tip.height + 1) (prevHash : block.prevHash = ledger.tip.hash)
    {effects : BlockEffects} (tickets : ledger.ticketsAfterBlock block = .ok effects.tickets)
    (context : CompactBlockContext) :
    Cached known (ledger.recordBlock block effects context) (history ++ [block]) := by
  obtain ⟨_, _, _, _, hrecord⟩ := recordBlock_eq ledger block effects context
  have hchain : (ledger.recordBlock block effects context).chain = ledger.chain ++ [block] := by
    rw [hrecord]
    rfl
  have hprofile : (ledger.recordBlock block effects context).launchProfile
      = ledger.launchProfile := by
    rw [hrecord]
    rfl
  have htip : (ledger.recordBlock block effects context).height = block.height := by
    simp [Ledger.height, Ledger.tip, hchain]
  refine ⟨cached.indexed.recordBlock isKnown height prevHash tickets context, ?_, ?_, ?_⟩
  · rw [recordBlock_mineDifficultyWindows, hprofile, htip]
    exact cached.pushBlock_windows height prevHash
  · rw [recordBlock_vdfRetargetObservations]
    exact cached.recorded_observations
  · rw [hchain]
    exact take_reverse_append cached.recent block

/-! ## The ledgers of a node -/

/-- The caches are those of some complete chain. -/
def CachedChain (known : Block → Prop) (ledger : Ledger) : Prop :=
  ∃ history, Cached known ledger history

lemma Cached.withPools (cached : Cached known ledger history) (pools : Pools) :
    Cached known (ledger.withPools pools) history :=
  ⟨cached.indexed.withPools pools, cached.windows, cached.observations, cached.recent⟩

lemma Cached.withVdfRounds (cached : Cached known ledger history) (vdfRounds : ℕ) :
    Cached known { ledger with vdfRounds := vdfRounds } history :=
  ⟨cached.indexed.withVdfRounds vdfRounds, cached.windows, cached.observations, cached.recent⟩

/-- The application of a block keeps the caches, also when it fails. -/
lemma applyBlock_cached (isKnown : known block) (verifyVdf : Bool) (nowMs : ℕ) :
    Preserves (CachedChain known) (applyBlockWithVdfPolicy block verifyVdf nowMs) := by
  refine preserves_get_bind fun ledger cached => ?_
  refine holds_lift_bind cached fun isNew hprecheck => ?_
  cases isNew with
  | false => exact cached
  | true =>
    have hchecked := precheck_eq_ok_true.mp hprecheck
    rw [if_pos rfl]
    refine holds_lift_bind cached fun _ _ => ?_
    refine holds_lift_bind cached fun effects hstage => ?_
    refine holds_lift_bind cached fun context _ => ?_
    obtain ⟨_, _, _, _, staged⟩ := stageBlock_eq_ok.mp hstage
    have hrecorded : CachedChain known (ledger.recordBlock block effects context) := by
      obtain ⟨history, hcached⟩ := cached
      exact ⟨_, hcached.recordBlock isKnown hchecked.height hchecked.prevHash staged.tickets
        context⟩
    refine preserves_bind (preserves_set hrecorded) (fun _ => ?_) ledger cached
    refine preserves_get_bind fun recorded hrecorded => ?_
    have hzoom : Preserves (CachedChain known) (zoom Ledger.toPools withPools
        (recorded.refreshPools (block.transactions.map Transaction.signature))) :=
      preserves_zoom (I := fun _ => True) (fun _ _ => trivial) (fun _ _ => trivial)
        fun _ pools ⟨history, h⟩ _ => ⟨history, h.withPools pools⟩
    refine preserves_bind hzoom (fun _ => ?_) recorded hrecorded
    exact preserves_modify fun _ ⟨history, h⟩ => ⟨history, h.withVdfRounds _⟩

/-- A block of the store. -/
lemma Cached.applyTrusted (cached : Cached known ledger history) (isKnown : known block)
    (height : block.height = ledger.tip.height + 1) (prevHash : block.prevHash = ledger.tip.hash)
    (replayed : ledger.applyTrustedBlockAt block = .ok ledger') :
    Cached known ledger' (history ++ [block]) := by
  simp only [applyTrustedBlockAt, Outcome.bind_eq_ok, Outcome.pure_eq_ok] at replayed
  obtain ⟨effects, hstage, context, -, rfl⟩ := replayed
  simp only [stageTrustedBlock, Outcome.bind_eq_ok, Outcome.pure_eq_ok] at hstage
  obtain ⟨_, -, _, -, _, -, tickets, htickets, _, -, rfl⟩ := hstage
  exact (cached.recordBlock isKnown height prevHash htickets context).withVdfRounds _

/-- Pruning leaves the blocks of a window. -/
lemma Cached.retain (cached : Cached known ledger history) {recentLimit : ℕ}
    (keeps : mineRetargetWindowBlocks ≤ recentLimit) :
    Cached known (ledger.retainRecentChainBlocks recentLimit) history := by
  have hindexed := cached.indexed.retain recentLimit
  have htip := @retainRecentChainBlocks_tip ledger recentLimit
  unfold retainRecentChainBlocks at hindexed htip ⊢
  dsimp only at hindexed htip ⊢
  split at htip
  · rename_i hshort
    rw [if_pos hshort]
    exact cached
  · rename_i hlong
    rw [if_neg hlong] at hindexed ⊢
    refine ⟨hindexed, ?_, cached.observations, ?_⟩
    · rw [Ledger.height, htip]
      exact cached.windows
    · rw [← cached.recent, List.reverse_cons, List.take_append_of_le_length, List.reverse_drop,
        List.take_take]
      · congr 1
        omega
      · rw [List.length_reverse, List.length_drop]
        omega

/-- A restoration leaves the caches alone, and completes the chain or leaves that alone too. -/
lemma restorePrunedHistory_caches {complete : Ledger} {restored : Bool}
    (result : ledger.restorePrunedHistory complete = .ok (restored, ledger')) :
    ledger'.mineDifficultyWindows = ledger.mineDifficultyWindows
      ∧ ledger'.vdfRetargetObservations = ledger.vdfRetargetObservations
      ∧ ledger'.launchProfile = ledger.launchProfile
      ∧ (ledger'.chain = ledger.chain ∨ ledger'.historyPruned = false) := by
  unfold Ledger.restorePrunedHistory at result
  split at result
  · obtain ⟨-, rfl⟩ := Prod.mk.inj (Except.ok.inj result)
    exact ⟨rfl, rfl, rfl, .inl rfl⟩
  · simp only [Outcome.bind_eq_ok] at result
    obtain ⟨_, -, _, -, result⟩ := result
    split at result
    · obtain ⟨-, rfl⟩ := Prod.mk.inj (Except.ok.inj result)
      exact ⟨rfl, rfl, rfl, .inl rfl⟩
    · obtain ⟨rebuilt, -, result⟩ := Outcome.bind_eq_ok.mp result
      split at result
      · obtain ⟨-, rfl⟩ := Prod.mk.inj (Except.ok.inj result)
        exact ⟨rfl, rfl, rfl, .inl rfl⟩
      · obtain ⟨-, rfl⟩ := Prod.mk.inj (Except.ok.inj result)
        exact ⟨rfl, rfl, rfl, .inr rfl⟩

/-- Restored history is that of the caches. -/
lemma Cached.restorePrunedHistory
    (collisionFree : ∀ a b, known a → known b → a.hash = b.hash → a = b)
    (cached : Cached known ledger history) {complete : Ledger} {other : List Block}
    (copy : Indexed known complete other) (replays : ledger.ReplaysAbove complete) {restored : Bool}
    (result : ledger.restorePrunedHistory complete = .ok (restored, ledger')) :
    Cached known ledger' history := by
  have hindexed := cached.indexed.restorePrunedHistory collisionFree copy replays result
  obtain ⟨hwindows, hobservations, hprofile, hchain⟩ := restorePrunedHistory_caches result
  have htip : ledger'.tip = ledger.tip := Option.some.inj (hindexed.tip.symm.trans cached.indexed.tip)
  refine ⟨hindexed, ?_, hobservations.trans cached.observations, ?_⟩
  · rw [hwindows, hprofile, Ledger.height, htip]
    exact cached.windows
  · rcases hchain with hsame | hwhole
    · rw [hsame, cached.recent]
    · rw [hindexed.unpruned hwhole]

/-- The ledger on a genesis block. -/
lemma initial_cached (initial : Initial ledger) (isKnown : known ledger.genesis) (horizon : ℕ) :
    Cached known { ledger with ticketDrawHorizon := horizon } ledger.chain := by
  have hwindows : ledger.mineDifficultyWindows = mineDifficultyWindowsForChain ledger.chain
      ledger.launchProfile.mineDifficultyBits ledger.height := by
    have hlength := (initial_linked initial).length
    obtain ⟨_, _, _, _, _, _, _, _, -, -, -, -, rfl⟩ := initial_eq initial
    have hheight := Nat.succ.inj hlength
    rw [mineDifficultyWindowsForChain_eq, ← hheight]
    rfl
  refine ⟨initial_indexed initial isKnown horizon, hwindows, ?_, rfl⟩
  obtain ⟨_, _, _, _, _, _, _, _, -, -, -, -, rfl⟩ := initial_eq initial
  rfl

/-- Every ledger of a node has the caches of its complete chain. -/
lemma Maintained.cached (collisionFree : ∀ a b, known a → known b → a.hash = b.hash → a = b)
    (keeps : mineRetargetWindowBlocks ≤ keep) (maintained : Maintained known keep ledger) :
    CachedChain known ledger := by
  induction maintained with
  | initial initial isKnown horizon => exact ⟨_, initial_cached initial isKnown horizon⟩
  | applied _ block isKnown verifyVdf nowMs ih => exact applyBlock_cached isKnown verifyVdf nowMs _ ih
  | replayed _ isKnown height prevHash replayed ih =>
    obtain ⟨history, cached⟩ := ih
    exact ⟨_, cached.applyTrusted isKnown height prevHash replayed⟩
  | poolsChanged _ pools ih =>
    obtain ⟨history, cached⟩ := ih
    exact ⟨history, cached.withPools pools⟩
  | historyPruned _ recentLimit recent ih =>
    obtain ⟨history, cached⟩ := ih
    exact ⟨history, cached.retain (keeps.trans recent)⟩
  | historyRestored _ _ replays result ih ihCopy =>
    obtain ⟨history, cached⟩ := ih
    obtain ⟨other, copy⟩ := ihCopy
    exact ⟨history, cached.restorePrunedHistory collisionFree copy.indexed replays result⟩

/-- **The caches are exact.** Whatever blocks were applied, pruned, restored or replaced, a ledger
with its whole history serves every anchor height up to its tip with the difficulty that a scan of
the chain gives, and its observations average to what a scan of the chain averages.  A node prunes
down to the resident blocks, which are more than those of a window. -/
theorem caches_exact (collisionFree : ∀ a b, known a → known b → a.hash = b.hash → a = b)
    (maintained : Maintained known residentChainBlocks ledger)
    (unpruned : ledger.historyPruned = false) :
    (∀ anchorHeight ≤ ledger.height,
      ledger.mineDifficultyWindows[anchorHeight / mineRetargetWindowBlocks]?
          = some (ledger.mineDifficultyBitsForAnchorHeight anchorHeight)
        ∧ ledger.mineDifficultyBitsForAnchorHeight anchorHeight
          = (mineDifficultyWindowsForChain ledger.chain ledger.launchProfile.mineDifficultyBits
            anchorHeight).getLast?.getD ledger.launchProfile.mineDifficultyBits)
      ∧ averageVdfRetargetObservation ledger.vdfRetargetObservations
        = recentVdfRetargetAverageObservedBlockMs ledger.chain := by
  obtain ⟨history, cached⟩ := maintained.cached collisionFree (by decide)
  obtain rfl := cached.indexed.unpruned unpruned
  refine ⟨fun anchorHeight hbelow => ?_, ?_⟩
  · have hwindow : anchorHeight / mineRetargetWindowBlocks
        ≤ ledger.height / mineRetargetWindowBlocks := Nat.div_le_div_right hbelow
    have hserved : ledger.mineDifficultyWindows[anchorHeight / mineRetargetWindowBlocks]?
        = (mineDifficultyWindowsForChain ledger.chain ledger.launchProfile.mineDifficultyBits
          anchorHeight).getLast? := by
      rw [cached.windows]
      exact difficultyWindows_getElem? _ _ hwindow
    have hsome : mineDifficultyWindowsForChain ledger.chain
        ledger.launchProfile.mineDifficultyBits anchorHeight ≠ [] := by
      intro hnil
      have hlength := congrArg List.length hnil
      rw [mineDifficultyWindowsForChain_eq, difficultyWindows_length] at hlength
      cases hlength
    have hdifficulty := List.getLast?_eq_some_getLast hsome
    rw [hdifficulty] at hserved
    have hbits : ledger.mineDifficultyBitsForAnchorHeight anchorHeight
        = (mineDifficultyWindowsForChain ledger.chain ledger.launchProfile.mineDifficultyBits
          anchorHeight).getLast hsome := by
      unfold mineDifficultyBitsForAnchorHeight
      rw [hserved]
    rw [hserved, hbits, hdifficulty]
    exact ⟨rfl, rfl⟩
  · rw [recentAverage_eq, cached.observations]

end Ledger

namespace Toy

attribute [local instance] crypto

/-- The genesis block and those with mined coins. -/
def KnownCoins (candidate : Block) : Prop := candidate ∈ genesis.genesis :: coinBlocks

set_option maxRecDepth 10000 in
lemma coins_hashes : coins.toOption.any (fun mined =>
    decide ((genesis.genesis :: mined.1).map Block.hash).Nodup
      && decide (mined.2.historyPruned = false)) = true := by decide +kernel

lemma coinLedger_hashes : ((genesis.genesis :: coinBlocks).map Block.hash).Nodup
    ∧ coinLedger.historyPruned = false := by
  rw [coinBlocks, coinLedger]
  have hboth := Outcome.value_of_any coins_hashes coins_isOk
  rwa [Bool.and_eq_true, decide_eq_true_eq, decide_eq_true_eq] at hboth

lemma knownCoins_collisionFree (a b : Block) (ha : KnownCoins a) (hb : KnownCoins b)
    (hash : a.hash = b.hash) : a = b :=
  List.inj_on_of_nodup_map coinLedger_hashes.1 ha hb hash

lemma maintained_of_acceptEach {known : Block → Prop} {keep : ℕ} {builds : List (Ledger → Block)}
    {ledger : Ledger} (maintained : Ledger.Maintained known keep ledger)
    {result : List Block × Ledger} (accepted : Ledger.acceptEach builds ledger = .ok result)
    (areKnown : ∀ block ∈ result.1, known block) : Ledger.Maintained known keep result.2 := by
  induction builds generalizing ledger result with
  | nil =>
    simp only [Ledger.acceptEach, Outcome.pure_eq_ok] at accepted
    rw [← accepted]
    exact maintained
  | cons build builds ih =>
    simp only [Ledger.acceptEach, Outcome.bind_eq_ok, Outcome.bailIf_eq_ok,
      Outcome.pure_eq_ok] at accepted
    obtain ⟨⟨_, next⟩, happlied, _, -, rest, hrest, rfl⟩ := accepted
    obtain ⟨hfirst, hlater⟩ := List.forall_mem_cons.mp areKnown
    have hnext := maintained.applied (build ledger) hfirst true (build ledger).timestampMs
    have happlied : Ledger.applyBlockWithVdfPolicy (build ledger) true (build ledger).timestampMs
        ledger = .ok () next := Mutate.outcome_eq_ok.mp happlied
    rw [after_of_ok happlied] at hnext
    have hlast : Ledger.Maintained known keep rest.2 := ih hnext hrest hlater
    exact hlast

lemma coinLedger_maintained :
    Ledger.Maintained KnownCoins Ledger.residentChainBlocks coinLedger := by
  have accepted : Ledger.acceptEach [firstCoins, nextCoin] genesis
      = .ok (Outcome.value coins coins_isOk) := Outcome.eq_ok_value coins coins_isOk
  have areKnown : ∀ block ∈ (Outcome.value coins coins_isOk).1, KnownCoins block := by
    intro block hblock
    rw [KnownCoins, coinBlocks]
    exact List.mem_cons_of_mem _ hblock
  rw [coinLedger]
  exact maintained_of_acceptEach
    (Ledger.maintained_of_initial genesis_initial List.mem_cons_self) accepted areKnown

/-- The caches after two blocks with mine actions. -/
theorem coinLedger_caches_exact :
    (∀ anchorHeight ≤ coinLedger.height,
      coinLedger.mineDifficultyWindows[anchorHeight / mineRetargetWindowBlocks]?
          = some (coinLedger.mineDifficultyBitsForAnchorHeight anchorHeight)
        ∧ coinLedger.mineDifficultyBitsForAnchorHeight anchorHeight
          = (mineDifficultyWindowsForChain coinLedger.chain
            coinLedger.launchProfile.mineDifficultyBits
            anchorHeight).getLast?.getD coinLedger.launchProfile.mineDifficultyBits)
      ∧ averageVdfRetargetObservation coinLedger.vdfRetargetObservations
        = recentVdfRetargetAverageObservedBlockMs coinLedger.chain :=
  Ledger.caches_exact knownCoins_collisionFree coinLedger_maintained coinLedger_hashes.2

end Toy

end Iuna
