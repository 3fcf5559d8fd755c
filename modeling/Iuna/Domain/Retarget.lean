import Iuna.Domain.Ticket

/-!
# Retargeting and mine policy

The VDF rounds of the next block follow the average time of the recent blocks that were finalized
at rank zero; the difficulty of mine actions follows the number of actions in windows of ten
blocks, and a block may carry only a few actions for one anchor.  This module is the retarget half
of `vdf/mod.rs` and `mine_policy.rs`.
-/

namespace Iuna

/-! ## VDF rounds -/

def minVdfRounds : ℕ := 1

def vdfRetargetWindowBlocks : ℕ := 20

def maxVdfRetargetStepPercent : ℕ := 2

def vdfRetargetDeadbandPercent : ℕ := 10

def minVdfRetargetObservedBlockMs : ℕ := vdfTargetBlockMs / 4

def maxVdfRetargetObservedBlockMs : ℕ := vdfTargetBlockMs * 4

/-- `Ord::clamp`. -/
def clamp (value low high : ℕ) : ℕ :=
  if value < low then low else if high < value then high else value

/-- `retarget_vdf_rounds`. -/
def retargetVdfRounds (currentRounds observedBlockMs : ℕ) : ℕ :=
  let observed := max observedBlockMs 1
  let deadband := vdfTargetBlockMs * vdfRetargetDeadbandPercent / 100
  if vdfTargetBlockMs - deadband ≤ observed ∧ observed ≤ vdfTargetBlockMs + deadband then
    currentRounds
  else
    let rawAdjusted := currentRounds * vdfTargetBlockMs / observed
    let maxStep := max (currentRounds * maxVdfRetargetStepPercent / 100) 1
    let minNext := max (currentRounds - maxStep) minVdfRounds
    let maxNext := min (currentRounds + maxStep) maxVdfRounds
    clamp rawAdjusted minNext maxNext

/-- `clamped_vdf_retarget_observed_block_ms`. -/
def clampedVdfRetargetObservedBlockMs (observedBlockMs : ℕ) : ℕ :=
  clamp observedBlockMs minVdfRetargetObservedBlockMs maxVdfRetargetObservedBlockMs

/-- `vdf_retarget_observed_block_ms`: only ticket blocks of rank zero are observed. -/
def vdfRetargetObservedBlockMs (parent child : Block) : Option ℕ :=
  if child.finalizerMode ≠ .ticket then none
  else if child.finalizerRank ≠ 0 then none
  else some (clampedVdfRetargetObservedBlockMs (child.timestampMs - parent.timestampMs))

/-- `average_vdf_retarget_observation`. -/
def averageVdfRetargetObservation (observations : List ℕ) : Option ℕ :=
  if 0 < observations.length then some (observations.sum / observations.length) else none

/-- `recent_vdf_retarget_average_observed_block_ms`. -/
def recentVdfRetargetAverageObservedBlockMs (chain : List Block) : Option ℕ :=
  let pairs := (chain.zip chain.tail).reverse.filter fun pair => 0 < pair.1.height
  averageVdfRetargetObservation
    ((pairs.filterMap fun pair => vdfRetargetObservedBlockMs pair.1 pair.2).take
      vdfRetargetWindowBlocks)

/-! ## Mine difficulty -/

def mineRetargetWindowBlocks : ℕ := 10

def mineMaxRetargetStepBits : ℕ := 2

def mineMinDifficultyBits : ℕ := 10

def mineMaxAnchorAgeBlocks : ℕ := mineRetargetWindowBlocks

def mineTargetActionsPerBlock : ℕ := 1

/-- The loop of `floor_log2_ratio`.  The threshold doubles, so the numerator bounds the number of
rounds. -/
def floorLog2Loop (numerator : ℕ) : ℕ → ℕ → ℕ → ℕ
  | 0, _, step => step
  | fuel + 1, threshold, step =>
    if threshold ≤ numerator / 2 then floorLog2Loop numerator fuel (threshold * 2) (step + 1)
    else step

/-- `floor_log2_ratio`. -/
def floorLog2Ratio (numerator denominator : ℕ) : ℕ :=
  if denominator = 0 ∨ numerator ≤ denominator then 0
  else floorLog2Loop numerator numerator denominator 0

/-- `retarget_mine_difficulty_bits`. -/
def retargetMineDifficultyBits (current mineActions : ℕ) : ℕ :=
  let target := mineRetargetWindowBlocks * mineTargetActionsPerBlock
  if target = 0 ∨ mineActions = target then max current mineMinDifficultyBits
  else
    let step :=
      if target < mineActions then min (floorLog2Ratio mineActions target) mineMaxRetargetStepBits
      else if mineActions = 0 then mineMaxRetargetStepBits
      else min (floorLog2Ratio target mineActions) mineMaxRetargetStepBits
    if step = 0 then max current mineMinDifficultyBits
    else if target < mineActions then max (min (current + step) u32Max) mineMinDifficultyBits
    else max (current - step) mineMinDifficultyBits

/-- `mine_difficulty_windows_for_chain`. -/
def mineDifficultyWindowsForChain (chain : List Block) (initialDifficulty anchorHeight : ℕ) :
    List ℕ :=
  let completedWindows := anchorHeight / mineRetargetWindowBlocks
  (List.range completedWindows).foldl (fun difficulties index =>
    let windowEnd := (index + 1) * mineRetargetWindowBlocks
    let windowStart := windowEnd + 1 - mineRetargetWindowBlocks
    let mineActions := ((chain.filter fun block =>
      windowStart ≤ block.height ∧ block.height ≤ windowEnd).map mineActionCount).sum
    difficulties ++
      [retargetMineDifficultyBits (difficulties.getLast?.getD initialDifficulty) mineActions])
    [initialDifficulty]

/-! ## Anchors of mine actions -/

/-- `mine_anchor`. -/
def mineAnchor : Transaction → Option Str
  | .mine _ anchor _ _ _ _ _ => some anchor
  | _ => none

/-- `ensure_mine_anchor_limit`. -/
def ensureMineAnchorLimit (transactions : List Transaction) : Result Unit :=
  let anchors := transactions.filterMap mineAnchor
  bailIf (anchors.any fun anchor => mineActionsPerAnchorLimit < anchors.count anchor)
    "block exceeds mine actions per anchor limit"

/-- `mine_anchor_count_before_height`. -/
def mineAnchorCountBeforeHeight (chain : List Block) (anchor : Str) (height : ℕ) : ℕ :=
  ((chain.takeWhile fun block => block.height ≤ height).map fun block =>
    block.transactions.countP fun transaction => mineAnchor transaction = some anchor).sum

end Iuna
