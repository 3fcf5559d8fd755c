import Iuna.Properties.Redating
import Iuna.Properties.Replay
import Iuna.Properties.Timing
import Mathlib.Algebra.Order.BigOperators.Group.List

/-!
# VDF rounds along a chain

The retarget of the VDF rounds clamps the ratio of the target and the observed time between two
bounds around the current rounds, so every property of it is one of the clamp
(`retargetVdfRounds_le`, `le_retargetVdfRounds`, `retargetVdfRounds_antitone`).

For the width of the integers the retarget is stated a second time, with every multiplication,
division, subtraction, clamp and cast of the source checked (`retargetVdfRoundsChecked` and its
neighbours).  Along a run the checked functions give the results of the plain ones: an accepted
block has at most the maximal rounds, and an observation is a clamped difference of ordered times.
-/

namespace Iuna

/-! ## The clamp -/

lemma le_clamp {value low high : ℕ} (ordered : low ≤ high) : low ≤ clamp value low high := by
  unfold clamp
  split
  · exact le_rfl
  · split
    · exact ordered
    · omega

lemma clamp_le {value low high : ℕ} (ordered : low ≤ high) : clamp value low high ≤ high := by
  unfold clamp
  split
  · exact ordered
  · split
    · exact le_rfl
    · omega

lemma clamp_mono {value value' low high : ℕ} (le : value ≤ value') (ordered : low ≤ high) :
    clamp value low high ≤ clamp value' low high := by
  unfold clamp
  repeat' split
  all_goals omega

lemma clamp_le_of_le {value low high bound : ℕ} (hvalue : value ≤ bound) (hlow : low ≤ bound) :
    clamp value low high ≤ bound := by
  unfold clamp
  split
  · exact hlow
  · split
    · omega
    · exact hvalue

lemma le_clamp_of_le {value low high bound : ℕ} (hvalue : bound ≤ value) (hhigh : bound ≤ high) :
    bound ≤ clamp value low high := by
  unfold clamp
  split
  · omega
  · split
    · exact hhigh
    · exact hvalue

/-! ## One retarget -/

/-- The observed times for which the rounds stay as they are. -/
def InDeadband (observedBlockMs : ℕ) : Prop :=
  let deadband := vdfTargetBlockMs * vdfRetargetDeadbandPercent / 100
  vdfTargetBlockMs - deadband ≤ max observedBlockMs 1 ∧
    max observedBlockMs 1 ≤ vdfTargetBlockMs + deadband

instance (observedBlockMs : ℕ) : Decidable (InDeadband observedBlockMs) :=
  inferInstanceAs (Decidable (_ ∧ _))

/-- The most that one retarget changes the rounds by: two percent of them, and at least one. -/
def maxRetargetStep (currentRounds : ℕ) : ℕ :=
  max (currentRounds * maxVdfRetargetStepPercent / 100) 1

lemma retargetVdfRounds_of_inDeadband {currentRounds observedBlockMs : ℕ}
    (inside : InDeadband observedBlockMs) :
    retargetVdfRounds currentRounds observedBlockMs = currentRounds :=
  if_pos inside

/-- The bounds that the adjusted rounds are clamped between. -/
lemma retargetVdfRounds_of_not_inDeadband {currentRounds observedBlockMs : ℕ}
    (outside : ¬ InDeadband observedBlockMs) :
    retargetVdfRounds currentRounds observedBlockMs
      = clamp (currentRounds * vdfTargetBlockMs / max observedBlockMs 1)
        (max (currentRounds - maxRetargetStep currentRounds) minVdfRounds)
        (min (currentRounds + maxRetargetStep currentRounds) maxVdfRounds) :=
  if_neg outside

/-- The bounds of the clamp lie around rounds in range. -/
lemma retarget_bounds {currentRounds : ℕ} (positive : 1 ≤ currentRounds)
    (limit : currentRounds ≤ maxVdfRounds) :
    max (currentRounds - maxRetargetStep currentRounds) minVdfRounds ≤ currentRounds ∧
      currentRounds ≤ min (currentRounds + maxRetargetStep currentRounds) maxVdfRounds := by
  unfold minVdfRounds
  omega

/-- What one retarget of rounds in range does. -/
structure Retargets (currentRounds observedBlockMs next : ℕ) : Prop where
  positive : 1 ≤ next
  limit : next ≤ maxVdfRounds
  notMuchLess : currentRounds ≤ next + maxRetargetStep currentRounds
  notMuchMore : next ≤ currentRounds + maxRetargetStep currentRounds
  deadband : InDeadband observedBlockMs → next = currentRounds

/-- **One retarget** keeps rounds in range and moves them by one step at most. -/
theorem retargetVdfRounds_retargets {currentRounds : ℕ} (positive : 1 ≤ currentRounds)
    (limit : currentRounds ≤ maxVdfRounds) (observedBlockMs : ℕ) :
    Retargets currentRounds observedBlockMs (retargetVdfRounds currentRounds observedBlockMs) := by
  by_cases hinside : InDeadband observedBlockMs
  · rw [retargetVdfRounds_of_inDeadband hinside]
    exact ⟨positive, limit, Nat.le_add_right _ _, Nat.le_add_right _ _, fun _ => rfl⟩
  · rw [retargetVdfRounds_of_not_inDeadband hinside]
    obtain ⟨hlow, hhigh⟩ := retarget_bounds positive limit
    have hle := @le_clamp (currentRounds * vdfTargetBlockMs / max observedBlockMs 1) _ _
      (hlow.trans hhigh)
    have hge := @clamp_le (currentRounds * vdfTargetBlockMs / max observedBlockMs 1) _ _
      (hlow.trans hhigh)
    unfold minVdfRounds at hle hge ⊢
    exact ⟨by omega, by omega, by omega, by omega, fun inside => absurd inside hinside⟩

/-- **A slower observation never gives more rounds.** -/
theorem retargetVdfRounds_antitone {currentRounds fast slow : ℕ} (positive : 1 ≤ currentRounds)
    (limit : currentRounds ≤ maxVdfRounds) (slower : fast ≤ slow) :
    retargetVdfRounds currentRounds slow ≤ retargetVdfRounds currentRounds fast := by
  obtain ⟨hlow, hhigh⟩ := retarget_bounds positive limit
  have hmax : max fast 1 ≤ max slow 1 := max_le_max slower le_rfl
  by_cases hslow : InDeadband slow
  · rw [retargetVdfRounds_of_inDeadband hslow]
    by_cases hfast : InDeadband fast
    · rw [retargetVdfRounds_of_inDeadband hfast]
    · rw [retargetVdfRounds_of_not_inDeadband hfast]
      -- the fast observation lies below the band, so the ratio asks for more rounds
      refine le_clamp_of_le ?_ hhigh
      have hbelow : max fast 1 ≤ vdfTargetBlockMs := by
        unfold InDeadband at hslow hfast
        dsimp only at hslow hfast
        by_contra habove
        exact hfast ⟨(Nat.sub_le _ _).trans (not_le.mp habove).le, hmax.trans hslow.2⟩
      exact (Nat.le_div_iff_mul_le (by omega)).mpr (Nat.mul_le_mul_left _ hbelow)
  · rw [retargetVdfRounds_of_not_inDeadband hslow]
    by_cases hfast : InDeadband fast
    · rw [retargetVdfRounds_of_inDeadband hfast]
      -- the slow observation lies above the band, so the ratio asks for fewer rounds
      refine clamp_le_of_le ?_ hlow
      have habove : vdfTargetBlockMs ≤ max slow 1 := by
        unfold InDeadband at hslow hfast
        dsimp only at hslow hfast
        by_contra hbelow
        exact hslow ⟨hfast.1.trans hmax, (not_le.mp hbelow).le.trans (Nat.le_add_right _ _)⟩
      refine Nat.div_le_of_le_mul ?_
      rw [Nat.mul_comm (max slow 1)]
      exact Nat.mul_le_mul_left _ habove
    · rw [retargetVdfRounds_of_not_inDeadband hfast]
      exact clamp_mono (Nat.div_le_div_left hmax (by omega)) (hlow.trans hhigh)

/-- **The base rounds of a rank** are recovered from the rounds of the rank. -/
theorem baseVdfRounds_recovered {baseRounds rank rounds : ℕ}
    (h : vdfRoundsForFinalizerRank baseRounds rank = .ok rounds) :
    baseVdfRoundsForFinalizerRank rounds rank = baseRounds := by
  obtain ⟨hrank, rfl, -⟩ := vdfRoundsForFinalizerRank_eq_ok h
  have hdivisor : max (min (rank + 1) u32Max) 1 = rank + 1 := by omega
  rw [baseVdfRoundsForFinalizerRank, hdivisor]
  exact Nat.mul_div_cancel _ (Nat.succ_pos _)

/-! ## Arithmetic at the widths of the source -/

/-- A value, where it fits. -/
def within (limit value : ℕ) : Option ℕ := if value ≤ limit then some value else none

/-- A division, which panics on zero. -/
def quotient (dividend divisor : ℕ) : Option ℕ :=
  if divisor = 0 then none else some (dividend / divisor)

/-- `Ord::clamp`, which panics on bounds that are not in order. -/
def clampChecked (value low high : ℕ) : Option ℕ :=
  if low ≤ high then some (clamp value low high) else none

lemma within_of_le {limit value : ℕ} (h : value ≤ limit) : within limit value = some value :=
  if_pos h

lemma quotient_of_pos (dividend : ℕ) {divisor : ℕ} (h : 0 < divisor) :
    quotient dividend divisor = some (dividend / divisor) :=
  if_neg (Nat.pos_iff_ne_zero.mp h)

lemma clampChecked_of_le (value : ℕ) {low high : ℕ} (h : low ≤ high) :
    clampChecked value low high = some (clamp value low high) :=
  if_pos h

/-- `retarget_vdf_rounds` in `u128`, with the cast to `u64`. -/
def retargetVdfRoundsChecked (currentRounds observedBlockMs : ℕ) : Option ℕ := do
  let observed := max observedBlockMs 1
  let deadbandProduct ← within u128Max (vdfTargetBlockMs * vdfRetargetDeadbandPercent)
  let deadband ← quotient deadbandProduct 100
  if vdfTargetBlockMs - deadband ≤ observed ∧
      observed ≤ min (vdfTargetBlockMs + deadband) u128Max then
    pure currentRounds
  else do
    let product ← within u128Max (currentRounds * vdfTargetBlockMs)
    let rawAdjusted ← quotient product observed
    let stepProduct ← within u128Max (currentRounds * maxVdfRetargetStepPercent)
    let step ← quotient stepProduct 100
    let maxStep := max step 1
    let minNext := max (currentRounds - maxStep) minVdfRounds
    let maxNext := min (min (currentRounds + maxStep) u128Max) maxVdfRounds
    let next ← clampChecked rawAdjusted minNext maxNext
    within u64Max next

/-- `base_vdf_rounds_for_finalizer_rank`. -/
def baseVdfRoundsChecked (vdfRounds rank : ℕ) : Option ℕ :=
  quotient vdfRounds (max (min (rank + 1) u32Max) 1)

/-- `vdf_retarget_observed_block_ms`. -/
def vdfRetargetObservedChecked (parent child : Block) : Option (Option ℕ) :=
  if child.finalizerMode ≠ .ticket then some none
  else if child.finalizerRank ≠ 0 then some none
  else do
    let elapsed ← checkedSub child.timestampMs parent.timestampMs
    let observed ← clampChecked elapsed minVdfRetargetObservedBlockMs
      maxVdfRetargetObservedBlockMs
    pure (some observed)

/-- `average_vdf_retarget_observation`, with its count and its total in `u128`. -/
def averageVdfRetargetChecked (observations : List ℕ) : Option (Option ℕ) := do
  let count ← within u128Max observations.length
  let total ← observations.foldlM (fun total observed => within u128Max (total + observed)) 0
  if 0 < count then do
    let average ← quotient total count
    let average ← within u64Max average
    pure (some average)
  else pure none

/-- `recent_vdf_retarget_average_observed_block_ms`, which observes every pair of the chain, also
those before the window. -/
def recentVdfRetargetAverageChecked (chain : List Block) : Option (Option ℕ) := do
  let pairs := (chain.zip chain.tail).reverse.filter fun pair => 0 < pair.1.height
  let observations ← pairs.mapM fun pair => vdfRetargetObservedChecked pair.1 pair.2
  averageVdfRetargetChecked ((observations.filterMap id).take vdfRetargetWindowBlocks)

/-- `next_vdf_rounds_after_tip`. -/
def Ledger.nextVdfRoundsChecked (ledger : Ledger) : Option ℕ :=
  let tip := ledger.tip
  if tip.height < 2 then some ledger.vdfRounds
  else
    let averageObservedMs :=
      if ledger.vdfRetargetObservations = [] then recentVdfRetargetAverageChecked ledger.chain
      else averageVdfRetargetChecked ledger.vdfRetargetObservations
    averageObservedMs.bind fun
      | none => some ledger.vdfRounds
      | some averageObservedMs => do
        let baseRounds ← baseVdfRoundsChecked tip.vdfRounds tip.finalizerRank
        retargetVdfRoundsChecked baseRounds averageObservedMs

/-! ## The checked functions give the plain results -/

lemma retargetVdfRoundsChecked_eq {currentRounds : ℕ} (limit : currentRounds ≤ maxVdfRounds)
    (observedBlockMs : ℕ) : retargetVdfRoundsChecked currentRounds observedBlockMs
      = some (retargetVdfRounds currentRounds observedBlockMs) := by
  have hproduct : currentRounds * vdfTargetBlockMs ≤ u128Max :=
    (Nat.mul_le_mul_right vdfTargetBlockMs limit).trans (by decide)
  have hstep : currentRounds * maxVdfRetargetStepPercent ≤ u128Max :=
    (Nat.mul_le_mul_right maxVdfRetargetStepPercent limit).trans (by decide)
  have hdeadband : vdfTargetBlockMs * vdfRetargetDeadbandPercent ≤ u128Max := by decide
  have hupper : min (vdfTargetBlockMs + vdfTargetBlockMs * vdfRetargetDeadbandPercent / 100) u128Max
      = vdfTargetBlockMs + vdfTargetBlockMs * vdfRetargetDeadbandPercent / 100 := by decide
  have hstepSize : maxRetargetStep currentRounds ≤ maxVdfRounds := by
    unfold maxRetargetStep maxVdfRetargetStepPercent maxVdfRounds at *
    omega
  have hsum : min (currentRounds + maxRetargetStep currentRounds) u128Max
      = currentRounds + maxRetargetStep currentRounds := by
    unfold maxVdfRounds u128Max at *
    omega
  have hordered : max (currentRounds - maxRetargetStep currentRounds) minVdfRounds
      ≤ min (currentRounds + maxRetargetStep currentRounds) maxVdfRounds := by
    unfold maxRetargetStep minVdfRounds maxVdfRounds at *
    omega
  unfold retargetVdfRoundsChecked retargetVdfRounds
  simp only [within_of_le hdeadband, quotient_of_pos _ (show 0 < 100 by decide), hupper,
    Option.bind_eq_bind, Option.bind_some]
  split
  · rfl
  · change ((within u128Max (currentRounds * vdfTargetBlockMs)).bind fun product =>
      (quotient product (max observedBlockMs 1)).bind fun rawAdjusted =>
      (within u128Max (currentRounds * maxVdfRetargetStepPercent)).bind fun stepProduct =>
      (quotient stepProduct 100).bind fun step =>
      (clampChecked rawAdjusted (max (currentRounds - max step 1) minVdfRounds)
        (min (min (currentRounds + max step 1) u128Max) maxVdfRounds)).bind fun next =>
      within u64Max next) = _
    rw [within_of_le hproduct, Option.bind_some, quotient_of_pos _ (by omega), Option.bind_some,
      within_of_le hstep, Option.bind_some, quotient_of_pos _ (by decide), Option.bind_some]
    change (clampChecked _ (max (currentRounds - maxRetargetStep currentRounds) minVdfRounds)
      (min (min (currentRounds + maxRetargetStep currentRounds) u128Max) maxVdfRounds)).bind _ = _
    rw [hsum, clampChecked_of_le _ hordered, Option.bind_some]
    refine within_of_le ((clamp_le hordered).trans ((Nat.min_le_right _ _).trans (by decide)))

lemma baseVdfRoundsChecked_eq (vdfRounds rank : ℕ) :
    baseVdfRoundsChecked vdfRounds rank = some (baseVdfRoundsForFinalizerRank vdfRounds rank) :=
  quotient_of_pos _ (by omega)

/-- The observation of ordered times is exact. -/
lemma vdfRetargetObservedChecked_eq {parent child : Block}
    (ordered : parent.timestampMs ≤ child.timestampMs) :
    vdfRetargetObservedChecked parent child = some (vdfRetargetObservedBlockMs parent child) := by
  have hclamp : minVdfRetargetObservedBlockMs ≤ maxVdfRetargetObservedBlockMs := by decide
  unfold vdfRetargetObservedChecked vdfRetargetObservedBlockMs
  split
  · rfl
  · split
    · rfl
    · rw [checkedSub, if_pos ordered, Option.bind_eq_bind, Option.bind_some,
        clampChecked_of_le _ hclamp]
      rfl

/-- An observation is at most the largest one. -/
lemma vdfRetargetObservedBlockMs_le {parent child : Block} {observed : ℕ}
    (h : vdfRetargetObservedBlockMs parent child = some observed) :
    observed ≤ maxVdfRetargetObservedBlockMs := by
  unfold vdfRetargetObservedBlockMs at h
  split at h
  · cases h
  · split at h
    · cases h
    · cases h
      exact clamp_le (by decide)

/-- What the retarget averages: a window of observations, none of them too large. -/
structure Observations (observations : List ℕ) : Prop where
  window : observations.length ≤ vdfRetargetWindowBlocks
  small : ∀ observed ∈ observations, observed ≤ maxVdfRetargetObservedBlockMs

lemma Observations.sum_le {observations : List ℕ} (h : Observations observations) :
    observations.sum ≤ vdfRetargetWindowBlocks * maxVdfRetargetObservedBlockMs := by
  exact (List.sum_le_card_nsmul observations _ h.small).trans (Nat.mul_le_mul_right _ h.window)

lemma foldlM_within {limit : ℕ} (values : List ℕ) {start : ℕ} (fits : start + values.sum ≤ limit) :
    values.foldlM (fun total value => within limit (total + value)) start
      = some (start + values.sum) := by
  induction values generalizing start with
  | nil => rfl
  | cons value values ih =>
    rw [List.sum_cons] at fits ⊢
    rw [List.foldlM_cons, within_of_le (by omega), Option.bind_eq_bind, Option.bind_some,
      ih (by omega), Nat.add_assoc]

lemma averageVdfRetargetChecked_eq {observations : List ℕ} (h : Observations observations) :
    averageVdfRetargetChecked observations = some (averageVdfRetargetObservation observations) := by
  have hcount : observations.length ≤ u128Max := h.window.trans (by decide)
  have htotal : 0 + observations.sum ≤ u128Max := by
    rw [Nat.zero_add]
    exact h.sum_le.trans (by decide)
  have haverage : observations.sum / observations.length ≤ u64Max :=
    (Nat.div_le_self _ _).trans (h.sum_le.trans (by decide))
  unfold averageVdfRetargetChecked averageVdfRetargetObservation
  rw [within_of_le hcount, foldlM_within observations htotal, Nat.zero_add]
  simp only [Option.bind_eq_bind, Option.bind_some]
  split
  · rename_i hpositive
    rw [quotient_of_pos _ hpositive, Option.bind_some, within_of_le haverage]
    rfl
  · rfl

lemma mapM_eq_some_map {α β : Type} {f : α → Option β} {g : α → β} {xs : List α}
    (h : ∀ x ∈ xs, f x = some (g x)) : xs.mapM f = some (xs.map g) := by
  induction xs with
  | nil => rfl
  | cons x xs ih =>
    rw [List.forall_mem_cons] at h
    rw [List.mapM_cons, h.1, ih h.2]
    rfl

lemma recentVdfRetargetAverageChecked_eq {chain : List Block}
    (ordered : ∀ pair ∈ chain.zip chain.tail, pair.1.timestampMs < pair.2.timestampMs) :
    recentVdfRetargetAverageChecked chain
      = some (recentVdfRetargetAverageObservedBlockMs chain) := by
  set pairs := (chain.zip chain.tail).reverse.filter fun pair => 0 < pair.1.height with hpairs
  have hmap : (pairs.mapM fun pair => vdfRetargetObservedChecked pair.1 pair.2)
      = some (pairs.map fun pair => vdfRetargetObservedBlockMs pair.1 pair.2) := by
    refine mapM_eq_some_map fun pair hpair => ?_
    rw [hpairs, List.mem_filter, List.mem_reverse] at hpair
    exact vdfRetargetObservedChecked_eq (ordered pair hpair.1).le
  have hobservations : Observations ((pairs.filterMap fun pair =>
      vdfRetargetObservedBlockMs pair.1 pair.2).take vdfRetargetWindowBlocks) := by
    refine ⟨List.length_take_le _ _, fun observed hobserved => ?_⟩
    obtain ⟨pair, -, hpair⟩ := List.mem_filterMap.mp (List.mem_of_mem_take hobserved)
    exact vdfRetargetObservedBlockMs_le hpair
  unfold recentVdfRetargetAverageChecked recentVdfRetargetAverageObservedBlockMs
  simp only [← hpairs, hmap, Option.bind_eq_bind, Option.bind_some]
  rw [List.filterMap_map]
  exact averageVdfRetargetChecked_eq hobservations

namespace Ledger

open Runs

variable {ledger ledger' : Ledger} {block : Block}

/-- What the retarget after the tip relies on. -/
structure RetargetReady (ledger : Ledger) : Prop where
  rounds : ledger.tip.vdfRounds ≤ maxVdfRounds
  observations : Observations ledger.vdfRetargetObservations
  ordered : ∀ pair ∈ ledger.chain.zip ledger.chain.tail,
    pair.1.timestampMs < pair.2.timestampMs

lemma RetargetReady.nextVdfRoundsChecked_eq (ready : ledger.RetargetReady) :
    ledger.nextVdfRoundsChecked = some ledger.nextVdfRoundsAfterTip := by
  have hbase : baseVdfRoundsForFinalizerRank ledger.tip.vdfRounds ledger.tip.finalizerRank
      ≤ maxVdfRounds := (Nat.div_le_self _ _).trans ready.rounds
  have haverage : (if ledger.vdfRetargetObservations = [] then
        recentVdfRetargetAverageChecked ledger.chain
      else averageVdfRetargetChecked ledger.vdfRetargetObservations)
      = some (if ledger.vdfRetargetObservations = [] then
          recentVdfRetargetAverageObservedBlockMs ledger.chain
        else averageVdfRetargetObservation ledger.vdfRetargetObservations) := by
    split
    · exact recentVdfRetargetAverageChecked_eq ready.ordered
    · exact averageVdfRetargetChecked_eq ready.observations
  unfold nextVdfRoundsChecked nextVdfRoundsAfterTip
  dsimp only
  split
  · rfl
  · rw [haverage, Option.bind_some]
    cases (if ledger.vdfRetargetObservations = [] then
        recentVdfRetargetAverageObservedBlockMs ledger.chain
      else averageVdfRetargetObservation ledger.vdfRetargetObservations) with
    | none => rfl
    | some averageObservedMs =>
      dsimp only
      rw [baseVdfRoundsChecked_eq, Option.bind_eq_bind, Option.bind_some,
        retargetVdfRoundsChecked_eq hbase]

/-! ## Chains -/

/-- The observations after a block. -/
lemma recordVdfRetargetObservation_observations
    (observations : Observations ledger.vdfRetargetObservations) :
    Observations (ledger.recordVdfRetargetObservation block).vdfRetargetObservations := by
  unfold recordVdfRetargetObservation
  split
  · exact observations
  · split
    · exact observations
    · rename_i observed hobserved
      constructor
      · rw [List.length_drop]
        omega
      · intro value hvalue
        rcases List.mem_append.mp (List.mem_of_mem_drop hvalue) with hprior | hnew
        · exact observations.small value hprior
        · rw [List.mem_singleton.mp hnew]
          exact vdfRetargetObservedBlockMs_le hobserved

variable [Crypto]

/-- What an accepted block does to the rounds: it is observed, and the rounds are retargeted after
it has become the tip. -/
structure Retargeted (ledger : Ledger) (block : Block) (ledger' : Ledger) : Prop where
  prechecked : ∃ nowMs, ledger.Prechecked block nowMs
  chain : ledger'.chain = ledger.chain ++ [block]
  observations : ledger'.vdfRetargetObservations
    = (ledger.recordVdfRetargetObservation block).vdfRetargetObservations
  rounds : ledger'.vdfRounds
    = ({ ledger' with vdfRounds := ledger.vdfRounds } : Ledger).nextVdfRoundsAfterTip

lemma step_retargeted (step : Step ledger (.accepted block) ledger') :
    ledger.Retargeted block ledger' := by
  cases step with
  | accepted isNew applied =>
    rcases applyBlockWithVdfPolicy_eq_ok applied with ⟨isKnown, -⟩ | h
    · rw [isNew] at isKnown
      cases isKnown
    · obtain ⟨effects, context, pools, -, -, -, -, -, rfl⟩ := h
      have hrounds : (ledger.recordBlock block effects context).vdfRounds = ledger.vdfRounds := by
        obtain ⟨_, _, _, _, hrecord⟩ := recordBlock_eq ledger block effects context
        rw [hrecord]
        rfl
      have hchain : (ledger.recordBlock block effects context).chain = ledger.chain ++ [block] := by
        obtain ⟨_, _, _, _, hrecord⟩ := recordBlock_eq ledger block effects context
        rw [hrecord]
        rfl
      refine ⟨⟨_, precheck_eq_ok_true.mp isNew⟩, hchain,
        recordBlock_vdfRetargetObservations ledger block effects context, ?_⟩
      rw [← hrounds]
      rfl

lemma Retargeted.tip (retargeted : ledger.Retargeted block ledger') : ledger'.tip = block := by
  simp only [Ledger.tip, retargeted.chain, List.getLast_append_singleton]

/-- The state of a run that the retarget relies on, and the observations as they are kept. -/
lemma run_retargetReady {genesis : Ledger} {events : List Event} (initial : Initial genesis)
    (run : Run Step genesis events ledger) : ledger.RetargetReady := by
  obtain ⟨hincreases, hsublist, -⟩ := run_times initial run
  have hkept : ledger.tip.vdfRounds ≤ maxVdfRounds ∧
      Observations ledger.vdfRetargetObservations := by
    refine run.invariant (fun ledger => ledger.tip.vdfRounds ≤ maxVdfRounds ∧
      Observations ledger.vdfRetargetObservations) ?_ ?_
    · intro ledger event ledger' hkept step
      cases event with
      | accepted block =>
        have hretargeted := step_retargeted step
        obtain ⟨nowMs, checked⟩ := hretargeted.prechecked
        rw [hretargeted.tip, hretargeted.observations]
        exact ⟨checked.rounds.2, recordVdfRetargetObservation_observations hkept.2⟩
      | known block =>
        rw [step_known step]
        exact hkept
      | poolsChanged pools =>
        cases step
        exact hkept
      | historyPruned recentLimit =>
        cases step
        have htip := retainRecentChainBlocks_tip ledger recentLimit
        obtain ⟨_, _, _, h⟩ := retainRecentChainBlocks_eq ledger recentLimit
        rw [htip]
        rw [h]
        exact hkept
    · obtain ⟨_, block, _, _, _, _, _, _, -, hblock, -, -, rfl⟩ := initial_eq initial
      refine ⟨?_, ⟨by simp [atGenesis], by simp [atGenesis]⟩⟩
      have hzero : block.vdfRounds = 0 := by
        rw [hblock]
        rfl
      have htip : block.vdfRounds ≤ maxVdfRounds := by
        rw [hzero]
        exact Nat.zero_le _
      exact htip
  exact ⟨hkept.1, hkept.2, fun pair mem => lt_of_mem_zip_tail (hincreases.sublist hsublist) mem⟩

/-- The arithmetic of an accepted block on rounds and times: nothing overflows, divides by zero or
is cut off, from the rounds of its rank to the retarget after it. -/
structure RetargetExact (ledger : Ledger) (block : Block) (ledger' : Ledger) : Prop where
  /-- The product of the base rounds and the rank, and its inverse. -/
  rounds : block.vdfRounds = ledger.vdfRounds * (block.finalizerRank + 1) ∧
    block.vdfRounds ≤ maxVdfRounds
  base : baseVdfRoundsChecked block.vdfRounds block.finalizerRank = some ledger.vdfRounds
  /-- The slot of the rank and the difference of the timestamps. -/
  times : ledger.TimesFit block
  observation : vdfRetargetObservedChecked ledger.tip block
    = some (vdfRetargetObservedBlockMs ledger.tip block)
  /-- The average and the retarget after the block. -/
  next : ({ ledger' with vdfRounds := ledger.vdfRounds } : Ledger).nextVdfRoundsChecked
    = some ledger'.vdfRounds

/-- The rounds of an accepted block are those of its rank: a recovery block has rank zero. -/
lemma Prechecked.roundsOfRank {nowMs : ℕ} (checked : ledger.Prechecked block nowMs) :
    vdfRoundsForFinalizerRank ledger.vdfRounds block.finalizerRank = .ok block.vdfRounds := by
  have hrounds := checked.vdfRounds
  have hfinalizer := checked.finalizer
  unfold expectedVdfRoundsForBlock at hrounds
  unfold checkFinalizer at hfinalizer
  cases hmode : block.finalizerMode with
  | ticket =>
    rw [hmode] at hrounds
    exact hrounds
  | recovery =>
    rw [hmode] at hrounds hfinalizer
    simp only [ensureValidRecoveryBlock, Outcome.bind_eq_ok, Outcome.bailIf_eq_ok, not_not]
      at hfinalizer
    obtain ⟨_, hrank, -⟩ := hfinalizer
    rw [hrank]
    exact hrounds

lemma step_retargetExact {genesis : Ledger} {events : List Event} (initial : Initial genesis)
    (run : Run Step genesis events ledger) (step : Step ledger (.accepted block) ledger') :
    ledger.RetargetExact block ledger' := by
  have hretargeted := step_retargeted step
  obtain ⟨nowMs, checked⟩ := hretargeted.prechecked
  have hrank := checked.roundsOfRank
  obtain ⟨-, hproduct, hlimit⟩ := vdfRoundsForFinalizerRank_eq_ok hrank
  refine ⟨⟨hproduct, hlimit⟩, ?_, checked.timesFit,
    vdfRetargetObservedChecked_eq checked.timed.increases.le, ?_⟩
  · rw [baseVdfRoundsChecked_eq, baseVdfRounds_recovered hrank]
  · have hready := run_retargetReady initial (run.snoc step)
    have hbefore : ({ ledger' with vdfRounds := ledger.vdfRounds } : Ledger).RetargetReady :=
      ⟨hready.rounds, hready.observations, hready.ordered⟩
    rw [hbefore.nextVdfRoundsChecked_eq, ← hretargeted.rounds]

/-- The retarget after an accepted block keeps rounds in range. -/
lemma RetargetExact.inRange (sound : ledger.RetargetExact block ledger')
    (retargeted : ledger.Retargeted block ledger') (positive : 1 ≤ ledger.vdfRounds) :
    1 ≤ ledger'.vdfRounds ∧ ledger'.vdfRounds ≤ maxVdfRounds := by
  have hlimit : ledger.vdfRounds ≤ maxVdfRounds := by
    have hproduct := sound.rounds.2
    rw [sound.rounds.1] at hproduct
    exact (Nat.le_mul_of_pos_right _ (Nat.succ_pos _)).trans hproduct
  have hbase := sound.base
  rw [baseVdfRoundsChecked_eq, Option.some.injEq] at hbase
  have htip : ({ ledger' with vdfRounds := ledger.vdfRounds } : Ledger).tip = block :=
    retargeted.tip
  rw [retargeted.rounds]
  unfold nextVdfRoundsAfterTip
  dsimp only
  rw [htip, hbase]
  split
  · exact ⟨positive, hlimit⟩
  · split
    · exact ⟨positive, hlimit⟩
    · rename_i averageObservedMs _
      have hnext := retargetVdfRounds_retargets positive hlimit averageObservedMs
      exact ⟨hnext.positive, hnext.limit⟩

/-- Rounds that are in range at the launch stay in range. -/
lemma run_roundsInRange {genesis : Ledger} {events : List Event} (initial : Initial genesis)
    (run : Run Step genesis events ledger) (positive : 1 ≤ genesis.vdfRounds)
    (limit : genesis.vdfRounds ≤ maxVdfRounds) :
    1 ≤ ledger.vdfRounds ∧ ledger.vdfRounds ≤ maxVdfRounds := by
  have htrack := run.track (fun done ledger => Run Step genesis done ledger ∧
    1 ≤ ledger.vdfRounds ∧ ledger.vdfRounds ≤ maxVdfRounds) ?_ ⟨.nil _, positive, limit⟩
  · exact htrack.2
  intro done ledger event ledger' ih step
  refine ⟨ih.1.snoc step, ?_⟩
  cases event with
  | accepted block =>
    exact (step_retargetExact initial ih.1 step).inRange (step_retargeted step) ih.2.1
  | known block =>
    rw [step_known step]
    exact ih.2
  | poolsChanged pools =>
    cases step
    exact ih.2
  | historyPruned recentLimit =>
    cases step
    obtain ⟨_, _, _, h⟩ := retainRecentChainBlocks_eq ledger recentLimit
    rw [h]
    exact ih.2

/-- **Safety of the retarget.** A retarget of rounds in range stays in range, moves by one step at
most, leaves the rounds alone in the dead band, and never gives a slower observation more rounds;
the base rounds of a rank are recovered; and along every run the rounds stay in range, if the
launch gives such rounds, and the arithmetic of every accepted block is exact. -/
theorem retarget_safe {genesis : Ledger} {events : List Event} (initial : Initial genesis)
    (run : Run Step genesis events ledger) :
    (∀ currentRounds observedBlockMs, 1 ≤ currentRounds → currentRounds ≤ maxVdfRounds →
      Retargets currentRounds observedBlockMs (retargetVdfRounds currentRounds observedBlockMs) ∧
        retargetVdfRoundsChecked currentRounds observedBlockMs
          = some (retargetVdfRounds currentRounds observedBlockMs) ∧
        ∀ slower, observedBlockMs ≤ slower →
          retargetVdfRounds currentRounds slower ≤ retargetVdfRounds currentRounds observedBlockMs) ∧
    (∀ baseRounds rank rounds, vdfRoundsForFinalizerRank baseRounds rank = .ok rounds →
      baseVdfRoundsForFinalizerRank rounds rank = baseRounds) ∧
    (1 ≤ genesis.vdfRounds → genesis.vdfRounds ≤ maxVdfRounds →
      1 ≤ ledger.vdfRounds ∧ ledger.vdfRounds ≤ maxVdfRounds) ∧
    ∀ block ledger', Step ledger (.accepted block) ledger' →
      ledger.RetargetExact block ledger' := by
  refine ⟨?_, fun _ _ _ => baseVdfRounds_recovered, run_roundsInRange initial run,
    fun block ledger' step => step_retargetExact initial run step⟩
  intro currentRounds observedBlockMs positive limit
  exact ⟨retargetVdfRounds_retargets positive limit observedBlockMs,
    retargetVdfRoundsChecked_eq limit observedBlockMs,
    fun slower hslower => retargetVdfRounds_antitone positive limit hslower⟩

end Ledger

/-- **Rounds out of range.** In the dead band no rounds stay no rounds and too many stay too many;
outside of it too many rounds put the bounds of the clamp out of order. -/
theorem retarget_out_of_range :
    retargetVdfRounds 0 vdfTargetBlockMs = 0 ∧
      retargetVdfRounds u64Max vdfTargetBlockMs = u64Max ∧
      retargetVdfRoundsChecked u64Max 1 = none ∧
      ¬ ∀ currentRounds observedBlockMs, currentRounds ≤ u64Max → observedBlockMs ≤ u64Max →
        1 ≤ retargetVdfRounds currentRounds observedBlockMs ∧
          retargetVdfRounds currentRounds observedBlockMs ≤ maxVdfRounds := by
  refine ⟨by decide +kernel, by decide +kernel, by decide +kernel, ?_⟩
  intro inRange
  have hzero := (inRange 0 vdfTargetBlockMs (by decide) (by decide)).1
  exact absurd hzero (by decide +kernel)

end Iuna

namespace Iuna.Toy

attribute [local instance] crypto

/-- The rounds of a ticket block. -/
theorem retarget_safe_ticketBlock :
    (∀ currentRounds observedBlockMs, 1 ≤ currentRounds → currentRounds ≤ maxVdfRounds →
      Retargets currentRounds observedBlockMs (retargetVdfRounds currentRounds observedBlockMs) ∧
        retargetVdfRoundsChecked currentRounds observedBlockMs
          = some (retargetVdfRounds currentRounds observedBlockMs) ∧
        ∀ slower, observedBlockMs ≤ slower →
          retargetVdfRounds currentRounds slower ≤ retargetVdfRounds currentRounds observedBlockMs) ∧
      genesis.RetargetExact ticketBlock ticketLedger := by
  obtain ⟨hretarget, -, -, hsteps⟩ := Ledger.retarget_safe genesis_initial (.nil genesis)
  exact ⟨hretarget, hsteps ticketBlock ticketLedger ticketBlock_step⟩

end Iuna.Toy
