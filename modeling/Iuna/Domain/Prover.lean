import Iuna.Domain.Primitives
import Mathlib.Algebra.Group.Defs

/-!
# The VDF provers

Both provers square the generator once a round and prove the result with the quotient of the power
of two by a challenge.  The checkpoint prover keeps every `k * l`-th square, reads the quotient in
digits of `k` bits off residues modulo the challenge, and sorts the checkpoints of one pass into a
bucket for each digit; the constant-memory prover divides bit by bit.  This module is `prover.rs`
over an arbitrary group: the forms of `limb_arithmetic.rs` enter by their product, their unit and
their powers only, and the challenge `get_b` is a parameter.  Progress reports and cancellation
are left out, except for the overflow check of the amount of work; the window parameters that the
source estimates in floating point are arguments.
-/

namespace Iuna

namespace Vdf

def maxCheckpoints : ℕ := 262144

def maxBuckets : ℕ := 65536

def checkpointBudgetBytes : ℕ := 4 * 1024

def checkpointWorkspaceBytes : ℕ := 16 * 1024 * 1024

/-- `ProofParameters`. -/
structure ProofParameters where
  k : ℕ
  l : ℕ
  checkpointCount : ℕ
  bucketCount : ℕ
  deriving DecidableEq

/-- `u64::div_ceil`. -/
def divCeil (dividend divisor : ℕ) : ℕ := (dividend + divisor - 1) / divisor

/-- `u64::saturating_mul`. -/
def saturatingMul (a b : ℕ) : ℕ := min (a * b) u64Max

/-- `1_u64 << k`, which panics from the width on. -/
def shiftOne (k : ℕ) : Result ℕ :=
  if k < 64 then pure (2 ^ k) else bail "attempt to shift left with overflow"

/-- `fit_checkpoint_budget`. -/
def ProofParameters.fitCheckpointBudget (parameters : ProofParameters)
    (rounds maxCheckpoints : ℕ) : ProofParameters :=
  if maxCheckpoints = 0 ∨ parameters.checkpointCount ≤ maxCheckpoints then parameters
  else
    let checkpointBudgetStride := max (saturatingMul parameters.k maxCheckpoints) 1
    let l := max parameters.l (divCeil rounds checkpointBudgetStride)
    let checkpointStride := max (saturatingMul parameters.k l) 1
    { parameters with l := l, checkpointCount := divCeil rounds checkpointStride }

/-- `ProofParameters::for_rounds`, given the window that the source estimates. -/
def ProofParameters.forRounds (rounds k l : ℕ) : ProofParameters :=
  let parameters : ProofParameters :=
    { k := k
      l := l
      checkpointCount := divCeil rounds (max (saturatingMul k l) 1)
      bucketCount := if k < 64 then 2 ^ k else u64Max }
  parameters.fitCheckpointBudget rounds maxCheckpoints

/-- `checkpoint_limit_for_memory_budget`. -/
def checkpointLimitForMemoryBudget (memoryBudgetBytes : ℕ) : ℕ :=
  min ((memoryBudgetBytes - checkpointWorkspaceBytes) / checkpointBudgetBytes) maxCheckpoints

/-! ## The digits of one pass -/

/-- `checkpoint_position`. -/
def checkpointPosition (index j l : ℕ) : Result ℕ :=
  orError "checkpoint position overflow"
    ((checkedMul index l).bind fun value => checkedAdd value j)

/-- `block_end`. -/
def blockEnd (position k : ℕ) : Result ℕ := do
  let next ← orError "checkpoint position overflow" (checkedAdd position 1)
  orError "checkpoint block overflow" (checkedMul k next)

/-- `block_from_residue`. -/
def blockFromResidue (residue k challenge : ℕ) : Result ℕ := do
  let block := residue * 2 ^ k / challenge
  let limit ← shiftOne k
  bailIf (limit ≤ block) "proof block does not fit in its bucket range"
  pure block

/-- The first loop of `get_blocks_for_pass`: the last checkpoint, counted down from an index, whose
block ends within the rounds. -/
def lastBlockIndex (j : ℕ) (parameters : ProofParameters) (rounds : ℕ) : ℕ → Result (Option ℕ)
  | 0 => do
    let position ← checkpointPosition 0 j parameters.l
    let finish ← blockEnd position parameters.k
    if finish ≤ rounds then pure (some 0) else pure none
  | index + 1 => do
    let position ← checkpointPosition (index + 1) j parameters.l
    let finish ← blockEnd position parameters.k
    if finish ≤ rounds then pure (some (index + 1)) else lastBlockIndex j parameters rounds index

/-- The second loop of `get_blocks_for_pass`: the blocks up to an index, read from the residue of
the last one, which a step takes to the one before. -/
def blocksUpTo (k challenge step : ℕ) : ℕ → ℕ → Result (List ℕ)
  | 0, residue => do
    let block ← blockFromResidue residue k challenge
    pure [block]
  | index + 1, residue => do
    let block ← blockFromResidue residue k challenge
    let earlier ← blocksUpTo k challenge step index (residue * step % challenge)
    pure (earlier ++ [block])

/-- `get_blocks_for_pass`, with `none` for `INVALID_BUCKET`. -/
def getBlocksForPass (j : ℕ) (parameters : ProofParameters) (rounds challenge step : ℕ) :
    Result (List (Option ℕ)) :=
  match parameters.checkpointCount with
  | 0 => pure []
  | last + 1 => do
    let found ← lastBlockIndex j parameters rounds last
    match found with
    | none => pure (List.replicate (last + 1) none)
    | some index => do
      let position ← checkpointPosition index j parameters.l
      let finish ← blockEnd position parameters.k
      let exponent ← orError "proof block exceeds iteration count" (checkedSub rounds finish)
      let blocks ← blocksUpTo parameters.k challenge step index (2 ^ exponent % challenge)
      pure (blocks.map some ++ List.replicate (last - index) none)

/-! ## Buckets -/

section Group

variable {G : Type} [CommGroup G]

/-- Multiply a form to a place that may be empty. -/
def accumulate (place : Option G) (form : G) : Option G :=
  match place with
  | some product => some (product * form)
  | none => some form

/-- One round of the checkpoint loop: the checkpoint goes to the bucket of its block. -/
def fillBucket (buckets : List (Option G)) (entry : G × Option ℕ) : List (Option G) :=
  match entry.2 with
  | none => buckets
  | some bucket => buckets.set bucket (accumulate (buckets[bucket]?).join entry.1)

/-- The product of the filled buckets at some indices. -/
def aggregate (buckets : List (Option G)) (indices : List ℕ) : Option G :=
  indices.foldl (fun product index =>
    match (buckets[index]?).join with
    | some bucket => accumulate product bucket
    | none => product) none

/-- Multiply a power of an aggregate to the proof; nothing is done for the exponent zero or for an
empty aggregate. -/
def composeAggregate (proof : G) (exponent : ℕ) (product : Option G) : G :=
  match product with
  | some product => if exponent ≠ 0 then proof * product ^ exponent else proof
  | none => proof

/-- The row loop and the column loop of a pass. -/
def composeBuckets (buckets : List (Option G)) (rowCount columnCount : ℕ) (proof : G) : G :=
  let proof := (List.range rowCount).foldl (fun proof b1 =>
    let rowStart := b1 * columnCount
    composeAggregate proof rowStart
      (aggregate buckets ((List.range columnCount).map fun b0 => rowStart + b0))) proof
  (List.range columnCount).foldl (fun proof b0 =>
    composeAggregate proof b0
      (aggregate buckets ((List.range rowCount).map fun b1 => b1 * columnCount + b0))) proof

/-- One pass of `generate_checkpoint_proof_cancellable`. -/
def checkpointPass (checkpoints : List G) (rounds : ℕ) (parameters : ProofParameters)
    (challenge step : ℕ) (proof : G) (j : ℕ) : Result G := do
  let window ← shiftOne parameters.k
  let proof := proof ^ window
  let blocks ← getBlocksForPass j parameters rounds challenge step
  let buckets := (checkpoints.zip blocks).foldl fillBucket
    (List.replicate parameters.bucketCount none)
  let rowCount ← shiftOne (parameters.k / 2)
  let columnCount ← shiftOne (parameters.k - parameters.k / 2)
  pure (composeBuckets buckets rowCount columnCount proof)

/-! ## The provers -/

/-- `generate_checkpoint_proof_cancellable`. -/
def generateCheckpointProof (getB : G → G → Result ℕ) (generator output : G)
    (checkpoints : List G) (rounds : ℕ) (parameters : ProofParameters) : Result G := do
  let challenge ← getB generator output
  let rowCount ← shiftOne (parameters.k / 2)
  let columnCount ← shiftOne (parameters.k - parameters.k / 2)
  let workPerPass ← orError "proof progress calculation overflow"
    ((checkedAdd parameters.checkpointCount rowCount).bind fun value =>
      checkedAdd value columnCount)
  let _ ← orError "proof progress calculation overflow" (checkedMul parameters.l workPerPass)
  let blockStepExponent ← orError "proof block step overflow"
    (checkedMul parameters.k parameters.l)
  let blockStep := 2 ^ blockStepExponent % challenge
  (List.range parameters.l).reverse.foldlM
    (checkpointPass checkpoints rounds parameters challenge blockStep) 1

/-- One round of the squaring loop of the checkpoint prover. -/
def squareWithCheckpoint (stride : ℕ) (state : G × List G) (completed : ℕ) : G × List G :=
  (state.1 * state.1, if completed % stride = 0 then state.2 ++ [state.1] else state.2)

/-- `prove_checkpointed_cancellable`. -/
def proveCheckpointed (getB : G → G → Result ℕ) (generator : G) (rounds : ℕ)
    (parameters : ProofParameters) : Result (G × G) := do
  let stride ← orError "checkpoint stride overflow" (checkedMul parameters.k parameters.l)
  let squared := (List.range rounds).foldl (squareWithCheckpoint stride) (generator, [])
  let proof ← generateCheckpointProof getB generator squared.1 squared.2 rounds parameters
  pure (squared.1, proof)

/-- One round of the division loop of the constant-memory prover. -/
def divideRound (generator : G) (challenge : ℕ) (state : G × ℕ) : G × ℕ :=
  let doubled := state.2 * 2
  let squared := state.1 * state.1
  (if challenge ≤ doubled then squared * generator else squared, doubled % challenge)

/-- `prove_constant_memory_cancellable`. -/
def proveConstantMemory (getB : G → G → Result ℕ) (generator : G) (rounds : ℕ) :
    Result (G × G) := do
  let output := (List.range rounds).foldl (fun output _ => output * output) generator
  let challenge ← getB generator output
  let divided := (List.range rounds).foldl (fun state _ => divideRound generator challenge state)
    (1, 1 % challenge)
  pure (output, divided.1)

/-- `prove_cancellable`. -/
def prove (getB : G → G → Result ℕ) (generator : G) (rounds k l memoryBudgetBytes : ℕ) :
    Result (G × G) :=
  let maxCheckpointsForBudget := checkpointLimitForMemoryBudget memoryBudgetBytes
  if maxCheckpointsForBudget = 0 then proveConstantMemory getB generator rounds
  else
    let parameters := (ProofParameters.forRounds rounds k l).fitCheckpointBudget rounds
      maxCheckpointsForBudget
    if maxCheckpoints < parameters.checkpointCount ∨ maxBuckets < parameters.bucketCount then
      proveConstantMemory getB generator rounds
    else proveCheckpointed getB generator rounds parameters

end Group

end Vdf

end Iuna
