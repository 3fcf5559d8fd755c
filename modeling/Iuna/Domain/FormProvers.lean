import Iuna.Domain.FormComposition
import Iuna.Domain.Prover

/-!
# The VDF provers in limbs

`prover.rs` over the forms of `limb_arithmetic.rs`: the loops of the provers with the operations on
limbs that they call.  The challenge `get_b` is a parameter, as for the provers over a group.
-/

namespace Iuna

namespace Vdf

/-- How a prover fails: a panic of the arithmetic, or an error that it returns. -/
inductive ProverFault where
  | panic (fault : Fault)
  | returned (error : Error)
  deriving DecidableEq, Repr

/-- A computation of a prover, which ends only with enough turns of its loops. -/
abbrev Proving := ExceptT ProverFault Option

namespace Proving

variable {α : Type}

def ofTurns (run : Turns α) : Proving α :=
  ExceptT.mk (Option.map (Except.mapError ProverFault.panic) run)

def ofResult (result : Result α) : Proving α :=
  ExceptT.mk (some (result.mapError ProverFault.returned))

end Proving

/-- `ClassGroup`, with its numbers in limbs and the scratch of the caller. -/
structure ClassGroup where
  discriminant : LimbInt
  threshold : LimbInt
  scratch : LimbScratch
  deriving DecidableEq, Repr

namespace ClassGroup

variable (group : ClassGroup) (fuel : ℕ)

/-! ## The operations -/

def one : Proving FormLimbs := .ofTurns (liftM (FormLimbs.identity group.discriminant))

def square (form : FormLimbs) : Proving FormLimbs :=
  .ofTurns (form.nuduplReduceWithScratch fuel group.discriminant group.threshold group.scratch)

def multiply (left right : FormLimbs) : Proving FormLimbs :=
  .ofTurns (left.nucompReduceWithScratch fuel group.discriminant group.threshold group.scratch
    right)

def compose (left right : FormLimbs) : Proving FormLimbs :=
  .ofTurns (left.composeUnreduced fuel group.discriminant group.threshold group.scratch right)

def power (form : FormLimbs) (exponent : ℕ) : Proving FormLimbs :=
  .ofTurns (form.fastPowU64WithScratch fuel group.discriminant group.threshold group.scratch
    exponent)

def reduce (form : FormLimbs) : Proving FormLimbs :=
  .ofTurns (form.reduceWithScratch group.scratch fuel)

/-! ## Buckets -/

/-- Compose a form to a place that may be empty. -/
def accumulate (place : Option FormLimbs) (form : FormLimbs) : Proving FormLimbs :=
  match place with
  | some product => group.compose fuel product form
  | none => pure form

/-- One round of the checkpoint loop: the checkpoint goes to the bucket of its block. -/
def fillBucket (buckets : List (Option FormLimbs)) (entry : FormLimbs × Option ℕ) :
    Proving (List (Option FormLimbs)) :=
  match entry.2 with
  | none => pure buckets
  | some bucket => do
    let form ← group.accumulate fuel (buckets[bucket]?).join entry.1
    pure (buckets.set bucket (some form))

/-- One bucket of the inner loop of a pass. -/
def aggregateBucket (buckets : List (Option FormLimbs)) (product : Option FormLimbs) (index : ℕ) :
    Proving (Option FormLimbs) :=
  match (buckets[index]?).join with
  | some bucket => do
    let form ← group.accumulate fuel product bucket
    pure (some form)
  | none => pure product

/-- The composite of the filled buckets at some indices. -/
def aggregate (buckets : List (Option FormLimbs)) (indices : List ℕ) :
    Proving (Option FormLimbs) :=
  indices.foldlM (group.aggregateBucket fuel buckets) none

/-- Compose a power of an aggregate to the proof; nothing is done for the exponent zero or for an
empty aggregate. -/
def composeAggregate (proof : FormLimbs) (exponent : ℕ) (product : Option FormLimbs) :
    Proving FormLimbs :=
  match product with
  | some product =>
    if exponent ≠ 0 then do
      let aggregate ← group.power fuel product exponent
      group.compose fuel proof aggregate
    else pure proof
  | none => pure proof

/-- One row of a pass. -/
def composeRow (buckets : List (Option FormLimbs)) (columnCount : ℕ) (proof : FormLimbs)
    (b1 : ℕ) : Proving FormLimbs := do
  let product ← group.aggregate fuel buckets
    ((List.range columnCount).map fun b0 => b1 * columnCount + b0)
  group.composeAggregate fuel proof (b1 * columnCount) product

/-- One column of a pass. -/
def composeColumn (buckets : List (Option FormLimbs)) (rowCount columnCount : ℕ)
    (proof : FormLimbs) (b0 : ℕ) : Proving FormLimbs := do
  let product ← group.aggregate fuel buckets
    ((List.range rowCount).map fun b1 => b1 * columnCount + b0)
  group.composeAggregate fuel proof b0 product

/-- The row loop and the column loop of a pass. -/
def composeBuckets (buckets : List (Option FormLimbs)) (rowCount columnCount : ℕ)
    (proof : FormLimbs) : Proving FormLimbs := do
  let proof ← (List.range rowCount).foldlM (group.composeRow fuel buckets columnCount) proof
  (List.range columnCount).foldlM (group.composeColumn fuel buckets rowCount columnCount) proof

/-- One pass of `generate_checkpoint_proof_cancellable`. -/
def checkpointPass (checkpoints : List FormLimbs) (rounds : ℕ) (parameters : ProofParameters)
    (challenge step : ℕ) (proof : FormLimbs) (j : ℕ) : Proving FormLimbs := do
  let window ← Proving.ofResult (shiftOne parameters.k)
  let proof ← group.power fuel proof window
  let blocks ← Proving.ofResult (getBlocksForPass j parameters rounds challenge step)
  let buckets ← (checkpoints.zip blocks).foldlM (group.fillBucket fuel)
    (List.replicate parameters.bucketCount none)
  let rowCount ← Proving.ofResult (shiftOne (parameters.k / 2))
  let columnCount ← Proving.ofResult (shiftOne (parameters.k - parameters.k / 2))
  group.composeBuckets fuel buckets rowCount columnCount proof

/-! ## The provers -/

/-- `generate_checkpoint_proof_cancellable` with the challenge that it draws. -/
def generateCheckpointProof (challenge : ℕ) (checkpoints : List FormLimbs) (rounds : ℕ)
    (parameters : ProofParameters) : Proving FormLimbs := do
  let rowCount ← Proving.ofResult (shiftOne (parameters.k / 2))
  let columnCount ← Proving.ofResult (shiftOne (parameters.k - parameters.k / 2))
  let workPerPass ← Proving.ofResult (orError "proof progress calculation overflow"
    ((checkedAdd parameters.checkpointCount rowCount).bind fun value =>
      checkedAdd value columnCount))
  let _ ← Proving.ofResult (orError "proof progress calculation overflow"
    (checkedMul parameters.l workPerPass))
  let identity ← group.one
  let blockStepExponent ← Proving.ofResult (orError "proof block step overflow"
    (checkedMul parameters.k parameters.l))
  let proof ← (List.range parameters.l).reverse.foldlM
    (group.checkpointPass fuel checkpoints rounds parameters challenge
      (2 ^ blockStepExponent % challenge)) identity
  group.reduce fuel proof

/-- One round of the squaring loop of the checkpoint prover. -/
def squareWithCheckpoint (stride : ℕ) (state : FormLimbs × List FormLimbs) (completed : ℕ) :
    Proving (FormLimbs × List FormLimbs) := do
  let checkpoints := if completed % stride = 0 then state.2 ++ [state.1] else state.2
  let output ← group.square fuel state.1
  pure (output, checkpoints)

/-- `prove_checkpointed_cancellable`. -/
def proveCheckpointed (getB : FormLimbs → FormLimbs → Result ℕ) (generator : FormLimbs)
    (rounds : ℕ) (parameters : ProofParameters) : Proving (FormLimbs × FormLimbs) := do
  let stride ← Proving.ofResult (orError "checkpoint stride overflow"
    (checkedMul parameters.k parameters.l))
  let squared ← (List.range rounds).foldlM (group.squareWithCheckpoint fuel stride)
    (generator, [])
  let challenge ← Proving.ofResult (getB generator squared.1)
  let proof ← group.generateCheckpointProof fuel challenge squared.2 rounds parameters
  pure (squared.1, proof)

/-- One round of the division loop of the constant-memory prover. -/
def divideRound (generator : FormLimbs) (challenge : ℕ) (state : FormLimbs × ℕ) :
    Proving (FormLimbs × ℕ) := do
  let doubled := state.2 * 2
  let squared ← group.square fuel state.1
  if challenge ≤ doubled then do
    let proof ← group.multiply fuel squared generator
    pure (proof, doubled % challenge)
  else pure (squared, doubled % challenge)

/-- `prove_constant_memory_cancellable`. -/
def proveConstantMemory (getB : FormLimbs → FormLimbs → Result ℕ) (generator : FormLimbs)
    (rounds : ℕ) : Proving (FormLimbs × FormLimbs) := do
  let output ← (List.range rounds).foldlM (fun output _ => group.square fuel output) generator
  let challenge ← Proving.ofResult (getB generator output)
  let identity ← group.one
  let divided ← (List.range rounds).foldlM
    (fun state _ => group.divideRound fuel generator challenge state) (identity, 1 % challenge)
  pure (output, divided.1)

/-- `prove_cancellable`, given the window that the source estimates. -/
def prove (getB : FormLimbs → FormLimbs → Result ℕ) (generator : FormLimbs)
    (rounds k l memoryBudgetBytes : ℕ) : Proving (FormLimbs × FormLimbs) :=
  let limit := checkpointLimitForMemoryBudget memoryBudgetBytes
  if limit = 0 then group.proveConstantMemory fuel getB generator rounds
  else
    let parameters := (ProofParameters.forRounds rounds k l).fitCheckpointBudget rounds limit
    if maxCheckpoints < parameters.checkpointCount ∨ maxBuckets < parameters.bucketCount then
      group.proveConstantMemory fuel getB generator rounds
    else group.proveCheckpointed fuel getB generator rounds parameters

end ClassGroup

end Vdf

end Iuna
