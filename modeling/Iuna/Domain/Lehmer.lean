import Iuna.Domain.LimbInt

/-!
# Batched Euclidean algorithms

The extended gcds and the partial gcd of `limbs/mod.rs`.  A batch runs Euclidean steps on the
leading words of two remainders, with their cofactors in `i128`, and is applied to the remainders
and to the columns of cofactors as one linear combination.  A column is a pair `(old_s, s)`, and
the columns of the callers differ only in their number and first values.  The buffers `next_*`,
which every use overwrites, are left out.
-/

namespace Iuna

namespace Vdf

/-- A product or difference in `u64`. -/
def word (value : ℕ) : Run ℕ := if value < base then .ok value else .error .overflow

/-- A difference in `u64`. -/
def subWord (left right : ℕ) : Run ℕ :=
  if right ≤ left then .ok (left - right) else .error .overflow

/-- A value of the `i128` arithmetic. -/
def i128 (value : ℤ) : Run ℤ :=
  if -2 ^ 127 ≤ value ∧ value < 2 ^ 127 then .ok value else .error .overflow

/-- `shifted_low_word`. -/
def LimbInt.shiftedLowWord (self : LimbInt) (shiftBits : ℕ) : Run ℕ := do
  Outcome.bailIf self.isNegative .assertion
  let digitIndex := shiftBits / 64
  let offset := shiftBits % 64
  let low := self.limbs.getD digitIndex 0
  if offset = 0 then pure low
  else
    let high := self.limbs.getD (digitIndex + 1) 0
    pure ((low >>> offset) ||| (high <<< (64 - offset)) % base)

/-! ## The inner loop -/

/-- The variables of the inner loop: two words and their cofactors. -/
structure Batch where
  rr2 : ℕ
  rr1 : ℕ
  aa2 : ℤ
  aa1 : ℤ
  bb2 : ℤ
  bb1 : ℤ
  steps : ℕ
  deriving DecidableEq, Repr

/-- The test after a step: whether its quotient could differ from that of the whole remainders. -/
def Batch.stops (batch : Batch) (nextR : ℕ) (nextA nextB : ℤ) : Run Bool := do
  let rr1MinusNextR ← subWord batch.rr1 nextR
  if batch.steps % 2 = 1 then do
    let low ← i128 (-nextB)
    let high ← i128 (nextA - batch.aa1)
    pure (decide ((nextR : ℤ) < low ∨ (rr1MinusNextR : ℤ) < high))
  else do
    let low ← i128 (-nextA)
    let high ← i128 (nextB - batch.bb1)
    pure (decide ((nextR : ℤ) < low ∨ (rr1MinusNextR : ℤ) < high))

/-- One turn of the inner loop: the next variables, or none where it ends.  The threshold word is
zero in the loops that do not have one. -/
def Batch.next (thresholdWord : ℕ) (batch : Batch) : Run (Option Batch) :=
  if batch.rr1 = 0 ∨ batch.rr1 ≤ thresholdWord then pure none
  else
    let q := batch.rr2 / batch.rr1
    if q = 0 then pure none
    else do
      let nextR ← subWord batch.rr2 (← word (q * batch.rr1))
      let nextA ← i128 (batch.aa2 - (← i128 (q * batch.aa1)))
      let nextB ← i128 (batch.bb2 - (← i128 (q * batch.bb1)))
      let stop ← batch.stops nextR nextA nextB
      if stop then pure none
      else pure (some {
        rr2 := batch.rr1, rr1 := nextR
        aa2 := batch.aa1, aa1 := nextA
        bb2 := batch.bb1, bb1 := nextB
        steps := batch.steps + 1 })

/-- The inner loop.  Every turn lowers `rr1`, the number of turns that it is given. -/
def Batch.run (thresholdWord : ℕ) : ℕ → Batch → Run Batch
  | 0, batch => pure batch
  | fuel + 1, batch => do
    match ← batch.next thresholdWord with
    | none => pure batch
    | some batch => Batch.run thresholdWord fuel batch

/-- The words of two remainders, and the inner loop on them. -/
def lehmerBatch (threshold oldR r : LimbInt) : Run Batch := do
  let bits := oldR.bitLen - 63
  let rr2 ← oldR.shiftedLowWord bits
  let rr1 ← r.shiftedLowWord bits
  let thresholdWord ← threshold.shiftedLowWord bits
  Batch.run thresholdWord rr1 ⟨rr2, rr1, 0, 1, 1, 0, 0⟩

/-! ## One turn of the outer loops -/

/-- The variables of an outer loop. -/
structure GcdState where
  oldR : LimbInt
  r : LimbInt
  columns : List (LimbInt × LimbInt)
  scratch : LimbScratch
  deriving DecidableEq, Repr

/-- The linear combinations of a pair by the cofactors of a batch. -/
def combinePair (batch : Batch) (pair : LimbInt × LimbInt) (scratch : LimbScratch) :
    Run ((LimbInt × LimbInt) × LimbScratch) := do
  let (nextOld, scratch) ← LimbInt.linearCombinationI128Into pair.1 batch.bb2 pair.2 batch.aa2
    .zero scratch
  let (next, scratch) ← LimbInt.linearCombinationI128Into pair.2 batch.aa1 pair.1 batch.bb1
    .zero scratch
  pure ((nextOld, next), scratch)

/-- The linear combinations of all columns. -/
def combineColumns (batch : Batch) :
    List (LimbInt × LimbInt) → LimbScratch → Run (List (LimbInt × LimbInt) × LimbScratch)
  | [], scratch => pure ([], scratch)
  | column :: columns, scratch => do
    let (column, scratch) ← combinePair batch column scratch
    let (columns, scratch) ← combineColumns batch columns scratch
    pure (column :: columns, scratch)

/-- A negative `old_r` is negated, with its cofactors. -/
def GcdState.fixOld (state : GcdState) : GcdState :=
  if state.oldR.isNegative then
    { state with
      oldR := state.oldR.negated
      columns := state.columns.map fun column => (column.1.negated, column.2) }
  else state

/-- A negative `r` is negated, with its cofactors. -/
def GcdState.fixNew (state : GcdState) : GcdState :=
  if state.r.isNegative then
    { state with
      r := state.r.negated
      columns := state.columns.map fun column => (column.1, column.2.negated) }
  else state

/-- A batch applied to the remainders and the columns. -/
def GcdState.combine (state : GcdState) (batch : Batch) : Run GcdState := do
  let ((oldR, r), scratch) ← combinePair batch (state.oldR, state.r) state.scratch
  let (columns, scratch) ← combineColumns batch state.columns scratch
  pure (GcdState.fixNew (GcdState.fixOld ⟨oldR, r, columns, scratch⟩))

/-- A column after an exact division step. -/
def stepColumns (quotient : LimbInt) : List (LimbInt × LimbInt) → Run (List (LimbInt × LimbInt))
  | [] => pure []
  | (old, current) :: columns => do
    let product ← quotient.mulInto current .zero
    let next ← old.subAssign product
    let columns ← stepColumns quotient columns
    pure ((current, next) :: columns)

/-- The exact division step where a batch takes none. -/
def GcdState.fallback (state : GcdState) : Run GcdState := do
  let ((quotient, nextR), scratch) ← state.oldR.divRemWithScratch state.r state.scratch
  let columns ← stepColumns quotient state.columns
  pure ⟨state.r, nextR, columns, scratch⟩

/-- A batch, or an exact step where it takes none. -/
def GcdState.turn (threshold : LimbInt) (state : GcdState) : Run GcdState := do
  let batch ← lehmerBatch threshold state.oldR state.r
  if batch.steps ≠ 0 then state.combine batch else state.fallback

/-- The swap of the remainders and of the columns. -/
def GcdState.swap (state : GcdState) : GcdState :=
  { state with
    oldR := state.r
    r := state.oldR
    columns := state.columns.map Prod.swap }

/-- `old_r = r`, with its cofactors, where `r` is one. -/
def GcdState.takeNew (state : GcdState) : GcdState :=
  { state with
    oldR := state.r
    columns := state.columns.map fun column => (column.2, column.2) }

/-! ## The outer loops -/

/-- The loop of `extended_gcd_with_scratch` and `left_extended_gcd_with_scratch`, for at most
`fuel` turns. -/
def gcdLoop : ℕ → GcdState → Option (Run GcdState)
  | 0, _ => none
  | fuel + 1, state =>
    if state.r.isZero then some (pure state)
    else if state.oldR.isOne then some (pure state)
    else if state.r.isOne then some (pure state.takeNew)
    else
      let nonnegative := !state.oldR.isNegative && !state.r.isNegative
      if nonnegative && state.oldR.absCmp state.r = .lt then gcdLoop fuel state.swap
      else
        match if nonnegative then state.turn .zero else state.fallback with
        | .error fault => some (.error fault)
        | .ok state => gcdLoop fuel state

/-- The loop of `left_extended_gcd_positive_with_scratch`, for at most `fuel` turns. -/
def positiveGcdLoop : ℕ → GcdState → Option (Run GcdState)
  | 0, _ => none
  | fuel + 1, state =>
    if state.r.isZero then some (pure state)
    else if state.oldR.isOne then some (pure state)
    else if state.r.isOne then some (pure state.takeNew)
    else
      match state.turn .zero with
      | .error fault => some (.error fault)
      | .ok state => positiveGcdLoop fuel state

/-- The loop of `xgcd_partial_with_scratch`, for at most `fuel` turns. -/
def partialGcdLoop (threshold : LimbInt) : ℕ → GcdState → Option (Run GcdState)
  | 0, _ => none
  | fuel + 1, state =>
    if !state.r.isZero && state.r.cmp threshold = .gt then
      match state.turn threshold with
      | .error fault => some (.error fault)
      | .ok state => partialGcdLoop threshold fuel state
    else some (pure state)

/-- `ExtendedGcd`. -/
structure ExtendedGcd where
  x : LimbInt
  y : LimbInt
  gcd : LimbInt
  deriving DecidableEq, Repr

/-- `LeftExtendedGcd`. -/
structure LeftExtendedGcd where
  x : LimbInt
  gcd : LimbInt
  deriving DecidableEq, Repr

/-- The first column of a loop that ends. -/
def GcdState.column (state : GcdState) (index : ℕ) : LimbInt × LimbInt :=
  state.columns.getD index (.zero, .zero)

namespace LimbInt

/-- `extended_gcd_with_scratch`. -/
def extendedGcdWithScratch (fuel : ℕ) (self other : LimbInt) (scratch : LimbScratch) :
    Option (Run ExtendedGcd) :=
  (gcdLoop fuel ⟨self, other, [(one, zero), (zero, one)], scratch⟩).map fun run => do
    let state := (← run).fixOld
    pure ⟨(state.column 0).1, (state.column 1).1, state.oldR⟩

/-- `left_extended_gcd_with_scratch`. -/
def leftExtendedGcdWithScratch (fuel : ℕ) (self other : LimbInt) (scratch : LimbScratch) :
    Option (Run LeftExtendedGcd) :=
  (gcdLoop fuel ⟨self, other, [(one, zero)], scratch⟩).map fun run => do
    let state := (← run).fixOld
    pure ⟨(state.column 0).1, state.oldR⟩

/-- `left_extended_gcd_positive_with_scratch`. -/
def leftExtendedGcdPositiveWithScratch (fuel : ℕ) (self other : LimbInt) (scratch : LimbScratch) :
    Option (Run LeftExtendedGcd) :=
  if self.isNegative || other.isNegative then some (.error .assertion)
  else
    let state := if self.absCmp other = .lt
      then ⟨other, self, [(zero, one)], scratch⟩
      else ⟨self, other, [(one, zero)], scratch⟩
    (positiveGcdLoop fuel state).map fun run => do
      let state := (← run).fixOld
      pure ⟨(state.column 0).1, state.oldR⟩

end LimbInt

/-- `xgcd_partial_with_scratch`: `(co2, co1, r2, r1)`. -/
def xgcdPartialWithScratch (fuel : ℕ) (r2 r1 threshold : LimbInt) (scratch : LimbScratch) :
    Option (Run (LimbInt × LimbInt × LimbInt × LimbInt)) :=
  (partialGcdLoop threshold fuel ⟨r2, r1, [(.zero, LimbInt.fromI128 (-1))], scratch⟩).map
    fun run => do
      let state ← run
      if state.oldR.isNegative then
        pure ((state.column 0).1.negated, (state.column 0).2.negated, state.oldR.negated, state.r)
      else pure ((state.column 0).1, (state.column 0).2, state.oldR, state.r)

end Vdf

end Iuna
