import Iuna.Domain.Limbs

/-!
# Signed limb integers

The `LimbInt` of `limbs/mod.rs`: a sign and a magnitude.  A method that writes into `self`, into
an output or into a scratch returns what it leaves there; the old contents are arguments.
-/

namespace Iuna

namespace Vdf

/-- `Sign`. -/
inductive Sign where
  | negative
  | zero
  | positive
  deriving DecidableEq, Repr

/-- The sign of the negated number. -/
def Sign.flip : Sign → Sign
  | .negative => .positive
  | .zero => .zero
  | .positive => .negative

/-- `LimbInt`. -/
structure LimbInt where
  sign : Sign
  limbs : List ℕ
  deriving DecidableEq, Repr

/-- `LimbScratch`. -/
structure LimbScratch where
  division : DivisionScratch
  linearLeft : List ℕ
  linearRight : List ℕ
  deriving DecidableEq, Repr

/-- `LimbScratch::default`. -/
def LimbScratch.default : LimbScratch := ⟨.default, [], []⟩

/-- `signed_scalar_sign`. -/
def signedScalarSign (valueSign : Sign) (scalar : ℤ) : Sign :=
  if scalar = 0 ∨ valueSign = .zero then .zero
  else if scalar < 0 then valueSign.flip
  else valueSign

/-- `combine_signed_abs_limbs_into`: the sign and the limbs of the sum. -/
def combineSignedAbsLimbsInto (leftSign : Sign) (left : List ℕ) (rightSign : Sign)
    (right output : List ℕ) : Run (Sign × List ℕ) :=
  match leftSign, rightSign with
  | .zero, .zero => pure (.zero, [])
  | .zero, _ => pure (rightSign, right)
  | _, .zero => pure (leftSign, left)
  | .positive, .positive | .negative, .negative =>
    pure (leftSign, addAbsLimbsInto left right output)
  | .positive, .negative | .negative, .positive =>
    match cmpAbsLimbs left right with
    | .gt => do pure (leftSign, ← subAbsLimbsInto left right output)
    | .lt => do pure (rightSign, ← subAbsLimbsInto right left output)
    | .eq => pure (.zero, [])

namespace LimbInt

/-- `LimbInt::zero`. -/
def zero : LimbInt := ⟨.zero, []⟩

/-- `LimbInt::one`. -/
def one : LimbInt := ⟨.positive, [1]⟩

/-- The limbs of a magnitude, as `from_i128` pushes them. -/
def pushLimbs : ℕ → ℕ → List ℕ
  | 0, _ => []
  | fuel + 1, magnitude =>
    if magnitude > 0 then magnitude % base :: pushLimbs fuel (magnitude / base) else []

/-- `from_i128`. -/
def fromI128 (value : ℤ) : LimbInt :=
  if value = 0 then zero
  else ⟨if value < 0 then .negative else .positive, pushLimbs 2 value.natAbs⟩

/-- `from_parts`. -/
def fromParts (sign : Sign) (limbs : List ℕ) : LimbInt :=
  let limbs := trimLeadingZeroLimbs limbs
  ⟨if limbs = [] then .zero else sign, limbs⟩

/-- The output of an in-place operation: its sign is `Zero` when it has no limb. -/
def output (sign : Sign) (limbs : List ℕ) : LimbInt :=
  ⟨if limbs = [] then .zero else sign, limbs⟩

/-- `is_zero`. -/
def isZero (self : LimbInt) : Bool := self.sign = .zero

/-- `is_negative`. -/
def isNegative (self : LimbInt) : Bool := self.sign = .negative

/-- `is_one`. -/
def isOne (self : LimbInt) : Bool := self.sign = .positive && self.limbs = [1]

/-- `bit_len`. -/
def bitLen (self : LimbInt) : ℕ :=
  if self.limbs = [] then 0
  else (self.limbs.length - 1) * 64 + (64 - leadingZeros (self.limbs.getLastD 0))

/-! ## Comparison -/

/-- `abs_cmp`. -/
def absCmp (self other : LimbInt) : Ordering := cmpAbsLimbs self.limbs other.limbs

/-- `abs_cmp_double`. -/
def absCmpDouble (self other : LimbInt) : Run Ordering := cmpAbsToDouble self.limbs other.limbs

/-- `cmp`. -/
def cmp (self other : LimbInt) : Ordering :=
  match self.sign, other.sign with
  | .negative, .negative => cmpAbsLimbs other.limbs self.limbs
  | .negative, _ => .lt
  | _, .negative => .gt
  | .zero, .zero => .eq
  | .zero, .positive => .lt
  | .positive, .zero => .gt
  | .positive, .positive => cmpAbsLimbs self.limbs other.limbs

/-! ## Addition and subtraction -/

/-- `negated`. -/
def negated (self : LimbInt) : LimbInt := ⟨self.sign.flip, self.limbs⟩

/-- `abs`. -/
def abs (self : LimbInt) : LimbInt := if self.isZero then zero else ⟨.positive, self.limbs⟩

/-- `subtract_signed_abs`. -/
def subtractSignedAbs (positiveLimbs : List ℕ) (positiveSign : Sign) (negativeLimbs : List ℕ)
    (negativeSign : Sign) : Run LimbInt :=
  match cmpAbsLimbs positiveLimbs negativeLimbs with
  | .gt => do pure (fromParts positiveSign (← subAbsLimbs positiveLimbs negativeLimbs))
  | .lt => do pure (fromParts negativeSign (← subAbsLimbs negativeLimbs positiveLimbs))
  | .eq => pure zero

/-- `add`. -/
def add (self other : LimbInt) : Run LimbInt :=
  match self.sign, other.sign with
  | .zero, _ => pure other
  | _, .zero => pure self
  | .positive, .positive => pure (fromParts .positive (addAbsLimbs self.limbs other.limbs))
  | .negative, .negative => pure (fromParts .negative (addAbsLimbs self.limbs other.limbs))
  | .positive, .negative => subtractSignedAbs self.limbs .positive other.limbs .negative
  | .negative, .positive => subtractSignedAbs other.limbs .positive self.limbs .negative

/-- `add_into`. -/
def addInto (self other out : LimbInt) : Run LimbInt :=
  match self.sign, other.sign with
  | .zero, _ => pure other
  | _, .zero => pure self
  | .positive, .positive | .negative, .negative =>
    pure (output self.sign (addAbsLimbsInto self.limbs other.limbs out.limbs))
  | .positive, .negative | .negative, .positive => do
    let (sign, limbs) ←
      combineSignedAbsLimbsInto self.sign self.limbs other.sign other.limbs out.limbs
    pure (output sign limbs)

/-- The difference of two magnitudes in place of the first one, for operands whose signs make
the sum a difference: `sign` is the sign that the larger second magnitude gives. -/
def subMagnitudeAssign (self other : LimbInt) (sign : Sign) : Run LimbInt :=
  match cmpAbsLimbs self.limbs other.limbs with
  | .gt => do pure ⟨self.sign, ← subAbsLimbsAssign self.limbs other.limbs⟩
  | .lt => do pure ⟨sign, ← subAbsLimbs other.limbs self.limbs⟩
  | .eq => pure zero

/-- `add_assign`. -/
def addAssign (self other : LimbInt) : Run LimbInt :=
  match self.sign, other.sign with
  | .zero, _ => pure other
  | _, .zero => pure self
  | .positive, .positive | .negative, .negative =>
    pure ⟨self.sign, addAbsLimbsAssign self.limbs other.limbs⟩
  | .positive, .negative => subMagnitudeAssign self other .negative
  | .negative, .positive => subMagnitudeAssign self other .positive

/-- `add_owned`. -/
def addOwned (self other : LimbInt) : Run LimbInt := addAssign self other

/-- `sub_assign`. -/
def subAssign (self other : LimbInt) : Run LimbInt :=
  match self.sign, other.sign with
  | _, .zero => pure self
  | .zero, _ => pure other.negated
  | .positive, .positive => subMagnitudeAssign self other .negative
  | .negative, .negative => subMagnitudeAssign self other .positive
  | .positive, .negative | .negative, .positive =>
    pure ⟨self.sign, addAbsLimbsAssign self.limbs other.limbs⟩

/-- `sub`. -/
def sub (self other : LimbInt) : Run LimbInt := subAssign self other

/-- `sub_owned`. -/
def subOwned (self other : LimbInt) : Run LimbInt := subAssign self other

/-- `sub_into`. -/
def subInto (self other out : LimbInt) : Run LimbInt :=
  match self.sign, other.sign with
  | _, .zero => pure self
  | .zero, _ => pure other.negated
  | .positive, .positive | .negative, .negative =>
    match cmpAbsLimbs self.limbs other.limbs with
    | .gt => do pure ⟨self.sign, ← subAbsLimbsInto self.limbs other.limbs out.limbs⟩
    | .lt => do pure ⟨self.sign.flip, ← subAbsLimbsInto other.limbs self.limbs out.limbs⟩
    | .eq => pure zero
  | .positive, .negative | .negative, .positive =>
    pure (output self.sign (addAbsLimbsInto self.limbs other.limbs out.limbs))

/-! ## Multiplication -/

/-- The sign of a product or a quotient of numbers that are not zero. -/
def productSign (left right : Sign) : Sign := if left = right then .positive else .negative

/-- The `match` on the operands' limbs in `mul_into`, and in `mul` on a new output. -/
def mulMagnitudesInto (left right out : List ℕ) : Run (List ℕ) :=
  match left, right with
  | [scalar], value => mulAbsOneLimbInto value scalar out
  | value, [scalar] => mulAbsOneLimbInto value scalar out
  | left, right => mulAbsLimbsInto left right out

/-- `mul`. -/
def mul (self other : LimbInt) : Run LimbInt :=
  if self.isZero || other.isZero then pure zero
  else do
    let limbs ← mulMagnitudesInto self.limbs other.limbs []
    pure (fromParts (productSign self.sign other.sign) limbs)

/-- `mul_into`. -/
def mulInto (self other out : LimbInt) : Run LimbInt :=
  if self.isZero || other.isZero then pure zero
  else do
    let limbs ← mulMagnitudesInto self.limbs other.limbs out.limbs
    pure (output (productSign self.sign other.sign) limbs)

/-- `mul_i128`. -/
def mulI128 (self : LimbInt) (scalar : ℤ) : Run LimbInt :=
  if self.isZero || scalar = 0 then pure zero
  else if scalar = 1 then pure self
  else if scalar = -1 then pure self.negated
  else do
    let sign := if scalar < 0 then self.sign.flip else self.sign
    pure (fromParts sign (← mulAbsSmall self.limbs scalar.natAbs))

/-- `mul_i128_into`. -/
def mulI128Into (self : LimbInt) (scalar : ℤ) (_out : LimbInt) : Run LimbInt :=
  if self.isZero || scalar = 0 then pure zero
  else do
    let sign := if scalar < 0 then self.sign.flip else self.sign
    pure (output sign (← mulAbsSmallInto self.limbs scalar.natAbs []))

/-- `linear_combination_i128_into`. -/
def linearCombinationI128Into (left : LimbInt) (leftScalar : ℤ) (right : LimbInt)
    (rightScalar : ℤ) (out : LimbInt) (scratch : LimbScratch) : Run (LimbInt × LimbScratch) :=
  if leftScalar = 0 ∧ rightScalar = 0 then pure (zero, scratch)
  else if leftScalar = 0 then do pure (← right.mulI128Into rightScalar out, scratch)
  else if rightScalar = 0 then do pure (← left.mulI128Into leftScalar out, scratch)
  else
    let leftAbs := leftScalar.natAbs
    let rightAbs := rightScalar.natAbs
    let leftSign := signedScalarSign left.sign leftScalar
    let rightSign := signedScalarSign right.sign rightScalar
    if leftAbs = 1 ∧ rightAbs = 1 then do
      let (sign, limbs) ←
        combineSignedAbsLimbsInto leftSign left.limbs rightSign right.limbs out.limbs
      pure (output sign limbs, scratch)
    else if leftAbs = 1 then do
      let linearRight ← mulAbsSmallInto right.limbs rightAbs scratch.linearRight
      let (sign, limbs) ←
        combineSignedAbsLimbsInto leftSign left.limbs rightSign linearRight out.limbs
      pure (output sign limbs, { scratch with linearRight := linearRight })
    else if rightAbs = 1 then do
      let linearLeft ← mulAbsSmallInto left.limbs leftAbs scratch.linearLeft
      let (sign, limbs) ←
        combineSignedAbsLimbsInto leftSign linearLeft rightSign right.limbs out.limbs
      pure (output sign limbs, { scratch with linearLeft := linearLeft })
    else do
      let linearLeft ← mulAbsSmallInto left.limbs leftAbs scratch.linearLeft
      let linearRight ← mulAbsSmallInto right.limbs rightAbs scratch.linearRight
      let (sign, limbs) ←
        combineSignedAbsLimbsInto leftSign linearLeft rightSign linearRight out.limbs
      pure (output sign limbs,
        { scratch with linearLeft := linearLeft, linearRight := linearRight })

/-- `linear_combination_i128_with_scratch`. -/
def linearCombinationI128WithScratch (left : LimbInt) (leftScalar : ℤ) (right : LimbInt)
    (rightScalar : ℤ) (scratch : LimbScratch) : Run (LimbInt × LimbScratch) :=
  linearCombinationI128Into left leftScalar right rightScalar zero scratch

/-- `square`. -/
def square (self : LimbInt) : Run LimbInt :=
  if self.isZero then pure zero
  else do pure (fromParts .positive (← squareAbsLimbs self.limbs))

/-- `square_into`. -/
def squareInto (self out : LimbInt) : Run LimbInt :=
  if self.isZero then pure zero
  else do pure (output .positive (← mulAbsLimbsInto self.limbs self.limbs out.limbs))

/-! ## Shifts -/

/-- `shl_bits`. -/
def shlBits (self : LimbInt) (bits : ℕ) : LimbInt :=
  if self.isZero || bits = 0 then self
  else fromParts self.sign (shlAbsLimbs self.limbs bits)

/-- `shl_bits_into`. -/
def shlBitsInto (self : LimbInt) (bits : ℕ) (out : LimbInt) : LimbInt :=
  if self.isZero then zero
  else if bits = 0 then self
  else output self.sign (shlAbsLimbsInto self.limbs bits out.limbs)

/-- `shl_bits_assign`. -/
def shlBitsAssign (self : LimbInt) (bits : ℕ) : Run LimbInt :=
  if self.isZero || bits = 0 then pure self
  else do pure ⟨self.sign, ← shlAbsLimbsAssign self.limbs bits⟩

/-- `shl_bits_owned`. -/
def shlBitsOwned (self : LimbInt) (bits : ℕ) : Run LimbInt :=
  if self.isZero || bits = 0 then pure self
  else do pure ⟨self.sign, ← shlAbsLimbsAssign self.limbs bits⟩

/-- `shr_abs_bits`. -/
def shrAbsBits (self : LimbInt) (bits : ℕ) : LimbInt :=
  if self.isZero || bits = 0 then self.abs
  else fromParts .positive (shrAbsLimbs self.limbs bits)

/-- `div2_exact`. -/
def div2Exact (self : LimbInt) : Run LimbInt := do
  Outcome.bailIf (self.limbs.headD 0 % 2 ≠ 0) .assertion
  if self.isZero then pure zero
  else pure (fromParts self.sign (shrAbsLimbs self.limbs 1))

/-! ## Division -/

/-- The sign of a quotient with these limbs. -/
def quotientSign (self divisor : LimbInt) (limbs : List ℕ) : Sign :=
  if limbs = [] then .zero else productSign self.sign divisor.sign

/-- The sign of a remainder with these limbs. -/
def remainderSign (self : LimbInt) (limbs : List ℕ) : Sign :=
  if limbs = [] then .zero else self.sign

/-- `div_rem_with_scratch`. -/
def divRemWithScratch (self divisor : LimbInt) (scratch : LimbScratch) :
    Run ((LimbInt × LimbInt) × LimbScratch) := do
  Outcome.bailIf divisor.isZero .divisionByZero
  if self.isZero then pure ((zero, zero), scratch)
  else do
    let ((quotientLimbs, remainderLimbs), division) ←
      divRemAbsLimbsWithScratch self.limbs divisor.limbs scratch.division
    pure ((fromParts (quotientSign self divisor quotientLimbs) quotientLimbs,
      fromParts (remainderSign self remainderLimbs) remainderLimbs),
      { scratch with division := division })

/-- `div_rem`. -/
def divRem (self divisor : LimbInt) : Run (LimbInt × LimbInt) := do
  let (result, _) ← self.divRemWithScratch divisor .default
  pure result

/-- `rem`. -/
def rem (self divisor : LimbInt) : Run LimbInt := do
  let (_, remainder) ← self.divRem divisor
  pure remainder

/-- `rem_with_scratch`. -/
def remWithScratch (self divisor : LimbInt) (scratch : LimbScratch) :
    Run (LimbInt × LimbScratch) := do
  Outcome.bailIf divisor.isZero .divisionByZero
  if self.isZero then pure (zero, scratch)
  else do
    let (remainderLimbs, division) ←
      remAbsLimbsWithScratch self.limbs divisor.limbs scratch.division
    pure (fromParts (remainderSign self remainderLimbs) remainderLimbs,
      { scratch with division := division })

/-- `div`. -/
def div (self divisor : LimbInt) : Run LimbInt := do
  let (quotient, _) ← self.divRem divisor
  pure quotient

/-- `div_with_scratch`. -/
def divWithScratch (self divisor : LimbInt) (scratch : LimbScratch) :
    Run (LimbInt × LimbScratch) := do
  Outcome.bailIf divisor.isZero .divisionByZero
  if self.isZero then pure (zero, scratch)
  else
    let unit := if self.sign = divisor.sign then one else fromI128 (-1)
    let long : Run (LimbInt × LimbScratch) := do
      let (quotientLimbs, division) ←
        divAbsLimbsWithScratch self.limbs divisor.limbs scratch.division
      pure (fromParts (quotientSign self divisor quotientLimbs) quotientLimbs,
        { scratch with division := division })
    match self.absCmp divisor with
    | .lt => pure (zero, scratch)
    | .eq => pure (unit, scratch)
    | .gt => do
      if (← cmpAbsToDouble self.limbs divisor.limbs) = .lt then pure (unit, scratch) else long

/-- `finish_div_floor`. -/
def finishDivFloor (self divisor quotient remainder : LimbInt) : Run LimbInt :=
  if remainder.isZero || self.sign = divisor.sign then pure quotient
  else quotient.sub one

/-- `div_floor`. -/
def divFloor (self divisor : LimbInt) : Run LimbInt := do
  let (quotient, remainder) ← self.divRem divisor
  finishDivFloor self divisor quotient remainder

/-- `div_floor_with_scratch`. -/
def divFloorWithScratch (self divisor : LimbInt) (scratch : LimbScratch) :
    Run (LimbInt × LimbScratch) := do
  Outcome.bailIf divisor.isZero .divisionByZero
  if self.isZero then pure (zero, scratch)
  else
    let same := self.sign = divisor.sign
    let long : Run (LimbInt × LimbScratch) :=
      if same then do
        let (quotientLimbs, division) ←
          divAbsLimbsWithScratch self.limbs divisor.limbs scratch.division
        pure (fromParts (if quotientLimbs = [] then .zero else .positive) quotientLimbs,
          { scratch with division := division })
      else do
        let ((quotient, remainder), scratch) ← self.divRemWithScratch divisor scratch
        pure (← finishDivFloor self divisor quotient remainder, scratch)
    match self.absCmp divisor with
    | .lt => pure (if same then zero else fromI128 (-1), scratch)
    | .eq => pure (if same then one else fromI128 (-1), scratch)
    | .gt => do
      if (← cmpAbsToDouble self.limbs divisor.limbs) = .lt then
        pure (if same then one else fromI128 (-2), scratch)
      else long

/-- `mod_positive_with_scratch`. -/
def modPositiveWithScratch (self modulus : LimbInt) (scratch : LimbScratch) :
    Run (LimbInt × LimbScratch) := do
  Outcome.bailIf modulus.isZero .divisionByZero
  if self.isZero then pure (zero, scratch)
  else if self.absCmp modulus = .lt then
    if self.isNegative then do pure (← self.add modulus, scratch) else pure (self, scratch)
  else do
    let (remainderLimbs, division) ←
      remAbsLimbsWithScratch self.limbs modulus.limbs scratch.division
    let scratch := { scratch with division := division }
    let remainder := fromParts (remainderSign self remainderLimbs) remainderLimbs
    if remainder.isNegative then do pure (← remainder.add modulus, scratch)
    else pure (remainder, scratch)

/-- `mod_positive`. -/
def modPositive (self modulus : LimbInt) : Run LimbInt := do
  let (remainder, _) ← self.modPositiveWithScratch modulus .default
  pure remainder

end LimbInt

end Vdf

end Iuna
