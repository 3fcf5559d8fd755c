import Iuna.Library.Outcome
import Mathlib.Data.List.DropRight

/-!
# Limb magnitudes

The magnitude arithmetic of `limbs/mod.rs`.  A vector of `u64` limbs is a list of naturals, the
lowest limb first; the loops run over the lists in the order of the source's indices.  An index
past the end of a vector, a sum or product past its type and a failed assertion are faults.
Buffers that a function clears before it writes are kept as arguments.
-/

namespace Iuna

namespace Vdf

/-- What stops the limb arithmetic: a panic of the source. -/
inductive Fault where
  | indexOutOfRange
  | overflow
  | divisionByZero
  | assertion
  deriving DecidableEq, Repr

/-- A computation that may panic. -/
abbrev Run := Except Fault

/-- The values of a `u64`. -/
def base : ℕ := 2 ^ 64

/-- A sum or product in `u128`. -/
def wide (value : ℕ) : Run ℕ := if value < 2 ^ 128 then .ok value else .error .overflow

/-- `limbs[index]`. -/
def limbAt (limbs : List ℕ) (index : ℕ) : Run ℕ :=
  Outcome.ofOption .indexOutOfRange limbs[index]?

/-- `u64::overflowing_add`. -/
def overflowingAdd (left right : ℕ) : ℕ × Bool :=
  ((left + right) % base, decide (base ≤ left + right))

/-- `u64::overflowing_sub`. -/
def overflowingSub (left right : ℕ) : ℕ × Bool :=
  ((left + base - right) % base, decide (left < right))

/-- `u64::leading_zeros`. -/
def leadingZeros (limb : ℕ) : ℕ := if limb = 0 then 64 else 63 - limb.log2

/-- `trim_leading_zero_limbs`. -/
def trimLeadingZeroLimbs (limbs : List ℕ) : List ℕ := limbs.rdropWhile (· == 0)

/-! ## Comparison -/

/-- `Iterator::cmp`, over the limbs from the highest. -/
def cmpLimbs : List ℕ → List ℕ → Ordering
  | [], [] => .eq
  | [], _ :: _ => .lt
  | _ :: _, [] => .gt
  | l :: ls, r :: rs =>
    match compare l r with
    | .eq => cmpLimbs ls rs
    | other => other

/-- `cmp_abs_limbs`. -/
def cmpAbsLimbs (left right : List ℕ) : Ordering :=
  match compare left.length right.length with
  | .eq => cmpLimbs left.reverse right.reverse
  | other => other

/-- `shifted_left_one_limb_unchecked`. -/
def shiftedLeftOneLimbUnchecked (limbs : List ℕ) (index : ℕ) : Run ℕ :=
  let low : Run ℕ := if index < limbs.length then
      (fun limb => (limb <<< 1) % base) <$> limbAt limbs index
    else pure 0
  let carry : Run ℕ := if index = 0 then pure 0
    else (fun limb => limb >>> 63) <$> limbAt limbs (index - 1)
  do pure ((← low) ||| (← carry))

/-- The loop of `cmp_abs_to_double`, with `count` limbs left to compare. -/
def cmpDoubleLoop (left right : List ℕ) : ℕ → Run Ordering
  | 0 => pure .eq
  | index + 1 => do
    let doubledLimb ← shiftedLeftOneLimbUnchecked right index
    let limb ← limbAt left index
    match compare limb doubledLimb with
    | .eq => cmpDoubleLoop left right index
    | other => pure other

/-- `cmp_abs_to_double`. -/
def cmpAbsToDouble (left right : List ℕ) : Run Ordering := do
  Outcome.bailIf (right = []) .assertion
  let doubledLen := right.length + if right.getLastD 0 >>> 63 ≠ 0 then 1 else 0
  match compare left.length doubledLen with
  | .eq => cmpDoubleLoop left right doubledLen
  | other => pure other

/-! ## Addition and subtraction -/

/-- One limb of a sum, with the carry that it leaves. -/
def addLimb (left right carry : ℕ) : ℕ × ℕ :=
  let (sum, carryA) := overflowingAdd left right
  let (sum, carryB) := overflowingAdd sum carry
  (sum, (carryA || carryB).toNat)

/-- The loop over the limbs that both operands have. -/
def addShared : List ℕ → List ℕ → ℕ → List ℕ × ℕ
  | l :: ls, r :: rs, carry =>
    let (sum, carry) := addLimb l r carry
    let (output, carry) := addShared ls rs carry
    (sum :: output, carry)
  | _, _, carry => ([], carry)

/-- The loop over the limbs that only the longer operand has. -/
def addRemaining : List ℕ → ℕ → List ℕ × ℕ
  | [], carry => ([], carry)
  | l :: ls, carry =>
    let (sum, overflowed) := overflowingAdd l carry
    let (output, carry) := addRemaining ls overflowed.toNat
    (sum :: output, carry)

/-- `add_abs_limbs_into`. -/
def addAbsLimbsInto (left right _output : List ℕ) : List ℕ :=
  let sharedLen := min left.length right.length
  let (low, carry) := addShared left right 0
  let remaining := if left.length > right.length then left.drop sharedLen
    else right.drop sharedLen
  let (high, carry) := addRemaining remaining carry
  low ++ high ++ if carry ≠ 0 then [carry] else []

/-- `add_abs_limbs`. -/
def addAbsLimbs (left right : List ℕ) : List ℕ := addAbsLimbsInto left right []

/-- `add_abs_limbs_assign`: the sum takes the place of `left`. -/
def addAbsLimbsAssign (left right : List ℕ) : List ℕ :=
  let sharedLen := min left.length right.length
  let (low, carry) := addShared left right 0
  let (high, carry) := if right.length > left.length
    then addRemaining (right.drop sharedLen) carry
    else addRemaining (left.drop sharedLen) carry
  low ++ high ++ if carry ≠ 0 then [carry] else []

/-- One limb of a difference, with the borrow that it leaves. -/
def subLimb (left right borrow : ℕ) : ℕ × ℕ :=
  let (difference, borrowA) := overflowingSub left right
  let (difference, borrowB) := overflowingSub difference borrow
  (difference, (borrowA || borrowB).toNat)

/-- The loop over the limbs of the subtrahend. -/
def subShared : List ℕ → List ℕ → ℕ → Run (List ℕ × ℕ)
  | _, [], borrow => pure ([], borrow)
  | [], _ :: _, _ => .error .indexOutOfRange
  | l :: ls, r :: rs, borrow => do
    let (difference, borrow) := subLimb l r borrow
    let (output, borrow) ← subShared ls rs borrow
    pure (difference :: output, borrow)

/-- The loop over the limbs above the subtrahend. -/
def subRemaining : List ℕ → ℕ → List ℕ × ℕ
  | [], borrow => ([], borrow)
  | l :: ls, borrow =>
    let (difference, borrowed) := overflowingSub l borrow
    let (output, borrow) := subRemaining ls borrowed.toNat
    (difference :: output, borrow)

/-- `sub_abs_limbs_into`. -/
def subAbsLimbsInto (left right _output : List ℕ) : Run (List ℕ) := do
  Outcome.bailIf (cmpAbsLimbs left right = .lt) .assertion
  let (low, borrow) ← subShared left right 0
  let (high, borrow) := subRemaining (left.drop right.length) borrow
  Outcome.bailIf (borrow ≠ 0) .assertion
  pure (trimLeadingZeroLimbs (low ++ high))

/-- `sub_abs_limbs`. -/
def subAbsLimbs (left right : List ℕ) : Run (List ℕ) := subAbsLimbsInto left right []

/-- The loop of `sub_abs_limbs_assign` above the subtrahend: it ends with the borrow. -/
def subWhileBorrow : List ℕ → ℕ → List ℕ × ℕ
  | ls, 0 => (ls, 0)
  | [], borrow => ([], borrow)
  | l :: ls, borrow + 1 =>
    let (difference, borrowed) := overflowingSub l (borrow + 1)
    let (output, borrow) := subWhileBorrow ls borrowed.toNat
    (difference :: output, borrow)

/-- `sub_abs_limbs_assign`: the difference takes the place of `left`. -/
def subAbsLimbsAssign (left right : List ℕ) : Run (List ℕ) := do
  Outcome.bailIf (cmpAbsLimbs left right = .lt) .assertion
  let (low, borrow) ← subShared left right 0
  let (high, borrow) := subWhileBorrow (left.drop right.length) borrow
  Outcome.bailIf (borrow ≠ 0) .assertion
  pure (trimLeadingZeroLimbs (low ++ high))

/-! ## Multiplication -/

/-- The loop `while carry != 0` over the limbs from the one that the carry goes to. -/
def carryUp : List ℕ → ℕ → Run (List ℕ)
  | limbs, 0 => pure limbs
  | [], _ + 1 => .error .indexOutOfRange
  | limb :: limbs, carry + 1 => do
    let sum ← wide (limb + (carry + 1))
    let limbs ← carryUp limbs (sum / base)
    pure (sum % base :: limbs)

/-- One turn of the outer loop of `mul_abs_limbs_into`: `leftLimb` times the inner operand is
added to the output from its limb `left_index` on. -/
def mulRow (leftLimb : ℕ) : List ℕ → List ℕ → ℕ → Run (List ℕ)
  | [], output, carry => carryUp output carry
  | _ :: _, [], _ => .error .indexOutOfRange
  | rightLimb :: inner, limb :: output, carry => do
    let product ← wide (leftLimb * rightLimb + limb + carry)
    let output ← mulRow leftLimb inner output (product / base)
    pure (product % base :: output)

/-- The outer loop of `mul_abs_limbs_into`, on the output from the limb `left_index` on. -/
def mulLoop (inner : List ℕ) : List ℕ → List ℕ → Run (List ℕ)
  | [], output => pure output
  | leftLimb :: outer, output => do
    match ← mulRow leftLimb inner output 0 with
    | [] => .error .indexOutOfRange
    | limb :: output =>
      let output ← mulLoop inner outer output
      pure (limb :: output)

/-- `mul_abs_limbs_into`. -/
def mulAbsLimbsInto (left right _output : List ℕ) : Run (List ℕ) :=
  if left = [] ∨ right = [] then pure []
  else do
    let (outer, inner) := if left.length ≤ right.length then (left, right) else (right, left)
    let output ← mulLoop inner outer (List.replicate (outer.length + inner.length) 0)
    pure (trimLeadingZeroLimbs output)

/-- `mul_abs_limbs`. -/
def mulAbsLimbs (left right : List ℕ) : Run (List ℕ) := mulAbsLimbsInto left right []

/-- `square_abs_limbs`. -/
def squareAbsLimbs (value : List ℕ) : Run (List ℕ) := mulAbsLimbs value value

/-- The loop of `mul_abs_one_limb_into`. -/
def mulOneLoop (scalar : ℕ) : List ℕ → ℕ → Run (List ℕ × ℕ)
  | [], carry => pure ([], carry)
  | limb :: limbs, carry => do
    let product ← wide (limb * scalar + carry)
    let (output, carry) ← mulOneLoop scalar limbs (product / base)
    pure (product % base :: output, carry)

/-- `mul_abs_one_limb_into`. -/
def mulAbsOneLimbInto (value : List ℕ) (scalar : ℕ) (_output : List ℕ) : Run (List ℕ) :=
  if value = [] ∨ scalar = 0 then pure []
  else if scalar = 1 then pure value
  else do
    let (output, carry) ← mulOneLoop scalar value 0
    pure (output ++ if carry ≠ 0 then [carry % base] else [])

/-- `ensure_len`. -/
def ensureLen (output : List ℕ) (len : ℕ) : List ℕ :=
  output ++ List.replicate (len - output.length) 0

/-- The carry loop of `add_u128_at`, which lengthens the output by a zero limb at its end. -/
def carryGrowing : List ℕ → ℕ → List ℕ
  | limbs, 0 => limbs
  | [], carry + 1 => [(overflowingAdd 0 (carry + 1)).1]
  | limb :: limbs, carry + 1 =>
    let (sum, overflowed) := overflowingAdd limb (carry + 1)
    sum :: carryGrowing limbs overflowed.toNat

/-- `add_u128_at`. -/
def addU128At (output : List ℕ) (index value : ℕ) : Run (List ℕ) :=
  let low := value % base
  let high := value / base % base
  let output := ensureLen output (index + 2)
  match output.drop index with
  | first :: second :: rest =>
    let (sumLow, carryLow) := overflowingAdd first low
    let (sumHigh, carryHighA) := overflowingAdd second high
    let (sumHigh, carryHighB) := overflowingAdd sumHigh carryLow.toNat
    let rest := carryGrowing rest (carryHighA.toNat + carryHighB.toNat)
    pure (output.take index ++ sumLow :: sumHigh :: rest)
  | _ => .error .indexOutOfRange

/-- The loops of `mul_abs_small_into`: the products of the limbs with one half of the scalar. -/
def addProducts (scalar : ℕ) : List ℕ → ℕ → List ℕ → Run (List ℕ)
  | [], _, output => pure output
  | limb :: limbs, index, output => do
    let output ← addU128At output index (limb * scalar)
    addProducts scalar limbs (index + 1) output

/-- `mul_abs_small_into`. -/
def mulAbsSmallInto (value : List ℕ) (scalar : ℕ) (_output : List ℕ) : Run (List ℕ) :=
  if value = [] ∨ scalar = 0 then pure []
  else if scalar = 1 then pure value
  else
    let scalarLow := scalar % base
    let scalarHigh := scalar / base % base
    if scalarHigh = 0 then mulAbsOneLimbInto value scalarLow []
    else do
      let output := List.replicate (value.length + 2) 0
      let output ← if scalarLow ≠ 0 then addProducts scalarLow value 0 output else pure output
      let output ← if scalarHigh ≠ 0 then addProducts scalarHigh value 1 output else pure output
      pure (trimLeadingZeroLimbs output)

/-- `mul_abs_small`. -/
def mulAbsSmall (value : List ℕ) (scalar : ℕ) : Run (List ℕ) := mulAbsSmallInto value scalar []

/-! ## Shifts -/

/-- The loop of a left shift by `bitShift` bits, less than a limb. -/
def shlLoop (bitShift : ℕ) : List ℕ → ℕ → List ℕ × ℕ
  | [], carry => ([], carry)
  | limb :: limbs, carry =>
    let (output, last) := shlLoop bitShift limbs (limb >>> (64 - bitShift))
    (((limb <<< bitShift) % base ||| carry) :: output, last)

/-- `shl_abs_limbs_small_into`. -/
def shlAbsLimbsSmallInto (value : List ℕ) (bitShift : ℕ) (_output : List ℕ) : List ℕ :=
  let (output, carry) := shlLoop bitShift value 0
  output ++ if carry ≠ 0 then [carry] else []

/-- `shl_abs_limbs_into`. -/
def shlAbsLimbsInto (value : List ℕ) (bits : ℕ) (output : List ℕ) : List ℕ :=
  if value = [] then []
  else if bits = 0 then value
  else
    let limbShift := bits / 64
    let bitShift := bits % 64
    if limbShift = 0 ∧ bitShift ≠ 0 then shlAbsLimbsSmallInto value bitShift output
    else if bitShift = 0 then
      trimLeadingZeroLimbs (List.replicate limbShift 0 ++ value)
    else
      let (output, carry) := shlLoop bitShift value 0
      trimLeadingZeroLimbs (List.replicate limbShift 0 ++ output ++ [carry])

/-- `shl_abs_limbs`. -/
def shlAbsLimbs (value : List ℕ) (bits : ℕ) : List ℕ := shlAbsLimbsInto value bits []

/-- `shl_abs_limbs_small_assign`. -/
def shlAbsLimbsSmallAssign (value : List ℕ) (bitShift : ℕ) : List ℕ :=
  let (output, carry) := shlLoop bitShift value 0
  output ++ if carry ≠ 0 then [carry] else []

/-- One turn of the loop of `shl_abs_limbs_assign`, which runs from the highest limb down: the
limb is written below the limbs `upper` that are in place, its high bits into the lowest one. -/
def shlDown (bitShift limb : ℕ) (upper : List ℕ) : Run (List ℕ) :=
  if bitShift = 0 then pure ((limb <<< bitShift) % base :: upper)
  else match upper with
    | [] => .error .indexOutOfRange
    | next :: upper =>
      pure ((limb <<< bitShift) % base :: (next ||| limb >>> (64 - bitShift)) :: upper)

/-- `shl_abs_limbs_assign`. -/
def shlAbsLimbsAssign (value : List ℕ) (bits : ℕ) : Run (List ℕ) :=
  if value = [] ∨ bits = 0 then pure value
  else
    let limbShift := bits / 64
    let bitShift := bits % 64
    if limbShift = 0 ∧ bitShift ≠ 0 then pure (shlAbsLimbsSmallAssign value bitShift)
    else do
      let upper ← value.foldrM (shlDown bitShift) (if bitShift ≠ 0 then [0] else [])
      pure (trimLeadingZeroLimbs (List.replicate limbShift 0 ++ upper))

/-- The loop of a right shift by `bitShift` bits, less than a limb. -/
def shrLoop (bitShift : ℕ) : List ℕ → List ℕ
  | [] => []
  | limb :: limbs =>
    (if bitShift = 0 then limb >>> bitShift
      else (limb >>> bitShift) ||| (limbs.headD 0 <<< (64 - bitShift)) % base) ::
      shrLoop bitShift limbs

/-- `shr_abs_limbs_small_into`. -/
def shrAbsLimbsSmallInto (value : List ℕ) (bitShift : ℕ) (_output : List ℕ) : List ℕ :=
  trimLeadingZeroLimbs (shrLoop bitShift value)

/-- `shr_abs_limbs_into`. -/
def shrAbsLimbsInto (value : List ℕ) (bits : ℕ) (output : List ℕ) : List ℕ :=
  let limbShift := bits / 64
  if limbShift ≥ value.length then []
  else
    let bitShift := bits % 64
    if limbShift = 0 ∧ bitShift ≠ 0 then shrAbsLimbsSmallInto value bitShift output
    else trimLeadingZeroLimbs (shrLoop bitShift (value.drop limbShift))

/-- `shr_abs_limbs`. -/
def shrAbsLimbs (value : List ℕ) (bits : ℕ) : List ℕ := shrAbsLimbsInto value bits []

/-! ## Long division -/

/-- `DivisionScratch`: the buffers that a division leaves behind. -/
structure DivisionScratch where
  normalizedNumerator : List ℕ
  normalizedDenominator : List ℕ
  quotient : List ℕ
  remainder : List ℕ
  deriving DecidableEq, Repr

/-- `DivisionScratch::default`. -/
def DivisionScratch.default : DivisionScratch := ⟨[], [], [], []⟩

/-- The loop of `div_rem_abs_one_limb_into`, from the highest limb down. -/
def divOneLimbLoop (denominator : ℕ) : List ℕ → List ℕ × ℕ
  | [] => ([], 0)
  | limb :: limbs =>
    let (quotient, remainder) := divOneLimbLoop denominator limbs
    let value := remainder * base + limb
    (value / denominator % base :: quotient, value % denominator)

/-- `div_rem_abs_one_limb_into`: the quotient and the remainder. -/
def divRemAbsOneLimbInto (numerator : List ℕ) (denominator : ℕ)
    (keepQuotient keepRemainder : Bool) : Run (List ℕ × List ℕ) := do
  Outcome.bailIf (denominator = 0) .assertion
  let (quotient, remainder) := divOneLimbLoop denominator numerator
  pure (if keepQuotient then trimLeadingZeroLimbs quotient else [],
    if keepRemainder && remainder ≠ 0 then [remainder % base] else [])

/-- `estimate_quotient`. -/
def estimateQuotient (high low denominatorHigh : ℕ) : Run (ℕ × ℕ × Bool) :=
  if high = denominatorHigh then
    let (remainder, overflowed) := overflowingAdd low denominatorHigh
    pure (base - 1, remainder, overflowed)
  else do
    let numerator := high * base + low
    Outcome.bailIf (denominatorHigh = 0) .divisionByZero
    pure (numerator / denominatorHigh % base, numerator % denominatorHigh % base, false)

/-- `quotient_too_large`. -/
def quotientTooLarge (qhat rhat denominatorNext numeratorNext : ℕ) : Bool :=
  rhat * base + numeratorNext < qhat * denominatorNext

/-- The loop that lowers the estimate `qhat`. -/
def lowerQuotient (denominatorHigh denominatorNext numeratorNext : ℕ) :
    ℕ → ℕ → Bool → Run ℕ
  | 0, rhat, rhatOverflowed =>
    if !rhatOverflowed && quotientTooLarge 0 rhat denominatorNext numeratorNext then
      .error .overflow
    else pure 0
  | qhat + 1, rhat, rhatOverflowed =>
    if !rhatOverflowed && quotientTooLarge (qhat + 1) rhat denominatorNext numeratorNext then
      let (nextRhat, overflowed) := overflowingAdd rhat denominatorHigh
      lowerQuotient denominatorHigh denominatorNext numeratorNext qhat nextRhat overflowed
    else pure (qhat + 1)

/-- The loop of `sub_mul_at`, on the target from the limb `offset` on. -/
def subMulLoop (multiplier : ℕ) : List ℕ → List ℕ → ℕ → Run (List ℕ × Bool)
  | _, [], _ => .error .indexOutOfRange
  | [], limb :: target, carry =>
    let (difference, borrowed) := overflowingSub limb (carry % base)
    pure (difference :: target, borrowed || decide (carry / base ≠ 0))
  | valueLimb :: value, limb :: target, carry => do
    let product ← wide (multiplier * valueLimb + carry)
    let (difference, borrowed) := overflowingSub limb (product % base)
    let (target, borrowedOut) ← subMulLoop multiplier value target
      (product / base + borrowed.toNat)
    pure (difference :: target, borrowedOut)

/-- `sub_mul_at`: the target, and whether the product was larger. -/
def subMulAt (target value : List ℕ) (multiplier offset : ℕ) : Run (List ℕ × Bool) :=
  if multiplier = 0 then pure (target, false)
  else do
    let (window, borrowed) ← subMulLoop multiplier value (target.drop offset) 0
    pure (target.take offset ++ window, borrowed)

/-- The loops of `add_at`, on the target from the limb `offset` on. -/
def addAtLoop : List ℕ → List ℕ → ℕ → Run (List ℕ)
  | [], target, carry => carryUp target carry
  | _ :: _, [], _ => .error .indexOutOfRange
  | valueLimb :: value, limb :: target, carry => do
    let sum ← wide (limb + valueLimb + carry)
    let target ← addAtLoop value target (sum / base)
    pure (sum % base :: target)

/-- `add_at`. -/
def addAt (target value : List ℕ) (offset : ℕ) : Run (List ℕ) := do
  let window ← addAtLoop value (target.drop offset) 0
  pure (target.take offset ++ window)

/-- The estimate of one quotient limb: guess and correction. -/
def guessQuotient (numerator denominator : List ℕ) (quotientIndex : ℕ) : Run ℕ := do
  let denominatorLen := denominator.length
  let high ← limbAt numerator (quotientIndex + denominatorLen)
  let low ← limbAt numerator (quotientIndex + denominatorLen - 1)
  let denominatorHigh ← limbAt denominator (denominatorLen - 1)
  let (qhat, rhat, rhatOverflowed) ← estimateQuotient high low denominatorHigh
  if denominatorLen > 1 then do
    let nextDenominatorLimb ← limbAt denominator (denominatorLen - 2)
    let nextNumeratorLimb ← limbAt numerator (quotientIndex + denominatorLen - 2)
    lowerQuotient denominatorHigh nextDenominatorLimb nextNumeratorLimb qhat rhat rhatOverflowed
  else pure qhat

/-- One turn of the long division: a limb of the quotient, and the numerator less its multiple
of the denominator. -/
def divisionStep (numerator denominator : List ℕ) (quotientIndex : ℕ) :
    Run (ℕ × List ℕ) := do
  let qhat ← guessQuotient numerator denominator quotientIndex
  let (numerator, borrowed) ← subMulAt numerator denominator qhat quotientIndex
  if borrowed then do
    Outcome.bailIf (qhat = 0) .overflow
    let numerator ← addAt numerator denominator quotientIndex
    pure (qhat - 1, numerator)
  else pure (qhat, numerator)

/-- The loop of the long division, with `quotientLen` limbs of the quotient to come. -/
def divisionLoop (denominator : List ℕ) : ℕ → List ℕ → Run (List ℕ × List ℕ)
  | 0, numerator => pure ([], numerator)
  | quotientIndex + 1, numerator => do
    let (qhat, numerator) ← divisionStep numerator denominator quotientIndex
    let (quotient, numerator) ← divisionLoop denominator quotientIndex numerator
    pure (quotient ++ [qhat], numerator)

/-- `div_rem_abs_limbs_into_scratch`. -/
def divRemAbsLimbsIntoScratch (numerator denominator : List ℕ) (scratch : DivisionScratch)
    (keepQuotient keepRemainder : Bool) : Run DivisionScratch := do
  Outcome.bailIf (denominator = []) .assertion
  let scratch := { scratch with quotient := [], remainder := [] }
  if numerator = [] then pure scratch
  else if cmpAbsLimbs numerator denominator = .lt then
    pure { scratch with remainder := if keepRemainder then numerator else [] }
  else if denominator = [1] then
    pure { scratch with quotient := if keepQuotient then numerator else [] }
  else if denominator.length = 1 then do
    let denominatorLimb ← limbAt denominator 0
    let (quotient, remainder) ←
      divRemAbsOneLimbInto numerator denominatorLimb keepQuotient keepRemainder
    pure { scratch with quotient := quotient, remainder := remainder }
  else do
    let shift := leadingZeros (denominator.getLastD 0)
    let normalizedNumerator := shlAbsLimbsInto numerator shift scratch.normalizedNumerator ++ [0]
    let normalizedDenominator := shlAbsLimbsInto denominator shift scratch.normalizedDenominator
    let denominatorLen := normalizedDenominator.length
    let quotientLen := normalizedNumerator.length - denominatorLen
    let (quotient, normalizedNumerator) ←
      divisionLoop normalizedDenominator quotientLen normalizedNumerator
    pure {
      normalizedNumerator := normalizedNumerator
      normalizedDenominator := normalizedDenominator
      quotient := if keepQuotient then trimLeadingZeroLimbs quotient else []
      remainder := if keepRemainder then
          trimLeadingZeroLimbs
            (shrAbsLimbsInto (normalizedNumerator.take denominatorLen) shift [])
        else [] }

/-- `div_rem_abs_limbs_with_scratch`: the quotient, the remainder and the scratch. -/
def divRemAbsLimbsWithScratch (numerator denominator : List ℕ) (scratch : DivisionScratch) :
    Run ((List ℕ × List ℕ) × DivisionScratch) := do
  let scratch ← divRemAbsLimbsIntoScratch numerator denominator scratch true true
  pure ((scratch.quotient, scratch.remainder), scratch)

/-- `div_abs_limbs_with_scratch`. -/
def divAbsLimbsWithScratch (numerator denominator : List ℕ) (scratch : DivisionScratch) :
    Run (List ℕ × DivisionScratch) := do
  let scratch ← divRemAbsLimbsIntoScratch numerator denominator scratch true false
  pure (scratch.quotient, scratch)

/-- `rem_abs_limbs_with_scratch`. -/
def remAbsLimbsWithScratch (numerator denominator : List ℕ) (scratch : DivisionScratch) :
    Run (List ℕ × DivisionScratch) := do
  let scratch ← divRemAbsLimbsIntoScratch numerator denominator scratch false true
  pure (scratch.remainder, scratch)

end Vdf

end Iuna
