import Iuna.Domain.FormReduction
import Iuna.Domain.Lehmer

/-!
# Composition and powers of forms

`limb_arithmetic.rs` on limb integers: the composition `nucomp` and the duplication `nudupl_owned`
with their partial gcds, the reducer, and the powers.  A form is reduced by a substitution only
when the source does so.  Every use of a `LimbScratch` overwrites it, so each call is given the
one of the caller, and the numbers of `LimbFormScratch` that the source writes before it reads
them are `let`s.
-/

namespace Iuna

namespace Vdf

/-- `LimbInt::from_u64`. -/
def LimbInt.fromU64 (value : ℕ) : LimbInt :=
  if value = 0 then zero else ⟨.positive, [value]⟩

/-- A computation that may panic, and ends only with enough turns of its loops. -/
abbrev Turns := ExceptT Fault Option

/-- A call of one of the batched gcds. -/
def Turns.ofGcd {α : Type} (call : Option (Run α)) : Turns α := ExceptT.mk call

/-- `LimbForm`, with its numbers in limbs. -/
structure FormLimbs where
  a : LimbInt
  b : LimbInt
  c : LimbInt
  deriving DecidableEq, Repr

namespace FormLimbs

/-- `is_identity`. -/
def isIdentity (form : FormLimbs) : Bool := form.a.isOne && form.b.isOne

/-- `LimbForm::identity`. -/
def identity (discriminant : LimbInt) : Run FormLimbs := do
  let difference ← LimbInt.one.sub discriminant
  let c ← difference.div (LimbInt.fromU64 4)
  pure ⟨.one, .one, c⟩

/-! ## The reducer -/

/-- `finish_if_reduced`: no form where it answers `false`, else the form it leaves. -/
def finishIfReduced (form : FormLimbs) : Option FormLimbs :=
  if form.a.absCmp form.b = .lt ∨ form.c.absCmp form.b = .lt then none
  else
    match form.a.cmp form.c with
    | .gt => some ⟨form.c, form.b.negated, form.a⟩
    | .eq => if form.b.isNegative then some { form with b := form.b.negated } else some form
    | .lt => some form

/-- The first branch of `reduce_once`. -/
def reverse (form : FormLimbs) : FormLimbs := ⟨form.c, form.b.negated, form.a⟩

/-- The branch of `reduce_once` for a negative `b + c` not above the modulus. -/
def shiftUp (form : FormLimbs) : Run FormLimbs := do
  let work0 ← (form.c.shlBitsInto 1 .zero).addAssign form.b
  let work1 ← form.c.addInto form.b .zero
  let c ← form.a.addAssign work1
  pure ⟨form.c, work0.negated, c⟩

/-- The branch of `reduce_once` for a `b + c` below twice the modulus. -/
def shiftDown (form : FormLimbs) : Run FormLimbs := do
  let work0 ← (form.c.shlBitsInto 1 .zero).subAssign form.b
  let work1 ← form.c.subInto form.b .zero
  let c ← form.a.addAssign work1
  pure ⟨form.c, work0, c⟩

/-- The last branch of `reduce_once`. -/
def shiftBy (form : FormLimbs) (work0 modulus : LimbInt) (scratch : LimbScratch) :
    Run FormLimbs := do
  let (s, _) ← work0.divFloorWithScratch modulus scratch
  let work0 ← form.c.mulInto s .zero
  let work1 ← work0.subInto form.b .zero
  let b ← work0.addAssign work1
  let work0 ← s.mulInto work1 .zero
  let c ← form.a.addAssign work0
  pure ⟨form.c, b, c⟩

/-- `reduce_once`. -/
def reduceOnce (form : FormLimbs) (scratch : LimbScratch) : Run FormLimbs := do
  let modulus := form.c.shlBitsInto 1 .zero
  let work0 ← form.b.addInto form.c .zero
  if work0.isZero ∨ (!work0.isNegative ∧ work0.absCmp modulus = .lt) then pure form.reverse
  else if work0.isNegative then
    if work0.absCmp modulus ≠ .gt then form.shiftUp else form.shiftBy work0 modulus scratch
  else do
    let order ← work0.absCmpDouble modulus
    if order = .lt then form.shiftDown else form.shiftBy work0 modulus scratch

/-- `reduce_with_scratch`, for at most `fuel` turns of its loop. -/
def reduceWithScratch (scratch : LimbScratch) : ℕ → FormLimbs → Turns FormLimbs
  | 0, _ => ExceptT.mk none
  | fuel + 1, form =>
    match form.finishIfReduced with
    | some reduced => pure reduced
    | none => do
      let next ← (form.reduceOnce scratch : Run FormLimbs)
      reduceWithScratch scratch fuel next

/-! ## Duplication and composition -/

/-- A negative first coefficient is negated, with the last one. -/
def ofSigned (a b c : LimbInt) : FormLimbs :=
  if a.isNegative then ⟨a.negated, b, c.negated⟩ else ⟨a, b, c⟩

end FormLimbs

/-- The division of `nudupl_owned` by the gcd: `a / s` and `c * s`, where `s` is not one. -/
def divideOut (a c s : LimbInt) (scratch : LimbScratch) : Run (LimbInt × LimbInt) :=
  if s.isOne then pure (a, c)
  else do
    let (a, _) ← a.divWithScratch s scratch
    let c ← c.mul s
    pure (a, c)

/-- The gcd of `nudupl_owned`: the cofactor of `b`, and the gcd. -/
def nuduplGcd (fuel : ℕ) (b a : LimbInt) (scratch : LimbScratch) : Turns (LimbInt × LimbInt) :=
  if b.isNegative then do
    let gcd ← Turns.ofGcd (b.negated.leftExtendedGcdPositiveWithScratch fuel a scratch)
    pure (gcd.x.negated, gcd.gcd)
  else do
    let gcd ← Turns.ofGcd (b.leftExtendedGcdPositiveWithScratch fuel a scratch)
    pure (gcd.x, gcd.gcd)

/-- The branch of `nudupl_owned` for `a1` below the threshold. -/
def nuduplShort (a1 b c1 k : LimbInt) (scratch : LimbScratch) : Run FormLimbs := do
  let t ← a1.mul k
  let resultA ← a1.square
  let resultB ← (t.shlBits 1).addOwned b
  let sum ← b.add t
  let product ← sum.mul k
  let dividend ← product.addOwned c1
  let (resultC, _) ← dividend.divWithScratch a1 scratch
  pure ⟨resultA, resultB, resultC⟩

/-- What `nudupl_owned` makes of the partial gcd. -/
def nuduplLong (a1 b c1 discriminant co2 co1 r1 : LimbInt) (scratch : LimbScratch) :
    Run FormLimbs := do
  let work0 ← b.mulInto r1 .zero
  let work1 ← c1.mulInto co1 .zero
  let work0 ← work0.subAssign work1
  let (m2, _) ← work0.divWithScratch a1 scratch
  let work0 ← r1.squareInto .zero
  let work1 ← co1.mulInto m2 .zero
  let value ← work0.subAssign work1
  let resultA := if !co1.isNegative then value.negated else value
  let work0 ← a1.mulInto r1 .zero
  let work1 ← resultA.mulInto co2 .zero
  let work0 ← work0.subAssign work1
  let work0 ← work0.shlBitsAssign 1
  let (quotient, _) ← work0.divWithScratch co1 scratch
  let difference ← quotient.subAssign b
  let (resultB, _) ← difference.modPositiveWithScratch (resultA.shlBitsInto 1 .zero) scratch
  let work0 ← resultB.squareInto .zero
  let work0 ← work0.subAssign discriminant
  let (resultC, _) ← work0.divWithScratch (resultA.shlBitsInto 2 .zero) scratch
  pure (FormLimbs.ofSigned resultA resultB resultC)

/-- `nudupl_owned`. -/
def nuduplOwned (fuel : ℕ) (form : FormLimbs) (discriminant threshold : LimbInt)
    (scratch : LimbScratch) : Turns FormLimbs := do
  let (x, s) ← nuduplGcd fuel form.b form.a scratch
  let product ← x.mulInto form.c .zero
  let (a1, c1) ← divideOut form.a form.c s scratch
  let (k, _) ← product.negated.modPositiveWithScratch a1 scratch
  if a1.cmp threshold = .lt then nuduplShort a1 form.b c1 k scratch
  else do
    let (co2, co1, _, r1) ← Turns.ofGcd (xgcdPartialWithScratch fuel a1 k threshold scratch)
    nuduplLong a1 form.b c1 discriminant co2 co1 r1 scratch

/-- The gcd of the first coefficients in `nucomp`: the cofactor `v1` of `a2`, and the gcd. -/
def nucompGcd (fuel : ℕ) (a1 a2 : LimbInt) (scratch : LimbScratch) :
    Turns (LimbInt × LimbInt) := do
  let (t, _) ← a2.remWithScratch a1 scratch
  if t.isZero then pure (.zero, a1)
  else do
    let gcd ← Turns.ofGcd (t.leftExtendedGcdPositiveWithScratch fuel a1 scratch)
    pure (gcd.x, gcd.gcd)

/-- The division of `nucomp` by the gcd: `a1 / s`, `a2 / s` and `c2 * s`, where `s` is not one. -/
def divideBoth (a1 a2 c2 s : LimbInt) (scratch : LimbScratch) :
    Run (LimbInt × LimbInt × LimbInt) :=
  if s.isOne then pure (a1, a2, c2)
  else do
    let (a1, _) ← a1.divWithScratch s scratch
    let (a2, _) ← a2.divWithScratch s scratch
    let c2 ← c2.mul s
    pure (a1, a2, c2)

/-- The slope `k` of `nucomp` with `a1`, `a2` and `c2` divided by the gcd of the first coefficients
and `ss`. -/
def nucompSlope (fuel : ℕ) (a1 a2 c2 ss sp k : LimbInt) (scratch : LimbScratch) :
    Turns (LimbInt × LimbInt × LimbInt × LimbInt) :=
  if sp.isOne then pure (a1, a2, c2, k)
  else do
    let gcd ← Turns.ofGcd (ss.extendedGcdWithScratch fuel sp scratch)
    let left ← k.mul gcd.y
    let right ← gcd.x.mul c2
    let k ← left.subOwned right
    let (a1, a2, c2) ← divideBoth a1 a2 c2 gcd.gcd scratch
    let (k, _) ← k.modPositiveWithScratch a1 scratch
    pure (a1, a2, c2, k)

/-- The branch of `nucomp` for `a1` below the threshold. -/
def nucompShort (a1 a2 b2 c2 k : LimbInt) (scratch : LimbScratch) : Run FormLimbs := do
  let t ← a2.mul k
  let resultA ← a2.mul a1
  let resultB ← (t.shlBits 1).addOwned b2
  let sum ← b2.add t
  let product ← sum.mul k
  let dividend ← product.addOwned c2
  let (resultC, _) ← dividend.divWithScratch a1 scratch
  pure ⟨resultA, resultB, resultC⟩

/-- What `nucomp` makes of the partial gcd. -/
def nucompLong (a1 a2 b2 c2 ss m discriminant co2 co1 r1 : LimbInt) (scratch : LimbScratch) :
    Run FormLimbs := do
  let left ← m.mul co1
  let right ← a2.mul r1
  let sum ← left.addOwned right
  let (m1, _) ← sum.divWithScratch a1 scratch
  let left ← ss.mul r1
  let right ← c2.mul co1
  let difference ← left.subOwned right
  let (m2, _) ← difference.divWithScratch a1 scratch
  let left ← r1.mul m1
  let right ← co1.mul m2
  let value ← left.subOwned right
  let resultA := if !co1.isNegative then value.negated else value
  let t ← a2.mul r1
  let product ← resultA.mul co2
  let difference ← t.subOwned product
  let doubled ← difference.shlBitsOwned 1
  let (quotient, _) ← doubled.divWithScratch co1 scratch
  let difference ← quotient.subOwned b2
  let (resultB, _) ← difference.modPositiveWithScratch (resultA.shlBits 1) scratch
  let square ← resultB.square
  let difference ← square.subOwned discriminant
  let (resultC, _) ← difference.divWithScratch (resultA.shlBits 2) scratch
  pure (FormLimbs.ofSigned resultA resultB resultC)

/-- `nucomp` with the forms in the order of their first coefficients. -/
def nucompOrdered (fuel : ℕ) (left right : FormLimbs) (discriminant threshold : LimbInt)
    (scratch : LimbScratch) : Turns FormLimbs := do
  let sum ← left.b.add right.b
  let ss ← sum.div2Exact
  let difference ← left.b.sub right.b
  let m ← difference.div2Exact
  let (v1, sp) ← nucompGcd fuel left.a right.a scratch
  let product ← m.mul v1
  let (k, _) ← product.modPositiveWithScratch left.a scratch
  let (a1, a2, c2, k) ← nucompSlope fuel left.a right.a right.c ss sp k scratch
  if a1.cmp threshold = .lt then nucompShort a1 a2 right.b c2 k scratch
  else do
    let (co2, co1, _, r1) ← Turns.ofGcd (xgcdPartialWithScratch fuel a1 k threshold scratch)
    nucompLong a1 a2 right.b c2 ss m discriminant co2 co1 r1 scratch

/-- `nucomp`. -/
def nucomp (fuel : ℕ) (left right : FormLimbs) (discriminant threshold : LimbInt)
    (scratch : LimbScratch) : Turns FormLimbs :=
  if left.a.cmp right.a = .gt then nucompOrdered fuel right left discriminant threshold scratch
  else nucompOrdered fuel left right discriminant threshold scratch

namespace FormLimbs

variable (fuel : ℕ) (discriminant threshold : LimbInt) (scratch : LimbScratch)

/-- `nudupl_reduce_with_scratch`. -/
def nuduplReduceWithScratch (self : FormLimbs) : Turns FormLimbs :=
  if self.isIdentity then pure self
  else do
    let form ← nuduplOwned fuel self discriminant threshold scratch
    form.reduceWithScratch scratch fuel

/-- `compose_unreduced`. -/
def composeUnreduced (self other : FormLimbs) : Turns FormLimbs :=
  if self.isIdentity then pure other
  else if other.isIdentity then pure self
  else nucomp fuel self other discriminant threshold scratch

/-- `nucomp_reduce_with_scratch`. -/
def nucompReduceWithScratch (self other : FormLimbs) : Turns FormLimbs :=
  if self.isIdentity then pure other
  else if other.isIdentity then pure self
  else do
    let form ← nucomp fuel self other discriminant threshold scratch
    form.reduceWithScratch scratch fuel

/-! ## Powers -/

/-- The reduction of a long intermediate power. -/
def reduceLong (maxBits : ℕ) (form : FormLimbs) : Turns FormLimbs :=
  if form.a.bitLen > maxBits then form.reduceWithScratch scratch fuel else pure form

/-- The factor of a bit of the exponent. -/
def composeBit (exponent bit : ℕ) (self result : FormLimbs) : Turns FormLimbs :=
  if (exponent >>> bit) &&& 1 = 1 then nucomp fuel result self discriminant threshold scratch
  else pure result

/-- The loop of `fast_pow_u64_with_scratch` over the bits below `count`, from the highest. -/
def powLoop (exponent maxBits : ℕ) (self : FormLimbs) : ℕ → FormLimbs → Turns FormLimbs
  | 0, result => pure result
  | bit + 1, result => do
    let result ← nuduplOwned fuel result discriminant threshold scratch
    let result ← reduceLong fuel scratch maxBits result
    let result ← composeBit fuel discriminant threshold scratch exponent bit self result
    powLoop exponent maxBits self bit result

/-- `fast_pow_u64_with_scratch`. -/
def fastPowU64WithScratch (self : FormLimbs) (exponent : ℕ) : Turns FormLimbs :=
  if exponent = 0 then liftM (identity discriminant)
  else if self.isIdentity then pure self
  else do
    let maxBits := discriminant.bitLen / 2
    let numBits := 64 - leadingZeros exponent
    let result ← powLoop fuel discriminant threshold scratch exponent maxBits self
      (numBits - 1) self
    result.reduceWithScratch scratch fuel

end FormLimbs

end Vdf

end Iuna
