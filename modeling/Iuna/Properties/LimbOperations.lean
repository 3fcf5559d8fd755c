import Iuna.Properties.LimbQuotients

/-!
# The operations of the limb integers

An operation with its operands runs on limbs and has an exact answer in the integers.  On
canonical operands the two agree, outputs and scratches holding anything, unless the operation is
a division whose first guess is one too large: then adding back runs past the end of the
normalized numerator.  The same condition leaves out the zero divisor, the halving of an odd
number and a negative remainder to a negative modulus.
-/

namespace Iuna

namespace Vdf

/-- An `i128`. -/
abbrev I128 := {k : ℤ // LimbInt.IsI128 k}

/-- An operation of `LimbInt` with its operands, in each of its variants. -/
inductive Operation where
  | add (left right : LimbInt)
  | addOwned (left right : LimbInt)
  | addInto (left right out : LimbInt)
  | addAssign (left right : LimbInt)
  | sub (left right : LimbInt)
  | subOwned (left right : LimbInt)
  | subInto (left right out : LimbInt)
  | subAssign (left right : LimbInt)
  | mul (left right : LimbInt)
  | mulInto (left right out : LimbInt)
  | mulI128 (left : LimbInt) (scalar : I128)
  | linearCombination (left : LimbInt) (leftScalar : I128) (right : LimbInt)
      (rightScalar : I128) (scratch : LimbScratch)
  | square (left : LimbInt)
  | squareInto (left out : LimbInt)
  | shlBits (left : LimbInt) (bits : ℕ)
  | shlBitsInto (left : LimbInt) (bits : ℕ) (out : LimbInt)
  | shlBitsOwned (left : LimbInt) (bits : ℕ)
  | shlBitsAssign (left : LimbInt) (bits : ℕ)
  | shrAbsBits (left : LimbInt) (bits : ℕ)
  | div2Exact (left : LimbInt)
  | cmp (left right : LimbInt)
  | absCmp (left right : LimbInt)
  | absCmpDouble (left right : LimbInt)
  | divRem (left right : LimbInt)
  | divRemWithScratch (left right : LimbInt) (scratch : LimbScratch)
  | rem (left right : LimbInt)
  | remWithScratch (left right : LimbInt) (scratch : LimbScratch)
  | div (left right : LimbInt)
  | divWithScratch (left right : LimbInt) (scratch : LimbScratch)
  | divFloor (left right : LimbInt)
  | divFloorWithScratch (left right : LimbInt) (scratch : LimbScratch)
  | modPositive (left right : LimbInt)
  | modPositiveWithScratch (left right : LimbInt) (scratch : LimbScratch)

/-- What an operation answers. -/
inductive Answer where
  | number (result : LimbInt)
  | numbers (quotient remainder : LimbInt)
  | ordering (result : Ordering)
  deriving DecidableEq, Repr

namespace Operation

/-- The numbers that an operation reads. -/
def operands : Operation → List LimbInt
  | .add a b | .addOwned a b | .addInto a b _ | .addAssign a b => [a, b]
  | .sub a b | .subOwned a b | .subInto a b _ | .subAssign a b => [a, b]
  | .mul a b | .mulInto a b _ | .linearCombination a _ b _ _ => [a, b]
  | .mulI128 a _ | .square a | .squareInto a _ => [a]
  | .shlBits a _ | .shlBitsInto a _ _ | .shlBitsOwned a _ | .shlBitsAssign a _ => [a]
  | .shrAbsBits a _ | .div2Exact a => [a]
  | .cmp a b | .absCmp a b | .absCmpDouble a b => [a, b]
  | .divRem a b | .divRemWithScratch a b _ | .rem a b | .remWithScratch a b _ => [a, b]
  | .div a b | .divWithScratch a b _ | .divFloor a b | .divFloorWithScratch a b _ => [a, b]
  | .modPositive a b | .modPositiveWithScratch a b _ => [a, b]

/-- The answer of a run that leaves a scratch behind. -/
def answered {α : Type} (answer : α → Answer) (run : Run (α × LimbScratch)) : Run Answer :=
  (fun result => answer result.1) <$> run

/-- The operation on limbs. -/
def run : Operation → Run Answer
  | .add a b => .number <$> a.add b
  | .addOwned a b => .number <$> a.addOwned b
  | .addInto a b out => .number <$> a.addInto b out
  | .addAssign a b => .number <$> a.addAssign b
  | .sub a b => .number <$> a.sub b
  | .subOwned a b => .number <$> a.subOwned b
  | .subInto a b out => .number <$> a.subInto b out
  | .subAssign a b => .number <$> a.subAssign b
  | .mul a b => .number <$> a.mul b
  | .mulInto a b out => .number <$> a.mulInto b out
  | .mulI128 a k => .number <$> a.mulI128 k.val
  | .linearCombination a j b k scratch =>
    answered .number (LimbInt.linearCombinationI128WithScratch a j.val b k.val scratch)
  | .square a => .number <$> a.square
  | .squareInto a out => .number <$> a.squareInto out
  | .shlBits a bits => .ok (.number (a.shlBits bits))
  | .shlBitsInto a bits out => .ok (.number (a.shlBitsInto bits out))
  | .shlBitsOwned a bits => .number <$> a.shlBitsOwned bits
  | .shlBitsAssign a bits => .number <$> a.shlBitsAssign bits
  | .shrAbsBits a bits => .ok (.number (a.shrAbsBits bits))
  | .div2Exact a => .number <$> a.div2Exact
  | .cmp a b => .ok (.ordering (a.cmp b))
  | .absCmp a b => .ok (.ordering (a.absCmp b))
  | .absCmpDouble a b => .ordering <$> a.absCmpDouble b
  | .divRem a b => (fun result => .numbers result.1 result.2) <$> a.divRem b
  | .divRemWithScratch a b scratch =>
    answered (fun result => .numbers result.1 result.2) (a.divRemWithScratch b scratch)
  | .rem a b => .number <$> a.rem b
  | .remWithScratch a b scratch => answered .number (a.remWithScratch b scratch)
  | .div a b => .number <$> a.div b
  | .divWithScratch a b scratch => answered .number (a.divWithScratch b scratch)
  | .divFloor a b => .number <$> a.divFloor b
  | .divFloorWithScratch a b scratch => answered .number (a.divFloorWithScratch b scratch)
  | .modPositive a b => .number <$> a.modPositive b
  | .modPositiveWithScratch a b scratch => answered .number (a.modPositiveWithScratch b scratch)

/-- A canonical number as an answer. -/
def exactNumber (z : ℤ) : Answer := .number (LimbInt.ofInt z)

/-- The exact answer, in the integers. -/
def exact : Operation → Answer
  | .add a b | .addOwned a b | .addInto a b _ | .addAssign a b => exactNumber (a.toInt + b.toInt)
  | .sub a b | .subOwned a b | .subInto a b _ | .subAssign a b => exactNumber (a.toInt - b.toInt)
  | .mul a b | .mulInto a b _ => exactNumber (a.toInt * b.toInt)
  | .mulI128 a k => exactNumber (a.toInt * k.val)
  | .linearCombination a j b k _ => exactNumber (a.toInt * j.val + b.toInt * k.val)
  | .square a | .squareInto a _ => exactNumber (a.toInt ^ 2)
  | .shlBits a bits | .shlBitsInto a bits _ | .shlBitsOwned a bits | .shlBitsAssign a bits =>
    exactNumber (a.toInt * 2 ^ bits)
  | .shrAbsBits a bits => exactNumber (|a.toInt| / 2 ^ bits)
  | .div2Exact a => exactNumber (a.toInt / 2)
  | .cmp a b => .ordering (compare a.toInt b.toInt)
  | .absCmp a b => .ordering (compare |a.toInt| |b.toInt|)
  | .absCmpDouble a b => .ordering (compare |a.toInt| (2 * |b.toInt|))
  | .divRem a b | .divRemWithScratch a b _ =>
    .numbers (LimbInt.ofInt (a.toInt.tdiv b.toInt)) (LimbInt.ofInt (a.toInt.tmod b.toInt))
  | .rem a b | .remWithScratch a b _ => exactNumber (a.toInt.tmod b.toInt)
  | .div a b | .divWithScratch a b _ => exactNumber (a.toInt.tdiv b.toInt)
  | .divFloor a b | .divFloorWithScratch a b _ => exactNumber (a.toInt.fdiv b.toInt)
  | .modPositive a b | .modPositiveWithScratch a b _ => exactNumber (a.toInt % b.toInt)

/-- Operands that a division accepts: a divisor other than zero, for which the first guess is not
one too large. -/
def Divides (a b : LimbInt) : Prop := b ≠ LimbInt.zero ∧ firstGuessTooLarge a.limbs b.limbs = false

/-- The operands for which the operation answers exactly. -/
def Regular : Operation → Prop
  | .divRem a b | .divRemWithScratch a b _ | .rem a b | .remWithScratch a b _ => Divides a b
  | .div a b | .divWithScratch a b _ | .divFloor a b | .divFloorWithScratch a b _ => Divides a b
  | .modPositive a b | .modPositiveWithScratch a b _ =>
    Divides a b ∧ (0 ≤ a.toInt.tmod b.toInt ∨ 0 < b.toInt)
  | .absCmpDouble _ b => b ≠ LimbInt.zero
  | .div2Exact a => a.toInt % 2 = 0
  | _ => True

end Operation

namespace LimbInt

lemma ofInt_eq_zero {z : ℤ} : ofInt z = zero ↔ z = 0 := by
  rw [← ofInt_zero, ofInt_inj]

lemma compare_natAbs (x y : ℤ) : compare |x| |y| = compare x.natAbs y.natAbs := by
  rw [Int.abs_eq_natAbs, Int.abs_eq_natAbs, compare_cast]

/-- A division that fails for a zero divisor and for a first guess that is too large. -/
lemma run_division_iff {α : Type} {x y : ℤ} {run : Run α} {f : α → Answer} {answer : Answer}
    (hzero : y = 0 → ∃ fault, run = .error fault)
    (hrun : y ≠ 0 → if GuessTooLarge x y then run = .error .indexOutOfRange
      else ∃ result, run = .ok result ∧ f result = answer) :
    f <$> run = .ok answer ↔ Operation.Divides (ofInt x) (ofInt y) := by
  unfold Operation.Divides
  rw [Ne, ofInt_eq_zero, limbs_ofInt, limbs_ofInt]
  by_cases hy : y = 0
  · obtain ⟨fault, hfault⟩ := hzero hy
    rw [hfault]
    simp [hy]
  · have hresult := hrun hy
    by_cases hbad : GuessTooLarge x y
    · rw [if_pos hbad] at hresult
      rw [hresult, hbad]
      simp
    · rw [if_neg hbad] at hresult
      obtain ⟨result, hok, hanswer⟩ := hresult
      rw [hok]
      simp [hy, Bool.eq_false_of_not_eq_true hbad, hanswer]

lemma Canonical.exists_ofInt {a : LimbInt} (h : a.Canonical) : ∃ x, a = ofInt x :=
  ⟨a.toInt, h.eq_ofInt⟩

lemma divRemWithScratch_zero (x : ℤ) (scratch : LimbScratch) :
    (ofInt x).divRemWithScratch (ofInt 0) scratch = .error .divisionByZero := by
  simp [divRemWithScratch, isZero_ofInt, Outcome.bailIf, bind, Except.bind]

lemma divRem_zero (x : ℤ) : (ofInt x).divRem (ofInt 0) = .error .divisionByZero := by
  rw [divRem, divRemWithScratch_zero]
  rfl

lemma rem_zero (x : ℤ) : (ofInt x).rem (ofInt 0) = .error .divisionByZero := by
  rw [LimbInt.rem, divRem_zero]
  rfl

lemma remWithScratch_zero (x : ℤ) (scratch : LimbScratch) :
    (ofInt x).remWithScratch (ofInt 0) scratch = .error .divisionByZero := by
  simp [remWithScratch, isZero_ofInt, Outcome.bailIf, bind, Except.bind]

lemma div_zero (x : ℤ) : (ofInt x).div (ofInt 0) = .error .divisionByZero := by
  rw [LimbInt.div, divRem_zero]
  rfl

lemma divWithScratch_zero (x : ℤ) (scratch : LimbScratch) :
    (ofInt x).divWithScratch (ofInt 0) scratch = .error .divisionByZero := by
  simp [divWithScratch, isZero_ofInt, Outcome.bailIf, bind, Except.bind]

lemma divFloor_zero (x : ℤ) : (ofInt x).divFloor (ofInt 0) = .error .divisionByZero := by
  rw [divFloor, divRem_zero]
  rfl

lemma divFloorWithScratch_zero (x : ℤ) (scratch : LimbScratch) :
    (ofInt x).divFloorWithScratch (ofInt 0) scratch = .error .divisionByZero := by
  simp [divFloorWithScratch, isZero_ofInt, Outcome.bailIf, bind, Except.bind]

lemma modPositiveWithScratch_zero (x : ℤ) (scratch : LimbScratch) :
    (ofInt x).modPositiveWithScratch (ofInt 0) scratch = .error .divisionByZero := by
  simp [modPositiveWithScratch, isZero_ofInt, Outcome.bailIf, bind, Except.bind]

/-- `rem`. -/
lemma rem_ofInt (x : ℤ) {y : ℤ} (hy : y ≠ 0) :
    (ofInt x).rem (ofInt y) = if GuessTooLarge x y then .error .indexOutOfRange
      else .ok (ofInt (x.tmod y)) := by
  rw [LimbInt.rem, divRem_ofInt x hy]
  split <;> rfl

/-- `div`. -/
lemma div_ofInt (x : ℤ) {y : ℤ} (hy : y ≠ 0) :
    (ofInt x).div (ofInt y) = if GuessTooLarge x y then .error .indexOutOfRange
      else .ok (ofInt (x.tdiv y)) := by
  rw [LimbInt.div, divRem_ofInt x hy]
  split <;> rfl

/-- The positive remainder is exact for the operands that a division accepts, but for a negative
remainder to a negative modulus. -/
lemma modPositiveWithScratch_iff (x y : ℤ) (scratch : LimbScratch) :
    Operation.answered .number ((ofInt x).modPositiveWithScratch (ofInt y) scratch)
        = .ok (Operation.exactNumber (x % y)) ↔
      Operation.Divides (ofInt x) (ofInt y) ∧ (0 ≤ x.tmod y ∨ 0 < y) := by
  unfold Operation.Divides Operation.answered Operation.exactNumber
  rw [Ne, ofInt_eq_zero, limbs_ofInt, limbs_ofInt]
  by_cases hy : y = 0
  · rw [hy, modPositiveWithScratch_zero]
    simp
  · have hresult := modPositiveWithScratch_ofInt x hy scratch
    by_cases hbad : GuessTooLarge x y
    · rw [if_pos hbad] at hresult
      rw [hresult, hbad]
      simp
    · rw [if_neg hbad] at hresult
      obtain ⟨after, hok⟩ := hresult
      rw [hok, Bool.eq_false_of_not_eq_true hbad]
      simp [hy, ofInt_inj, positiveRemainder_eq_iff hy]

lemma modPositive_eq (a b : LimbInt) :
    Answer.number <$> a.modPositive b
      = Operation.answered .number (a.modPositiveWithScratch b .default) := by
  unfold modPositive Operation.answered
  cases a.modPositiveWithScratch b .default <;> rfl

end LimbInt

open LimbInt in
/-- An operation on canonical operands runs to the canonical form of its exact answer if and only
if its operands are regular. -/
theorem Operation.run_eq_exact_iff (op : Operation)
    (hcanonical : ∀ a ∈ op.operands, a.Canonical) : op.run = .ok op.exact ↔ op.Regular := by
  have hnumber : ∀ {run : Run LimbInt} {z : ℤ}, run = .ok (ofInt z) →
      Answer.number <$> run = .ok (exactNumber z) := by
    rintro _ z rfl
    rfl
  have htwo : ∀ a b : LimbInt, (∀ c ∈ [a, b], c.Canonical) → ∃ x y, a = ofInt x ∧ b = ofInt y := by
    intro a b hboth
    obtain ⟨x, hx⟩ := (hboth a (by simp)).exists_ofInt
    obtain ⟨y, hy⟩ := (hboth b (by simp)).exists_ofInt
    exact ⟨x, y, hx, hy⟩
  cases op with
  | add a b =>
    obtain ⟨x, y, rfl, rfl⟩ := htwo a b (fun _ h => hcanonical _ h)
    simp only [Operation.run, exact, Regular, toInt_ofInt]
    exact iff_of_true (hnumber (add_ofInt x y)) trivial
  | addOwned a b =>
    obtain ⟨x, y, rfl, rfl⟩ := htwo a b (fun _ h => hcanonical _ h)
    simp only [Operation.run, exact, Regular, toInt_ofInt]
    exact iff_of_true (hnumber (addAssign_ofInt x y)) trivial
  | addInto a b out =>
    obtain ⟨x, y, rfl, rfl⟩ := htwo a b (fun _ h => hcanonical _ h)
    simp only [Operation.run, exact, Regular, toInt_ofInt]
    exact iff_of_true (hnumber (addInto_ofInt x y out)) trivial
  | addAssign a b =>
    obtain ⟨x, y, rfl, rfl⟩ := htwo a b (fun _ h => hcanonical _ h)
    simp only [Operation.run, exact, Regular, toInt_ofInt]
    exact iff_of_true (hnumber (addAssign_ofInt x y)) trivial
  | sub a b =>
    obtain ⟨x, y, rfl, rfl⟩ := htwo a b (fun _ h => hcanonical _ h)
    simp only [Operation.run, exact, Regular, toInt_ofInt]
    exact iff_of_true (hnumber (subAssign_ofInt x y)) trivial
  | subOwned a b =>
    obtain ⟨x, y, rfl, rfl⟩ := htwo a b (fun _ h => hcanonical _ h)
    simp only [Operation.run, exact, Regular, toInt_ofInt]
    exact iff_of_true (hnumber (subAssign_ofInt x y)) trivial
  | subInto a b out =>
    obtain ⟨x, y, rfl, rfl⟩ := htwo a b (fun _ h => hcanonical _ h)
    simp only [Operation.run, exact, Regular, toInt_ofInt]
    exact iff_of_true (hnumber (subInto_ofInt x y out)) trivial
  | subAssign a b =>
    obtain ⟨x, y, rfl, rfl⟩ := htwo a b (fun _ h => hcanonical _ h)
    simp only [Operation.run, exact, Regular, toInt_ofInt]
    exact iff_of_true (hnumber (subAssign_ofInt x y)) trivial
  | mul a b =>
    obtain ⟨x, y, rfl, rfl⟩ := htwo a b (fun _ h => hcanonical _ h)
    simp only [Operation.run, exact, Regular, toInt_ofInt]
    exact iff_of_true (hnumber (mul_ofInt x y)) trivial
  | mulInto a b out =>
    obtain ⟨x, y, rfl, rfl⟩ := htwo a b (fun _ h => hcanonical _ h)
    simp only [Operation.run, exact, Regular, toInt_ofInt]
    exact iff_of_true (hnumber (mulInto_ofInt x y out)) trivial
  | mulI128 a k =>
    obtain ⟨x, rfl⟩ := (hcanonical a (List.mem_singleton.mpr rfl)).exists_ofInt
    simp only [Operation.run, exact, Regular, toInt_ofInt]
    exact iff_of_true (hnumber (mulI128_ofInt x k.property)) trivial
  | linearCombination a j b k scratch =>
    obtain ⟨x, y, rfl, rfl⟩ := htwo a b (fun _ h => hcanonical _ h)
    simp only [Operation.run, exact, Regular, toInt_ofInt]
    obtain ⟨after, hrun⟩ :=
      linearCombinationI128Into_ofInt x y j.property k.property zero scratch
    refine iff_of_true ?_ trivial
    rw [linearCombinationI128WithScratch, hrun]
    rfl
  | square a =>
    obtain ⟨x, rfl⟩ := (hcanonical a (List.mem_singleton.mpr rfl)).exists_ofInt
    simp only [Operation.run, exact, Regular, toInt_ofInt]
    rw [pow_two]
    exact iff_of_true (hnumber (square_ofInt x)) trivial
  | squareInto a out =>
    obtain ⟨x, rfl⟩ := (hcanonical a (List.mem_singleton.mpr rfl)).exists_ofInt
    simp only [Operation.run, exact, Regular, toInt_ofInt]
    rw [pow_two]
    exact iff_of_true (hnumber (squareInto_ofInt x out)) trivial
  | shlBits a bits =>
    obtain ⟨x, rfl⟩ := (hcanonical a (List.mem_singleton.mpr rfl)).exists_ofInt
    simp only [Operation.run, exact, Regular, toInt_ofInt]
    rw [shlBits_ofInt]
    exact iff_of_true rfl trivial
  | shlBitsInto a bits out =>
    obtain ⟨x, rfl⟩ := (hcanonical a (List.mem_singleton.mpr rfl)).exists_ofInt
    simp only [Operation.run, exact, Regular, toInt_ofInt]
    rw [shlBitsInto_ofInt]
    exact iff_of_true rfl trivial
  | shlBitsOwned a bits =>
    obtain ⟨x, rfl⟩ := (hcanonical a (List.mem_singleton.mpr rfl)).exists_ofInt
    simp only [Operation.run, exact, Regular, toInt_ofInt]
    exact iff_of_true (hnumber (shlBitsOwned_ofInt x bits)) trivial
  | shlBitsAssign a bits =>
    obtain ⟨x, rfl⟩ := (hcanonical a (List.mem_singleton.mpr rfl)).exists_ofInt
    simp only [Operation.run, exact, Regular, toInt_ofInt]
    exact iff_of_true (hnumber (shlBitsAssign_ofInt x bits)) trivial
  | shrAbsBits a bits =>
    obtain ⟨x, rfl⟩ := (hcanonical a (List.mem_singleton.mpr rfl)).exists_ofInt
    simp only [Operation.run, exact, Regular, toInt_ofInt]
    rw [shrAbsBits_ofInt, Int.abs_eq_natAbs]
    exact iff_of_true (by push_cast; rfl) trivial
  | div2Exact a =>
    obtain ⟨x, rfl⟩ := (hcanonical a (List.mem_singleton.mpr rfl)).exists_ofInt
    simp only [Operation.run, exact, Regular, toInt_ofInt]
    rw [div2Exact_ofInt]
    by_cases heven : x % 2 = 0
    · rw [if_pos heven]
      exact iff_of_true rfl heven
    · rw [if_neg heven]
      simp [heven]
  | cmp a b =>
    obtain ⟨x, y, rfl, rfl⟩ := htwo a b (fun _ h => hcanonical _ h)
    simp only [Operation.run, exact, Regular, toInt_ofInt]
    rw [cmp_ofInt]
    exact iff_of_true rfl trivial
  | absCmp a b =>
    obtain ⟨x, y, rfl, rfl⟩ := htwo a b (fun _ h => hcanonical _ h)
    simp only [Operation.run, exact, Regular, toInt_ofInt]
    rw [absCmp_ofInt, compare_natAbs]
    exact iff_of_true rfl trivial
  | absCmpDouble a b =>
    obtain ⟨x, y, rfl, rfl⟩ := htwo a b (fun _ h => hcanonical _ h)
    simp only [Operation.run, exact, Regular, toInt_ofInt]
    rw [Ne, ofInt_eq_zero]
    by_cases hy : y = 0
    · rw [hy]
      simp [LimbInt.absCmpDouble, cmpAbsToDouble, limbs_ofInt, Outcome.bailIf, bind, Except.bind]
    · refine iff_of_true ?_ hy
      have hdouble : 2 * |y| = ((2 * y.natAbs : ℕ) : ℤ) := by
        rw [Int.abs_eq_natAbs]
        push_cast
        rfl
      rw [hdouble, Int.abs_eq_natAbs, compare_cast, LimbInt.absCmpDouble, limbs_ofInt,
        limbs_ofInt, cmpAbsToDouble_magnitude _ (Int.natAbs_ne_zero.mpr hy)]
      rfl
  | divRem a b =>
    obtain ⟨x, y, rfl, rfl⟩ := htwo a b (fun _ h => hcanonical _ h)
    simp only [Operation.run, exact, Regular, toInt_ofInt]
    refine run_division_iff (fun hy => ⟨_, by rw [hy, divRem_zero]⟩) (fun hy => ?_)
    rw [divRem_ofInt x hy]
    split
    · rfl
    · exact ⟨_, rfl, rfl⟩
  | divRemWithScratch a b scratch =>
    obtain ⟨x, y, rfl, rfl⟩ := htwo a b (fun _ h => hcanonical _ h)
    simp only [Operation.run, exact, Regular, toInt_ofInt]
    refine run_division_iff (fun hy => ⟨_, by rw [hy, divRemWithScratch_zero]⟩) (fun hy => ?_)
    have hresult := divRemWithScratch_ofInt x hy scratch
    split
    · next hbad => rwa [if_pos hbad] at hresult
    · next hfair =>
      rw [if_neg hfair] at hresult
      obtain ⟨after, hok⟩ := hresult
      exact ⟨_, hok, rfl⟩
  | rem a b =>
    obtain ⟨x, y, rfl, rfl⟩ := htwo a b (fun _ h => hcanonical _ h)
    simp only [Operation.run, exact, Regular, toInt_ofInt]
    refine run_division_iff (fun hy => ⟨_, by rw [hy, rem_zero]⟩) (fun hy => ?_)
    rw [rem_ofInt x hy]
    split
    · rfl
    · exact ⟨_, rfl, rfl⟩
  | remWithScratch a b scratch =>
    obtain ⟨x, y, rfl, rfl⟩ := htwo a b (fun _ h => hcanonical _ h)
    simp only [Operation.run, exact, Regular, toInt_ofInt]
    refine run_division_iff (fun hy => ⟨_, by rw [hy, remWithScratch_zero]⟩) (fun hy => ?_)
    have hresult := remWithScratch_ofInt x hy scratch
    split
    · next hbad => rwa [if_pos hbad] at hresult
    · next hfair =>
      rw [if_neg hfair] at hresult
      obtain ⟨after, hok⟩ := hresult
      exact ⟨_, hok, rfl⟩
  | div a b =>
    obtain ⟨x, y, rfl, rfl⟩ := htwo a b (fun _ h => hcanonical _ h)
    simp only [Operation.run, exact, Regular, toInt_ofInt]
    refine run_division_iff (fun hy => ⟨_, by rw [hy, div_zero]⟩) (fun hy => ?_)
    rw [div_ofInt x hy]
    split
    · rfl
    · exact ⟨_, rfl, rfl⟩
  | divWithScratch a b scratch =>
    obtain ⟨x, y, rfl, rfl⟩ := htwo a b (fun _ h => hcanonical _ h)
    simp only [Operation.run, exact, Regular, toInt_ofInt]
    refine run_division_iff (fun hy => ⟨_, by rw [hy, divWithScratch_zero]⟩) (fun hy => ?_)
    have hresult := divWithScratch_ofInt x hy scratch
    split
    · next hbad => rwa [if_pos hbad] at hresult
    · next hfair =>
      rw [if_neg hfair] at hresult
      obtain ⟨after, hok⟩ := hresult
      exact ⟨_, hok, rfl⟩
  | divFloor a b =>
    obtain ⟨x, y, rfl, rfl⟩ := htwo a b (fun _ h => hcanonical _ h)
    simp only [Operation.run, exact, Regular, toInt_ofInt]
    refine run_division_iff (fun hy => ⟨_, by rw [hy, divFloor_zero]⟩) (fun hy => ?_)
    rw [divFloor_ofInt x hy]
    split
    · rfl
    · exact ⟨_, rfl, rfl⟩
  | divFloorWithScratch a b scratch =>
    obtain ⟨x, y, rfl, rfl⟩ := htwo a b (fun _ h => hcanonical _ h)
    simp only [Operation.run, exact, Regular, toInt_ofInt]
    refine run_division_iff (fun hy => ⟨_, by rw [hy, divFloorWithScratch_zero]⟩) (fun hy => ?_)
    have hresult := divFloorWithScratch_ofInt x hy scratch
    split
    · next hbad => rwa [if_pos hbad] at hresult
    · next hfair =>
      rw [if_neg hfair] at hresult
      obtain ⟨after, hok⟩ := hresult
      exact ⟨_, hok, rfl⟩
  | modPositive a b =>
    obtain ⟨x, y, rfl, rfl⟩ := htwo a b (fun _ h => hcanonical _ h)
    simp only [Operation.run, exact, Regular, toInt_ofInt]
    rw [modPositive_eq]
    exact modPositiveWithScratch_iff x y .default
  | modPositiveWithScratch a b scratch =>
    obtain ⟨x, y, rfl, rfl⟩ := htwo a b (fun _ h => hcanonical _ h)
    simp only [Operation.run, exact, Regular, toInt_ofInt]
    exact modPositiveWithScratch_iff x y scratch

/-- A number with these limbs is canonical. -/
lemma LimbInt.canonical_positive {limbs : List ℕ} (hwords : ∀ d ∈ limbs, d < base)
    (hne : limbs ≠ []) (htop : limbs.getLastD 0 ≠ 0) :
    (⟨.positive, limbs⟩ : LimbInt).Canonical := by
  refine ⟨hwords, fun h => ?_, by simp [hne]⟩
  rwa [getLastD_eq h] at htop

/-- A division that adds back in its second turn. -/
theorem Operation.divRem_addsBack :
    (Operation.divRem ⟨.positive, [0, 0, 0, 2 ^ 62]⟩ ⟨.positive, [2 ^ 64 - 1, 0, 2 ^ 63]⟩).run
      = .ok (Operation.divRem ⟨.positive, [0, 0, 0, 2 ^ 62]⟩
        ⟨.positive, [2 ^ 64 - 1, 0, 2 ^ 63]⟩).exact := by
  refine (Operation.run_eq_exact_iff _ ?_).mpr ⟨by decide, by decide +kernel⟩
  intro a ha
  rcases List.mem_pair.mp ha with rfl | rfl
  · exact LimbInt.canonical_positive (by decide) (by decide) (by decide)
  · exact LimbInt.canonical_positive (by decide) (by decide) (by decide)

/-- A division that adds back in its first turn: the carry has no limb to go to. -/
theorem Operation.divRem_panics :
    ¬∀ op : Operation, (∀ a ∈ op.operands, a.Canonical) → op.run = .ok op.exact := by
  intro h
  have hpanic : (Operation.divRem ⟨.positive, [0, 4, 0, 2 ^ 63]⟩ ⟨.positive, [5, 0, 2 ^ 63]⟩).run
      = .error .indexOutOfRange := by decide +kernel
  have hok := h (.divRem ⟨.positive, [0, 4, 0, 2 ^ 63]⟩ ⟨.positive, [5, 0, 2 ^ 63]⟩) (by
    intro a ha
    rcases List.mem_pair.mp ha with rfl | rfl
    · exact LimbInt.canonical_positive (by decide) (by decide) (by decide)
    · exact LimbInt.canonical_positive (by decide) (by decide) (by decide))
  rw [hpanic] at hok
  cases hok

end Vdf

end Iuna
