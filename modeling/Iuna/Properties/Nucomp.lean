import Iuna.Library.FormClasses
import Iuna.Properties.PartialGcd

/-!
# Composition in limbs

`nucomp` and `nudupl_owned` find a slope of the two forms, and return the form that it composes or,
by the matrix of a partial gcd, an equivalent one.  They fail with the fault of a division only.
-/

namespace Iuna

namespace Vdf

open LimbInt Fueled

/-- The limbs of a form. -/
def FormLimbs.ofForm (form : BinaryForm) : FormLimbs := ⟨ofInt form.a, ofInt form.b, ofInt form.c⟩

/-! ## The matrix of a partial gcd -/

/-- The determinant. -/
def det (g : Unimodular) : ℤ := g.a * g.d - g.b * g.c

lemma det_mul_self (g : Unimodular) : det g * det g = 1 := by
  rcases Int.isUnit_iff.mp g.isUnit with h | h <;> simp [det, h]

/-- The substitution of a matrix, its first row made the second and given the sign that makes the
determinant one. -/
def turned (g : Unimodular) (form : BinaryForm) : BinaryForm :=
  form.subst g.c (-(det g * g.a)) g.d (-(det g * g.b))

lemma equivalent_turned (g : Unimodular) (form : BinaryForm) : form.Equivalent (turned g form) := by
  refine ⟨_, _, _, _, ?_, rfl⟩
  calc g.c * -(det g * g.b) - -(det g * g.a) * g.d = det g * det g := by rw [det]; ring
    _ = 1 := det_mul_self g

lemma turned_a (g : Unimodular) (form : BinaryForm) :
    (turned g form).a = form.value g.c g.d := rfl

/-- The value that `nucomp` computes, with the sign of the determinant. -/
lemma signed_value {g : Unimodular} (hsign : 0 < det g * g.d) (value : ℤ) :
    (if !(ofInt (-g.d)).isNegative then (ofInt value).negated else ofInt value)
      = ofInt (det g * value) := by
  rw [isNegative_ofInt, negated_ofInt]
  rcases Int.isUnit_iff.mp g.isUnit with h | h <;> rw [det, h] at hsign ⊢
  · rw [if_neg (by simpa using hsign), one_mul]
  · rw [if_pos (by simpa using by omega), neg_one_mul]

section Slope

variable {s a₁ a₂ k t u v : ℤ}

/-- The first coefficient in terms of the second remainder `r₁` and the quotients `m₁` and `m₂`. -/
lemma value_form (g : Unimodular) :
    (BinaryForm.Slope.form s a₁ a₂ k t u v).value g.c g.d
      = (g.c * a₁ + g.d * k) * (a₂ * g.c - g.d * u)
        - -g.d * (s * (t * g.c - g.d * v)) := by
  simp only [BinaryForm.Slope.form, BinaryForm.Bilinear.product, BinaryForm.value]
  ring

/-- The quotient by the second cofactor, from which the middle coefficient comes. -/
def middle (g : Unimodular) (s a₁ a₂ k t u v : ℤ) : ℤ :=
  det g * ((g.b * u - g.a * a₂) * (g.c * a₁ + g.d * k) - g.b * (s * (t * g.c - g.d * v)))

lemma mul_middle (g : Unimodular) :
    a₂ * (g.c * a₁ + g.d * k)
        - det g * (BinaryForm.Slope.form s a₁ a₂ k t u v).value g.c g.d * -g.b
      = -g.d * middle g s a₁ a₂ k t u v := by
  rw [value_form, middle]
  have hunit := det_mul_self g
  have hdet : g.a * g.d = det g + g.b * g.c := by rw [det]; ring
  linear_combination (-(a₂ * (g.c * a₁ + g.d * k))) * hunit
    - det g * a₂ * (g.c * a₁ + g.d * k) * hdet

lemma turned_b (g : Unimodular) :
    (turned g (BinaryForm.Slope.form s a₁ a₂ k t u v)).b
      = 2 * middle g s a₁ a₂ k t u v - (s * t - k * a₂ - u * a₁) := by
  have hunit := det_mul_self g
  have hdet : g.a * g.d = det g + g.b * g.c := by rw [det]; ring
  simp only [turned, middle, BinaryForm.Slope.form, BinaryForm.Bilinear.product, BinaryForm.subst]
  linear_combination (-(s * t - k * a₂ - u * a₁)) * hunit
    - det g * (s * t - k * a₂ - u * a₁) * hdet

end Slope

/-- What the sign of the first coefficient and the last division leave. -/
lemma exists_closing {form : BinaryForm} (definite : form.PosDef) (g : Unimodular) {z : ℤ}
    (congruent : 2 * (det g * form.value g.c g.d) ∣ z - (turned g form).b) :
    ∃ last : ℤ, z * z - form.disc = det g * form.value g.c g.d * 4 * (det g * last) ∧
      FormLimbs.ofSigned (ofInt (det g * form.value g.c g.d)) (ofInt z) (ofInt (det g * last))
        = FormLimbs.ofForm ⟨form.value g.c g.d, z, last⟩ ∧
      form.Equivalent ⟨form.value g.c g.d, z, last⟩ := by
  obtain ⟨j, hj⟩ := congruent
  have hunit := det_mul_self g
  have hturned := equivalent_turned g form
  have hvalue : 0 < form.value g.c g.d := by
    rw [← turned_a]
    exact (definite.of_equivalent hturned).pos
  -- a shear of the turned form has the middle coefficient `z`
  have hshear : (turned g form).Equivalent ((turned g form).subst 1 (det g * j) 0 1) :=
    ⟨1, det g * j, 0, 1, by ring, rfl⟩
  have ha : ((turned g form).subst 1 (det g * j) 0 1).a = form.value g.c g.d := by
    rw [← turned_a]
    simp only [BinaryForm.subst]
    ring
  have hb : ((turned g form).subst 1 (det g * j) 0 1).b = z := by
    rw [← turned_a] at hj
    simp only [BinaryForm.subst]
    linear_combination -hj
  have hequivalent := hturned.trans hshear
  have hdisc := hequivalent.disc_eq
  generalize (turned g form).subst 1 (det g * j) 0 1 = sheared at *
  obtain ⟨a, b, last⟩ := sheared
  subst ha hb
  refine ⟨last, ?_, ?_, hequivalent⟩
  · rw [← hdisc]
    simp only [BinaryForm.disc]
    linear_combination (-4 * form.value g.c g.d * last) * hunit
  · rcases Int.isUnit_iff.mp g.isUnit with h | h <;> rw [det, h]
    · rw [one_mul, one_mul, FormLimbs.ofSigned,
        if_neg (by rw [isNegative_ofInt]; simpa using hvalue.le)]
      rfl
    · rw [FormLimbs.ofSigned, if_pos (by rw [isNegative_ofInt]; simpa using hvalue), negated_ofInt,
        negated_ofInt, neg_one_mul, neg_one_mul, neg_neg, neg_neg]
      rfl

/-! ## The two branches -/

/-- A form equivalent to one, in limbs. -/
def InClass (form : BinaryForm) (result : FormLimbs) : Prop :=
  ∃ other, result = FormLimbs.ofForm other ∧ form.Equivalent other

section Branches

variable {f g : BinaryForm} {s a₁ a₂ k t u v : ℤ} (slope : BinaryForm.Slope f g s a₁ a₂ k t u v)
  (scratch : LimbScratch)

include slope

/-- The middle coefficient of the second form. -/
lemma slope_b : g.b = s * t - k * a₂ - u * a₁ := by
  have hsum := slope.sum
  have hdifference := slope.difference
  linarith

/-- The last coefficient of the form that the slope composes. -/
lemma slope_last : (g.b + a₂ * k) * k + g.c * s
    = a₁ * (BinaryForm.Slope.form s a₁ a₂ k t u v).c := by
  have hb := slope_b slope
  have hlast := slope.last
  simp only [BinaryForm.Slope.form, BinaryForm.Bilinear.product]
  linear_combination k * hb + s * hlast

lemma nucompShort_holds (ha₁ : a₁ ≠ 0) :
    Holds Overrun (InClass (BinaryForm.Slope.form s a₁ a₂ k t u v))
      (nucompShort (ofInt a₁) (ofInt a₂) (ofInt g.b) (ofInt (g.c * s)) (ofInt k) scratch) := by
  simp only [nucompShort, mul_ofInt, shlBits_ofInt, addOwned, addAssign_ofInt, add_ofInt, ok_bind]
  refine (divExact_holds ha₁ (slope_last slope) scratch).bind ?_
  rintro _ ⟨after, rfl⟩
  refine .pure ⟨_, ?_, .refl _⟩
  have hb := slope_b slope
  simp only [FormLimbs.ofForm, FormLimbs.mk.injEq, ofInt_inj, and_true]
  constructor
  · rw [BinaryForm.Slope.form_a, mul_comm]
  · simp only [BinaryForm.Slope.form, BinaryForm.Bilinear.product]
    linear_combination hb

/-- The quotient `m2`. -/
lemma slope_second (matrix : Unimodular) :
    s * t * (matrix.c * a₁ + matrix.d * k) - g.c * s * -matrix.d
      = a₁ * (s * (t * matrix.c - matrix.d * v)) := by
  linear_combination s * matrix.d * slope.last

lemma nucompLong_holds {m discriminant : ℤ} (ha₁ : a₁ ≠ 0) (hm : m = a₁ * u + a₂ * k)
    (definite : (BinaryForm.Slope.form s a₁ a₂ k t u v).PosDef)
    (disc : (BinaryForm.Slope.form s a₁ a₂ k t u v).disc = discriminant)
    (matrix : Unimodular) (hsign : 0 < det matrix * matrix.d) :
    Holds Overrun (InClass (BinaryForm.Slope.form s a₁ a₂ k t u v))
      (nucompLong (ofInt a₁) (ofInt a₂) (ofInt g.b) (ofInt (g.c * s)) (ofInt (s * t)) (ofInt m)
        (ofInt discriminant) (ofInt (-matrix.b)) (ofInt (-matrix.d))
        (ofInt (matrix.c * a₁ + matrix.d * k)) scratch) := by
  have hd : -matrix.d ≠ 0 := by
    intro hzero
    rw [neg_eq_zero.mp hzero, mul_zero] at hsign
    exact lt_irrefl 0 hsign
  have hfirst : m * -matrix.d + a₂ * (matrix.c * a₁ + matrix.d * k)
      = a₁ * (a₂ * matrix.c - matrix.d * u) := by
    rw [hm]
    ring
  have hpositive : 0 < (turned matrix (BinaryForm.Slope.form s a₁ a₂ k t u v)).a :=
    (definite.of_equivalent (equivalent_turned matrix _)).pos
  rw [turned_a] at hpositive
  have hvalue : det matrix * (BinaryForm.Slope.form s a₁ a₂ k t u v).value matrix.c matrix.d ≠ 0 :=
    mul_ne_zero (left_ne_zero_of_mul hsign.ne') hpositive.ne'
  simp only [nucompLong, mul_ofInt, addOwned, addAssign_ofInt, ok_bind]
  refine (divExact_holds ha₁ hfirst scratch).bind ?_
  rintro _ ⟨_, rfl⟩
  simp only [mul_ofInt, subOwned, subAssign_ofInt, ok_bind]
  refine (divExact_holds ha₁ (slope_second slope matrix) scratch).bind ?_
  rintro _ ⟨_, rfl⟩
  simp only [mul_ofInt, subAssign_ofInt, ok_bind, ← value_form, signed_value hsign, shlBits_ofInt,
    shlBitsOwned_ofInt]
  refine (divExact_holds hd (q := middle matrix s a₁ a₂ k t u v * 2)
    (by rw [mul_middle]; ring) scratch).bind ?_
  rintro _ ⟨_, rfl⟩
  simp only [subAssign_ofInt, ok_bind]
  refine (modPositiveWithScratch_holds _ (by simpa using hvalue) scratch).bind ?_
  rintro _ ⟨z, _, rfl, hcongruent, -⟩
  obtain ⟨last, hlast, hsigned, hequivalent⟩ := exists_closing definite matrix (z := z) (by
    rw [turned_b, ← slope_b slope]
    convert hcongruent using 1 <;> ring)
  simp only [square_ofInt, subAssign_ofInt, ok_bind]
  refine (divExact_holds (q := det matrix * last) (by simpa using hvalue)
    (by rw [← disc, hlast]; ring) scratch).bind ?_
  rintro _ ⟨_, rfl⟩
  exact .pure ⟨_, hsigned, hequivalent⟩

end Branches

/-! ## The branches of a duplication -/

section Duplication

variable {f g : BinaryForm} {s a k t v : ℤ} (slope : BinaryForm.Slope f g s a a k t (-k) v)
  (scratch : LimbScratch)

include slope

lemma nuduplShort_holds (ha : a ≠ 0) :
    Holds Overrun (InClass (BinaryForm.Slope.form s a a k t (-k) v))
      (nuduplShort (ofInt a) (ofInt g.b) (ofInt (g.c * s)) (ofInt k) scratch) := by
  simp only [nuduplShort, mul_ofInt, square_ofInt, shlBits_ofInt, addOwned, addAssign_ofInt,
    add_ofInt, ok_bind]
  refine (divExact_holds ha (slope_last slope) scratch).bind ?_
  rintro _ ⟨_, rfl⟩
  refine .pure ⟨_, ?_, .refl _⟩
  have hb := slope_b slope
  simp only [FormLimbs.ofForm, FormLimbs.mk.injEq, ofInt_inj, and_true]
  constructor
  · rw [BinaryForm.Slope.form_a]
  · simp only [BinaryForm.Slope.form, BinaryForm.Bilinear.product]
    linear_combination hb

lemma nuduplLong_holds {discriminant : ℤ} (ha : a ≠ 0)
    (definite : (BinaryForm.Slope.form s a a k t (-k) v).PosDef)
    (disc : (BinaryForm.Slope.form s a a k t (-k) v).disc = discriminant)
    (matrix : Unimodular) (hsign : 0 < det matrix * matrix.d) :
    Holds Overrun (InClass (BinaryForm.Slope.form s a a k t (-k) v))
      (nuduplLong (ofInt a) (ofInt g.b) (ofInt (g.c * s)) (ofInt discriminant)
        (ofInt (-matrix.b)) (ofInt (-matrix.d)) (ofInt (matrix.c * a + matrix.d * k))
        scratch) := by
  have hd : -matrix.d ≠ 0 := by
    intro hzero
    rw [neg_eq_zero.mp hzero, mul_zero] at hsign
    exact lt_irrefl 0 hsign
  have hpositive : 0 < (turned matrix (BinaryForm.Slope.form s a a k t (-k) v)).a :=
    (definite.of_equivalent (equivalent_turned matrix _)).pos
  rw [turned_a] at hpositive
  have hvalue : det matrix * (BinaryForm.Slope.form s a a k t (-k) v).value matrix.c matrix.d ≠ 0 :=
    mul_ne_zero (left_ne_zero_of_mul hsign.ne') hpositive.ne'
  -- the first quotient is the second remainder
  have hsquare : (matrix.c * a + matrix.d * k) * (matrix.c * a + matrix.d * k)
        - -matrix.d * (s * (t * matrix.c - matrix.d * v))
      = (BinaryForm.Slope.form s a a k t (-k) v).value matrix.c matrix.d := by
    rw [value_form]
    ring
  have hsecond : g.b * (matrix.c * a + matrix.d * k) - g.c * s * -matrix.d
      = a * (s * (t * matrix.c - matrix.d * v)) := by
    rw [← slope_second slope, slope_b slope]
    ring
  simp only [nuduplLong, mulInto_ofInt, subAssign_ofInt, ok_bind]
  refine (divExact_holds ha hsecond scratch).bind ?_
  rintro _ ⟨_, rfl⟩
  simp only [squareInto_ofInt, mulInto_ofInt, subAssign_ofInt, ok_bind, hsquare,
    signed_value hsign, shlBitsInto_ofInt, shlBitsAssign_ofInt]
  refine (divExact_holds hd (q := middle matrix s a a k t (-k) v * 2)
    (by rw [mul_middle]; ring) scratch).bind ?_
  rintro _ ⟨_, rfl⟩
  simp only [subAssign_ofInt, ok_bind]
  refine (modPositiveWithScratch_holds _ (by simpa using hvalue) scratch).bind ?_
  rintro _ ⟨z, _, rfl, hcongruent, -⟩
  obtain ⟨last, hlast, hsigned, hequivalent⟩ := exists_closing definite matrix (z := z) (by
    rw [turned_b, ← slope_b slope]
    convert hcongruent using 1 <;> ring)
  simp only [squareInto_ofInt, subAssign_ofInt, ok_bind]
  refine (divExact_holds (q := det matrix * last) (by simpa using hvalue)
    (by rw [← disc, hlast]; ring) scratch).bind ?_
  rintro _ ⟨_, rfl⟩
  exact .pure ⟨_, hsigned, hequivalent⟩

end Duplication

end Vdf

end Iuna
