import Iuna.Properties.Nucomp

/-!
# The composition of two forms

`nucomp` and `nudupl_owned` as a whole: with enough turns of their gcds they end, with a form
composed of the two or with the fault of a division.
-/

namespace Iuna

namespace Vdf

open LimbInt Fueled

open BinaryForm (Discriminant FormOf FormClass)

variable {D : Discriminant}

/-- The limbs of a form of a class. -/
def Represents (x : FormClass D) (form : FormLimbs) : Prop :=
  ∃ f : FormOf D, form = .ofForm f.form ∧ FormClass.mk f = x

/-! ## The gcds of `nucomp` -/

lemma nucompGcd_settles {a₁ : ℤ} (ha₁ : 0 < a₁) {a₂ : ℤ} (ha₂ : 0 < a₂) (scratch : LimbScratch) :
    Settles Overrun (fun result => ∃ v₁ sp : ℤ, result = (ofInt v₁, ofInt sp) ∧
        a₁ ∣ v₁ * a₂ - sp ∧ sp ∣ a₁ ∧ sp ∣ a₂)
      fun fuel => nucompGcd fuel (ofInt a₁) (ofInt a₂) scratch := by
  have hmod : a₁ ∣ a₂ - a₂.tmod a₁ := ⟨a₂.tdiv a₁, by rw [Int.tmod_def]; ring⟩
  simp only [nucompGcd]
  refine (Settles.lift (remWithScratch_holds a₂ ha₁.ne' scratch)).bind ?_
  rintro _ ⟨_, rfl⟩
  simp only [isZero_ofInt, decide_eq_true_eq]
  by_cases hzero : a₂.tmod a₁ = 0
  · simp only [if_pos hzero]
    rw [hzero, sub_zero] at hmod
    refine .pure ⟨0, a₁, by rw [ofInt_zero], by simp, dvd_rfl, hmod⟩
  · simp only [if_neg hzero]
    have hnonneg : 0 ≤ a₂.tmod a₁ := Int.tmod_nonneg a₁ ha₂.le
    refine (leftExtendedGcdPositive_settles hnonneg ha₁.le scratch).bind ?_
    rintro ⟨x, gcd⟩ ⟨u, w, hbezout, rfl, rfl⟩
    have hleft : (Int.gcd (a₂.tmod a₁) a₁ : ℤ) ∣ a₂.tmod a₁ := Int.gcd_dvd_left ..
    have hright : (Int.gcd (a₂.tmod a₁) a₁ : ℤ) ∣ a₁ := Int.gcd_dvd_right ..
    refine .pure ⟨u, _, rfl, ?_, hright, ?_⟩
    · obtain ⟨j, hj⟩ := hmod
      exact ⟨u * j - w, by linear_combination u * hj + hbezout⟩
    · have hsum := dvd_add (hright.trans hmod) hleft
      rwa [sub_add_cancel] at hsum

/-- The division by a gcd. -/
lemma divideBoth_holds {s a₁ a₂ : ℤ} (hs : s ≠ 0) (c : ℤ) (scratch : LimbScratch) :
    Holds Overrun (fun result => result = (ofInt a₁, ofInt a₂, ofInt (c * s)))
      (divideBoth (ofInt (s * a₁)) (ofInt (s * a₂)) (ofInt c) (ofInt s) scratch) := by
  simp only [divideBoth, isOne_ofInt, decide_eq_true_eq]
  by_cases hone : s = 1
  · rw [if_pos hone, hone, one_mul, one_mul, mul_one]
    exact .pure rfl
  · rw [if_neg hone]
    refine (divExact_holds hs rfl scratch).bind ?_
    rintro _ ⟨_, rfl⟩
    refine (divExact_holds hs rfl scratch).bind ?_
    rintro _ ⟨_, rfl⟩
    simp only [mul_ofInt, ok_bind]
    exact .pure rfl

lemma divideOut_holds {s a : ℤ} (hs : s ≠ 0) (c : ℤ) (scratch : LimbScratch) :
    Holds Overrun (fun result => result = (ofInt a, ofInt (c * s)))
      (divideOut (ofInt (s * a)) (ofInt c) (ofInt s) scratch) := by
  simp only [divideOut, isOne_ofInt, decide_eq_true_eq]
  by_cases hone : s = 1
  · rw [if_pos hone, hone, one_mul, mul_one]
    exact .pure rfl
  · rw [if_neg hone]
    refine (divExact_holds hs rfl scratch).bind ?_
    rintro _ ⟨_, rfl⟩
    simp only [mul_ofInt, ok_bind]
    exact .pure rfl

lemma nucompSlope_settles {a₁ a₂ sp : ℤ} (ha₁ : 0 < a₁) (hsp : sp ∣ a₁) (hsp' : sp ∣ a₂)
    (c ss : ℤ) {k : ℤ} (hk : 0 ≤ k ∧ k < a₁) (scratch : LimbScratch) :
    Settles Overrun (fun result => ∃ s b₁ b₂ k' u₂ v₂ : ℤ,
        result = (ofInt b₁, ofInt b₂, ofInt (c * s), ofInt k') ∧ 0 < s ∧ a₁ = s * b₁ ∧
        a₂ = s * b₂ ∧ s ∣ ss ∧ s ∣ sp ∧ v₂ * ss + u₂ * sp = s ∧ b₁ ∣ k' - (k * u₂ - v₂ * c) ∧
        0 ≤ k' ∧ k' < b₁)
      fun fuel => nucompSlope fuel (ofInt a₁) (ofInt a₂) (ofInt c) (ofInt ss) (ofInt sp)
        (ofInt k) scratch := by
  simp only [nucompSlope, isOne_ofInt, decide_eq_true_eq]
  by_cases hone : sp = 1
  · simp only [if_pos hone]
    exact .pure ⟨1, a₁, a₂, k, 1, 0, by rw [mul_one], one_pos, (one_mul a₁).symm,
      (one_mul a₂).symm, one_dvd ss, one_dvd sp, by rw [hone]; ring, by simp, hk⟩
  · simp only [if_neg hone]
    refine (extendedGcd_settles ss sp scratch).bind ?_
    rintro ⟨x, y, gcd⟩ ⟨v₂, u₂, hbezout, rfl, rfl, rfl⟩
    have hspNe : sp ≠ 0 := fun hzero => ha₁.ne' (by simpa [hzero] using hsp)
    have hs : 0 < (Int.gcd ss sp : ℤ) := by
      exact_mod_cast Int.gcd_pos_of_ne_zero_right ss hspNe
    have hleft : (Int.gcd ss sp : ℤ) ∣ ss := Int.gcd_dvd_left ..
    have hright : (Int.gcd ss sp : ℤ) ∣ sp := Int.gcd_dvd_right ..
    generalize (Int.gcd ss sp : ℤ) = s at *
    obtain ⟨b₁, rfl⟩ := hright.trans hsp
    obtain ⟨b₂, rfl⟩ := hright.trans hsp'
    have hb₁ : 0 < b₁ := pos_of_mul_pos_right ha₁ hs.le
    simp only [mul_ofInt, subOwned, subAssign_ofInt, liftM_ok_bind]
    refine (Settles.lift (divideBoth_holds hs.ne' c scratch)).bind ?_
    rintro _ rfl
    refine (Settles.lift (modPositiveWithScratch_holds _ hb₁.ne' scratch)).bind ?_
    rintro _ ⟨z, _, rfl, hcongruent, hrange⟩
    exact .pure ⟨s, b₁, b₂, z, u₂, v₂, rfl, hs, rfl, rfl, hleft, hright, hbezout, hcongruent,
      hrange hb₁⟩

/-! ## `nucomp` -/

/-- A form in the class of one that is composed of two others represents their product. -/
lemma InClass.represents {f g : FormOf D} {form : BinaryForm} {result : FormLimbs}
    (h : InClass form result) (composite : BinaryForm.Composite f.form g.form form)
    (definite : form.PosDef) (disc : form.disc = D.value) :
    Represents (FormClass.mk f * FormClass.mk g) result := by
  obtain ⟨other, rfl, hequivalent⟩ := h
  refine ⟨⟨other, definite.of_equivalent hequivalent, by rw [hequivalent.disc_eq, disc]⟩, rfl, ?_⟩
  exact (FormClass.mk_mul_mk.mpr (composite.equivalent hequivalent)).symm

lemma nucompOrdered_settles (f g : FormOf D) {limit : ℤ} (hlimit : 0 ≤ limit)
    (scratch : LimbScratch) :
    Settles Overrun (Represents (FormClass.mk f * FormClass.mk g)) fun fuel =>
      nucompOrdered fuel (.ofForm f.form) (.ofForm g.form) (ofInt D.value) (ofInt limit)
        scratch := by
  have hrepresents := fun form result => @InClass.represents D f g form result
  generalize hx : FormClass.mk f * FormClass.mk g = x at *
  obtain ⟨f, hf, hfd⟩ := f
  obtain ⟨g, hg, hgd⟩ := g
  dsimp only at hrepresents ⊢
  have hdisc : f.disc = g.disc := hfd.trans hgd.symm
  -- the middle coefficients have one parity
  have hparity : f.b % 2 = g.b % 2 := by
    have hsquares : (f.b - g.b) * (f.b + g.b) = 2 * (2 * (f.a * f.c - g.a * g.c)) := by
      simp only [BinaryForm.disc] at hdisc
      linear_combination hdisc
    rcases Int.even_or_odd (f.b - g.b) with heven | hodd
    · obtain ⟨j, hj⟩ := heven
      omega
    · obtain ⟨i, hi⟩ := hodd
      have hsum : f.b + g.b = 2 * (i + g.b) + 1 := by omega
      rw [hi, hsum] at hsquares
      ring_nf at hsquares
      omega
  have hsum : (f.b + g.b) % 2 = 0 := by omega
  have hdifference : (f.b - g.b) % 2 = 0 := by omega
  simp only [nucompOrdered, FormLimbs.ofForm, add_ofInt, LimbInt.sub, subAssign_ofInt,
    div2Exact_ofInt, if_pos hsum, if_pos hdifference, liftM_ok_bind]
  obtain ⟨ss, hss⟩ := Int.dvd_of_emod_eq_zero hsum
  obtain ⟨m, hm⟩ := Int.dvd_of_emod_eq_zero hdifference
  rw [hss, hm, Int.mul_ediv_cancel_left ss two_ne_zero, Int.mul_ediv_cancel_left m two_ne_zero]
  refine (nucompGcd_settles hf.pos hg.pos scratch).bind ?_
  rintro _ ⟨v₁, sp, rfl, hcofactor, hsp, hsp'⟩
  simp only [mul_ofInt, liftM_ok_bind]
  refine (Settles.lift (modPositiveWithScratch_holds _ hf.pos.ne' scratch)).bind ?_
  rintro _ ⟨k₀, _, rfl, hk₀, hrange⟩
  refine (nucompSlope_settles hf.pos hsp hsp' g.c ss (hrange hf.pos) scratch).bind ?_
  rintro _ ⟨s, a₁, a₂, k, u₂, v₂, rfl, hs, hleft, hright, hsss, hssp, hbezout, hk, hk', hk''⟩
  have ha₁ : 0 < a₁ := pos_of_mul_pos_right (hleft ▸ hf.pos) hs.le
  have hslope : a₁ ∣ k - (m * v₁ * u₂ - v₂ * g.c) := by
    obtain ⟨i, hi⟩ := hk
    obtain ⟨j, hj⟩ := hk₀
    exact ⟨i + s * j * u₂, by rw [hleft] at hj; linear_combination hi + u₂ * hj⟩
  obtain ⟨t, u, v, rfl, hm', slope⟩ := BinaryForm.exists_slope hdisc hs.ne' hleft hright hss hm
    hsss hssp hcofactor hbezout hslope
  have definite := slope.posDef hf hg hs
  have hformDisc := slope.disc_form.trans hgd
  simp only [cmp_ofInt, compare_lt_iff_lt]
  refine Settles.mono ?_ fun result hresult =>
    hrepresents _ result hresult (slope.composite hdisc hf.pos) definite hformDisc
  by_cases hshort : a₁ < limit
  · simp only [if_pos hshort]
    exact .lift (nucompShort_holds slope scratch ha₁.ne')
  · simp only [if_neg hshort]
    refine (xgcdPartial_settles ha₁ hk' hk''.le hlimit scratch).bind ?_
    rintro ⟨co2, co1, r2, r1⟩ ⟨matrix, hco2, hco1, hr1, hsign⟩
    dsimp only at hco2 hco1 hr1
    subst hco2 hco1 hr1
    exact .lift (nucompLong_holds slope scratch ha₁.ne' hm' definite hformDisc matrix hsign)

/-- `nucomp` ends with enough turns of its gcds, with a form of the product of the
classes of its operands or with the fault of a division. -/
lemma nucomp_represents {x y : FormClass D} {left right : FormLimbs} (hleft : Represents x left)
    (hright : Represents y right) (threshold : ℕ) (scratch : LimbScratch) :
    Settles Overrun (Represents (x * y)) fun fuel =>
      nucomp fuel left right (ofInt D.value) (ofInt threshold) scratch := by
  obtain ⟨f, rfl, rfl⟩ := hleft
  obtain ⟨g, rfl, rfl⟩ := hright
  simp only [nucomp]
  by_cases hgt : (FormLimbs.ofForm f.form).a.cmp (FormLimbs.ofForm g.form).a = .gt
  · simp only [if_pos hgt]
    rw [mul_comm]
    exact nucompOrdered_settles g f (Int.natCast_nonneg threshold) scratch
  · simp only [if_neg hgt]
    exact nucompOrdered_settles f g (Int.natCast_nonneg threshold) scratch

/-! ## `nudupl_owned` -/

/-- The gcd of the middle and the first coefficient. -/
lemma nuduplGcd_settles (b : ℤ) {a : ℤ} (ha : 0 ≤ a) (scratch : LimbScratch) :
    Settles Overrun (fun result => ∃ x y : ℤ, result = (ofInt x, ofInt (Int.gcd b a)) ∧
        x * b + y * a = Int.gcd b a)
      fun fuel => nuduplGcd fuel (ofInt b) (ofInt a) scratch := by
  simp only [nuduplGcd, isNegative_ofInt, decide_eq_true_eq]
  by_cases hneg : b < 0
  · simp only [if_pos hneg, negated_ofInt]
    refine (leftExtendedGcdPositive_settles (by omega : 0 ≤ -b) ha scratch).bind ?_
    rintro ⟨x, gcd⟩ ⟨u, w, hbezout, rfl, rfl⟩
    simp only [negated_ofInt, Int.neg_gcd] at hbezout ⊢
    exact .pure ⟨-u, w, rfl, by rw [← hbezout]; ring⟩
  · simp only [if_neg hneg]
    refine (leftExtendedGcdPositive_settles (not_lt.mp hneg) ha scratch).bind ?_
    rintro ⟨x, gcd⟩ ⟨u, w, hbezout, rfl, rfl⟩
    exact .pure ⟨u, w, rfl, hbezout⟩

/-- `nudupl_owned` ends with a form of the square of the class of its operand, or
with the fault of a division. -/
lemma nuduplOwned_represents {x : FormClass D} {form : FormLimbs} (hform : Represents x form)
    (threshold : ℕ) (scratch : LimbScratch) :
    Settles Overrun (Represents (x * x)) fun fuel =>
      nuduplOwned fuel form (ofInt D.value) (ofInt threshold) scratch := by
  obtain ⟨f, rfl, rfl⟩ := hform
  have hrepresents := fun form result => @InClass.represents D f f form result
  generalize FormClass.mk f * FormClass.mk f = x at *
  obtain ⟨f, hf, hfd⟩ := f
  dsimp only at hrepresents ⊢
  simp only [nuduplOwned, FormLimbs.ofForm]
  refine (nuduplGcd_settles f.b hf.pos.le scratch).bind ?_
  rintro _ ⟨x, y, rfl, hbezout⟩
  have hs : 0 < (Int.gcd f.b f.a : ℤ) := by
    exact_mod_cast Int.gcd_pos_of_ne_zero_right f.b hf.pos.ne'
  have hsb : (Int.gcd f.b f.a : ℤ) ∣ f.b := Int.gcd_dvd_left ..
  have hsa : (Int.gcd f.b f.a : ℤ) ∣ f.a := Int.gcd_dvd_right ..
  generalize (Int.gcd f.b f.a : ℤ) = s at *
  obtain ⟨a, ha⟩ := id hsa
  have hapos : 0 < a := pos_of_mul_pos_right (ha ▸ hf.pos) hs.le
  simp only [mulInto_ofInt, negated_ofInt, liftM_ok_bind]
  rw [ha]
  refine (Settles.lift (divideOut_holds hs.ne' f.c scratch)).bind ?_
  rintro _ rfl
  refine (Settles.lift (modPositiveWithScratch_holds _ hapos.ne' scratch)).bind ?_
  rintro _ ⟨k, _, rfl, hk, hrange⟩
  obtain ⟨hk', hk''⟩ := hrange hapos
  -- the form with itself: the gcd of the first coefficients is the first coefficient
  have hcofactor : f.a ∣ 0 * f.a - f.a := by simp
  have hslope : a ∣ k - (0 * 0 * y - x * f.c) := by simpa using hk
  obtain ⟨t, u, v, hst, hm, slope⟩ := BinaryForm.exists_slope (f := f) rfl hs.ne' ha ha
    (two_mul f.b).symm (by ring) hsb hsa hcofactor hbezout hslope
  obtain rfl : u = -k := by
    refine mul_left_cancel₀ hapos.ne' ?_
    linear_combination -hm
  have definite := slope.posDef hf hf hs
  have hformDisc := slope.disc_form.trans hfd
  simp only [cmp_ofInt, compare_lt_iff_lt]
  refine Settles.mono ?_ fun result hresult =>
    hrepresents _ result hresult (slope.composite rfl hf.pos) definite hformDisc
  by_cases hshort : a < threshold
  · simp only [if_pos hshort]
    exact .lift (nuduplShort_holds slope scratch hapos.ne')
  · simp only [if_neg hshort]
    refine (xgcdPartial_settles hapos hk' hk''.le (Int.natCast_nonneg threshold) scratch).bind ?_
    rintro ⟨co2, co1, r2, r1⟩ ⟨matrix, hco2, hco1, hr1, hsign⟩
    dsimp only at hco2 hco1 hr1
    subst hco2 hco1 hr1
    exact .lift (nuduplLong_holds slope scratch hapos.ne' definite hformDisc matrix hsign)

end Vdf

end Iuna
