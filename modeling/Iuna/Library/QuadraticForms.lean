import Mathlib

/-!
# Binary quadratic forms

Forms `a x² + b x y + c y²` over the integers, the forms that a substitution of determinant one
makes of them, and the reduced forms among the positive definite ones.  A form has at most one
reduced form among its equivalents (`Reduced.eq_of_equivalent`).
-/

@[ext]
structure BinaryForm where
  a : ℤ
  b : ℤ
  c : ℤ
  deriving DecidableEq, Repr

namespace BinaryForm

/-- The discriminant. -/
def disc (f : BinaryForm) : ℤ := f.b * f.b - 4 * f.a * f.c

/-- A positive definite form: negative discriminant, positive values. -/
structure PosDef (f : BinaryForm) : Prop where
  pos : 0 < f.a
  neg : f.disc < 0

/-- `f (p x + q y, r x + s y)`. -/
def subst (f : BinaryForm) (p q r s : ℤ) : BinaryForm where
  a := f.a * p * p + f.b * p * r + f.c * r * r
  b := 2 * f.a * p * q + f.b * (p * s + q * r) + 2 * f.c * r * s
  c := f.a * q * q + f.b * q * s + f.c * s * s

/-- Equivalence under substitutions of determinant one. -/
def Equivalent (f g : BinaryForm) : Prop :=
  ∃ p q r s, p * s - q * r = 1 ∧ g = f.subst p q r s

/-- The reduced forms. -/
structure Reduced (f : BinaryForm) : Prop where
  low : -f.a < f.b
  high : f.b ≤ f.a
  outer : f.a ≤ f.c
  sign : f.a = f.c → 0 ≤ f.b

/-- No common factor of the three coefficients. -/
def Primitive (f : BinaryForm) : Prop := Int.gcd f.a (Int.gcd f.b f.c) = 1

instance (f : BinaryForm) : Decidable f.PosDef :=
  decidable_of_iff (0 < f.a ∧ f.disc < 0) ⟨fun h => ⟨h.1, h.2⟩, fun h => ⟨h.pos, h.neg⟩⟩

instance (f : BinaryForm) : Decidable f.Reduced :=
  decidable_of_iff (-f.a < f.b ∧ f.b ≤ f.a ∧ f.a ≤ f.c ∧ (f.a = f.c → 0 ≤ f.b))
    ⟨fun h => ⟨h.1, h.2.1, h.2.2.1, h.2.2.2⟩, fun h => ⟨h.low, h.high, h.outer, h.sign⟩⟩

instance (f : BinaryForm) : Decidable f.Primitive := inferInstanceAs (Decidable (_ = _))

/-! ## Substitutions -/

lemma subst_one (f : BinaryForm) : f.subst 1 0 0 1 = f := by
  ext <;> simp [subst]

lemma subst_subst (f : BinaryForm) (p q r s p' q' r' s' : ℤ) :
    (f.subst p q r s).subst p' q' r' s' = f.subst (p * p' + q * r') (p * q' + q * s')
      (r * p' + s * r') (r * q' + s * s') := by
  ext <;> simp only [subst] <;> ring

lemma disc_subst (f : BinaryForm) (p q r s : ℤ) :
    (f.subst p q r s).disc = f.disc * ((p * s - q * r) * (p * s - q * r)) := by
  simp only [disc, subst]
  ring

/-! ## Equivalence -/

lemma Equivalent.refl (f : BinaryForm) : f.Equivalent f :=
  ⟨1, 0, 0, 1, by norm_num, f.subst_one.symm⟩

lemma Equivalent.trans {f g h : BinaryForm} (hfg : f.Equivalent g) (hgh : g.Equivalent h) :
    f.Equivalent h := by
  obtain ⟨p, q, r, s, det, rfl⟩ := hfg
  obtain ⟨p', q', r', s', det', rfl⟩ := hgh
  refine ⟨_, _, _, _, ?_, f.subst_subst p q r s p' q' r' s'⟩
  calc (p * p' + q * r') * (r * q' + s * s') - (p * q' + q * s') * (r * p' + s * r')
      = (p * s - q * r) * (p' * s' - q' * r') := by ring
    _ = 1 := by rw [det, det', mul_one]

lemma Equivalent.symm {f g : BinaryForm} (h : f.Equivalent g) : g.Equivalent f := by
  obtain ⟨p, q, r, s, det, rfl⟩ := h
  refine ⟨s, -q, -r, p, by linarith, ?_⟩
  have h₁ : p * s + q * -r = 1 := by linarith
  have h₂ : r * -q + s * p = 1 := by linarith
  have h₃ : p * -q + q * p = 0 := by ring
  have h₄ : r * s + s * -r = 0 := by ring
  rw [subst_subst, h₁, h₂, h₃, h₄, subst_one]

lemma Equivalent.disc_eq {f g : BinaryForm} (h : f.Equivalent g) : g.disc = f.disc := by
  obtain ⟨p, q, r, s, det, rfl⟩ := h
  rw [disc_subst, det, mul_one, mul_one]

/-- The exchange of the two variables, with a sign. -/
lemma equivalent_reverse (f : BinaryForm) : f.Equivalent ⟨f.c, -f.b, f.a⟩ :=
  ⟨0, 1, -1, 0, by norm_num, by ext <;> simp [subst]⟩

/-! ## Positive definite forms -/

lemma PosDef.four_mul_pos {f : BinaryForm} (h : f.PosDef) (x y : ℤ) (nonzero : x ≠ 0 ∨ y ≠ 0) :
    0 < 4 * f.a * (f.a * x * x + f.b * x * y + f.c * y * y) := by
  have hsq : 4 * f.a * (f.a * x * x + f.b * x * y + f.c * y * y)
      = (2 * f.a * x + f.b * y) * (2 * f.a * x + f.b * y) + -f.disc * (y * y) := by
    simp only [disc]
    ring
  rw [hsq]
  have ha := h.pos
  have hd := h.neg
  by_cases hy : y = 0
  · subst hy
    have hx : x ≠ 0 := by simpa using nonzero
    have : 2 * f.a * x ≠ 0 := mul_ne_zero (by omega) hx
    have := mul_self_pos.2 this
    simpa using this
  · have hyy : 0 < y * y := mul_self_pos.2 hy
    have := mul_pos (neg_pos.2 hd) hyy
    nlinarith [mul_self_nonneg (2 * f.a * x + f.b * y)]

/-- A positive definite form takes positive values. -/
lemma PosDef.value_pos {f : BinaryForm} (h : f.PosDef) (x y : ℤ) (nonzero : x ≠ 0 ∨ y ≠ 0) :
    0 < f.a * x * x + f.b * x * y + f.c * y * y :=
  pos_of_mul_pos_right (h.four_mul_pos x y nonzero) (by have := h.pos; omega)

lemma PosDef.last_pos {f : BinaryForm} (h : f.PosDef) : 0 < f.c := by
  simpa using h.value_pos 0 1 (Or.inr one_ne_zero)

lemma PosDef.of_equivalent {f g : BinaryForm} (h : f.PosDef) (equivalent : f.Equivalent g) :
    g.PosDef := by
  refine ⟨?_, by rw [equivalent.disc_eq]; exact h.neg⟩
  obtain ⟨p, q, r, s, det, rfl⟩ := equivalent
  refine h.value_pos p r ?_
  by_contra hzero
  obtain ⟨rfl, rfl⟩ : p = 0 ∧ r = 0 := by tauto
  simp at det

/-! ## Uniqueness of the reduced form -/

/-- Where a reduced form takes a value as small as its first coefficient. -/
lemma Reduced.value_le {f : BinaryForm} (h : f.Reduced) (positive : 0 < f.a) {p r : ℤ}
    (value : f.a * p * p + f.b * p * r + f.c * r * r ≤ f.a) :
    r = 0 ∨ (p = 0 ∧ r * r = 1 ∧ f.c = f.a)
      ∨ (f.c = f.a ∧ f.b = f.a ∧ p * r = -1) := by
  have hlow := h.low
  have hhigh := h.high
  have houter := h.outer
  by_cases hr : r = 0
  · exact Or.inl hr
  have hrr : 1 ≤ r * r := Int.add_one_le_iff.2 (mul_self_pos.2 hr)
  by_cases hp : p = 0
  · subst hp
    have hone : r * r ≤ 1 := by nlinarith
    have hunit : r * r = 1 := le_antisymm hone hrr
    refine Or.inr (Or.inl ⟨rfl, hunit, le_antisymm ?_ houter⟩)
    nlinarith
  -- the cross term takes away at most as much as the two squares leave
  have hx : 1 ≤ |p * r| := Int.one_le_abs (mul_ne_zero hp hr)
  have hcross : 0 ≤ f.a * |p * r| + f.b * (p * r) := by
    rcases abs_cases (p * r) with ⟨habs, hs⟩ | ⟨habs, hs⟩ <;> rw [habs] <;> nlinarith
  have hsquares : 2 * |p * r| ≤ p * p + r * r := by
    rcases abs_cases (p * r) with ⟨habs, -⟩ | ⟨habs, -⟩ <;> rw [habs]
    · nlinarith [mul_self_nonneg (p - r)]
    · nlinarith [mul_self_nonneg (p + r)]
  have hsplit : f.a * p * p + f.b * p * r + f.c * r * r
      = f.a * (p * p + r * r - 2 * |p * r|) + (f.a * |p * r| + f.b * (p * r))
        + f.a * |p * r| + (f.c - f.a) * (r * r) := by ring
  have h₁ : 0 ≤ f.a * (p * p + r * r - 2 * |p * r|) := mul_nonneg positive.le (by linarith)
  have h₂ : f.a * 1 ≤ f.a * |p * r| := mul_le_mul_of_nonneg_left hx positive.le
  have h₃ : (f.c - f.a) * 1 ≤ (f.c - f.a) * (r * r) :=
    mul_le_mul_of_nonneg_left hrr (by linarith)
  have hc : f.c = f.a := by linarith
  have hb : 0 ≤ f.b := h.sign hc.symm
  have habs : |p * r| = 1 := by
    have : f.a * |p * r| ≤ f.a * 1 := by linarith
    exact le_antisymm (le_of_mul_le_mul_left this positive) hx
  have hcut : f.a + f.b * (p * r) ≤ 0 := by
    rw [habs, mul_one] at hsplit hcross h₁
    linarith
  rcases abs_eq (zero_le_one' ℤ) |>.1 habs with hone | hone
  · rw [hone] at hcut
    omega
  · rw [hone] at hcut
    exact Or.inr (Or.inr ⟨hc, by omega, hone⟩)

/-- A middle coefficient is the only one of its class in the half-open interval. -/
lemma middle_eq {a b b' k : ℤ} (low : -a < b) (high : b ≤ a) (low' : -a < b') (high' : b' ≤ a)
    (shift : b' = b + 2 * a * k) : b' = b := by
  have hk : k = 0 := by
    have hup : k < 1 := by nlinarith
    have hdown : -1 < k := by nlinarith
    omega
  rw [shift, hk, mul_zero, add_zero]

/-- Two forms of one discriminant that agree in the first two coefficients are the same. -/
lemma eq_of_disc {f g : BinaryForm} (positive : 0 < f.a) (ha : g.a = f.a) (hb : g.b = f.b)
    (disc : g.disc = f.disc) : g = f := by
  have hc : 4 * f.a * g.c = 4 * f.a * f.c := by
    simp only [BinaryForm.disc, ha, hb] at disc
    linarith
  exact BinaryForm.ext ha hb (mul_left_cancel₀ (by omega) hc)

lemma Reduced.eq_of_subst {f : BinaryForm} (h : f.Reduced) (positive : 0 < f.a) {p q r s : ℤ}
    (det : p * s - q * r = 1) (hg : (f.subst p q r s).Reduced)
    (smaller : (f.subst p q r s).a ≤ f.a) : f.subst p q r s = f := by
  have hdisc : (f.subst p q r s).disc = f.disc := by rw [disc_subst, det, mul_one, mul_one]
  have hlow := hg.low
  have hhigh := hg.high
  rcases h.value_le positive smaller with rfl | ⟨rfl, hr, hc⟩ | ⟨hc, hb, hpr⟩
  · -- a shear: the middle coefficient keeps its class
    have hps : p * s = 1 := by linarith
    have hpp : p * p = 1 := by
      rcases Int.eq_one_or_neg_one_of_mul_eq_one hps with rfl | rfl <;> rfl
    have ha : (f.subst p q 0 s).a = f.a := by
      simp only [subst]
      linear_combination f.a * hpp
    have hb : (f.subst p q 0 s).b = f.b + 2 * f.a * (p * q) := by
      simp only [subst]
      linear_combination f.b * hps
    rw [ha] at hlow hhigh
    exact eq_of_disc positive ha (middle_eq h.low h.high hlow hhigh hb) hdisc
  · -- a reversal between equal outer coefficients
    have hnonneg := h.sign hc.symm
    have hqr : q * r = -1 := by linarith
    have ha : (f.subst 0 q r s).a = f.a := by
      simp only [subst]
      linear_combination f.c * hr + hc
    have hb : (f.subst 0 q r s).b = -f.b + 2 * f.a * (r * s) := by
      simp only [subst]
      linear_combination f.b * hqr + 2 * r * s * hc
    rw [ha] at hlow hhigh
    by_cases hend : f.b = f.a
    · have hsame : (f.subst 0 q r s).b = f.a :=
        middle_eq (k := r * s - 1) (by omega) le_rfl hlow hhigh (by rw [hb, hend]; ring)
      exact eq_of_disc positive ha (by rw [hsame, hend]) hdisc
    · have hsame : (f.subst 0 q r s).b = -f.b :=
        middle_eq (by have := h.high; omega) (by omega) hlow hhigh hb
      have hc' : (f.subst 0 q r s).c = f.a := by
        have h4 : 4 * f.a * (f.subst 0 q r s).c = 4 * f.a * f.a := by
          simp only [disc, ha, hsame, hc] at hdisc
          linarith
        exact mul_left_cancel₀ (by omega) h4
      have hsign := hg.sign (by rw [ha, hc'])
      exact eq_of_disc positive ha (by omega) hdisc
  · -- three equal coefficients: the discriminant leaves one form
    have hsq : p * p = 1 ∧ r * r = 1 := by
      have hunit : p * (-r) = 1 := by linarith
      have hunit' : r * (-p) = 1 := by linarith
      constructor
      · rcases Int.eq_one_or_neg_one_of_mul_eq_one hunit with rfl | rfl <;> rfl
      · rcases Int.eq_one_or_neg_one_of_mul_eq_one hunit' with rfl | rfl <;> rfl
    have ha : (f.subst p q r s).a = f.a := by
      simp only [subst, hb, hc]
      linear_combination f.a * hsq.1 + f.a * hpr + f.a * hsq.2
    have houter := hg.outer
    rw [ha] at hlow hhigh houter
    have hd : (f.subst p q r s).b * (f.subst p q r s).b - 4 * f.a * (f.subst p q r s).c
        = f.a * f.a - 4 * f.a * f.a := by
      simpa only [disc, ha, hb, hc] using hdisc
    have hc' : (f.subst p q r s).c = f.a := by
      refine le_antisymm ?_ houter
      by_contra hlt
      nlinarith
    have hsign := hg.sign (by rw [ha, hc'])
    have hb' : (f.subst p q r s).b = f.a := by
      rw [hc'] at hd
      nlinarith
    exact eq_of_disc positive ha (by rw [hb', hb]) hdisc

/-- **Uniqueness.** Equivalent reduced forms are the same form. -/
theorem Reduced.eq_of_equivalent {f g : BinaryForm} (hf : f.Reduced) (hg : g.Reduced)
    (definite : f.PosDef) (equivalent : f.Equivalent g) : f = g := by
  rcases le_total g.a f.a with hle | hle
  · obtain ⟨p, q, r, s, det, rfl⟩ := equivalent
    exact (hf.eq_of_subst definite.pos det hg hle).symm
  · have hdefinite := definite.of_equivalent equivalent
    obtain ⟨p, q, r, s, det, rfl⟩ := equivalent.symm
    exact hg.eq_of_subst hdefinite.pos det hf hle

end BinaryForm
