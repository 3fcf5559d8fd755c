import Iuna.Library.FormComposition

/-!
# The group of form classes

Composition is well defined and associative on classes of primitive forms.  The trilinear maps of
two bracketings have the same minors, and two pairs of integer vectors with the same minors, which
have no common factor, differ by a substitution of determinant one.
-/

namespace BinaryForm

/-! ## Vectors with the same minors -/

section Minors

variable {ι : Type} [Fintype ι]

def minor (p q : ι → ℤ) (i j : ι) : ℤ := p i * q j - p j * q i

/-- Two pairs of vectors with the same minors, without a common factor. -/
lemma exists_substitution {p q p' q' : ι → ℤ} (same : ∀ i j, minor p' q' i j = minor p q i j)
    (weight : ι → ι → ℤ) (bezout : ∑ i, ∑ j, weight i j * minor p q i j = 1) :
    ∃ a b c d : ℤ, a * d - b * c = 1 ∧ (∀ l, p' l = a * p l + b * q l) ∧
      ∀ l, q' l = c * p l + d * q l := by
  have hcramer : ∀ (v : ι → ℤ) (l : ι), (∀ i j, v i * minor p' q' l j + v j * minor p' q' i l
        = v l * minor p' q' i j) →
      v l = (∑ i, ∑ j, weight i j * (v i * q j - v j * q i)) * p l
        + (∑ i, ∑ j, weight i j * (v j * p i - v i * p j)) * q l := by
    intro v l hv
    calc v l = v l * ∑ i, ∑ j, weight i j * minor p q i j := by rw [bezout, mul_one]
      _ = ∑ i, ∑ j, weight i j * (v l * minor p' q' i j) := by
        simp only [Finset.mul_sum, same]
        exact Finset.sum_congr rfl fun i _ => Finset.sum_congr rfl fun j _ => by ring
      _ = ∑ i, ∑ j, (weight i j * (v i * q j - v j * q i) * p l
            + weight i j * (v j * p i - v i * p j) * q l) := by
        refine Finset.sum_congr rfl fun i _ => Finset.sum_congr rfl fun j _ => ?_
        rw [← hv i j, same, same]
        simp only [minor]
        ring
      _ = _ := by simp only [Finset.sum_add_distrib, Finset.sum_mul]
  have hp := fun l => hcramer p' l fun i j => by simp only [minor]; ring
  have hq := fun l => hcramer q' l fun i j => by simp only [minor]; ring
  generalize (∑ i, ∑ j, weight i j * (p' i * q j - p' j * q i)) = a at hp
  generalize (∑ i, ∑ j, weight i j * (p' j * p i - p' i * p j)) = b at hp
  generalize (∑ i, ∑ j, weight i j * (q' i * q j - q' j * q i)) = c at hq
  generalize (∑ i, ∑ j, weight i j * (q' j * p i - q' i * p j)) = d at hq
  refine ⟨a, b, c, d, ?_, hp, hq⟩
  -- every minor is the determinant times itself
  calc a * d - b * c = (a * d - b * c) * ∑ i, ∑ j, weight i j * minor p q i j := by
        rw [bezout, mul_one]
    _ = ∑ i, ∑ j, weight i j * minor p' q' i j := by
      simp only [Finset.mul_sum]
      refine Finset.sum_congr rfl fun i _ => Finset.sum_congr rfl fun j _ => ?_
      simp only [minor, hp, hq]
      ring
    _ = 1 := by simp only [same, bezout]

end Minors

/-- A form is fixed by its values on the combinations of two vectors that span the plane. -/
lemma eq_of_values {f g : BinaryForm} {p q r s : ℤ} (nonzero : p * s - q * r ≠ 0)
    (values : ∀ z w, f.value (p * z + q * w) (r * z + s * w)
      = g.value (p * z + q * w) (r * z + s * w)) : f = g := by
  have hscale : ∀ (h : BinaryForm) (x y : ℤ),
      h.value (p * (s * x - q * y) + q * (p * y - r * x))
          (r * (s * x - q * y) + s * (p * y - r * x))
        = (p * s - q * r) ^ 2 * h.value x y := by
    intro h x y
    simp only [value]
    ring
  have hvalue : ∀ x y, f.value x y = g.value x y := by
    intro x y
    have h := values (s * x - q * y) (p * y - r * x)
    rw [hscale, hscale] at h
    exact mul_left_cancel₀ (pow_ne_zero 2 nonzero) h
  have h₁ := hvalue 1 0
  have h₂ := hvalue 0 1
  have h₃ := hvalue 1 1
  simp only [value] at h₁ h₂ h₃
  ext <;> linarith

/-! ## The forms of a composition -/

namespace ComposedBy

variable {f g h : BinaryForm} {X Y : Bilinear}

lemma left_eq (composed : ComposedBy f g h X Y) : f = X.left Y := by
  have h₁ := composed.left 1 0
  have h₂ := composed.left 0 1
  have h₃ := composed.left 1 1
  simp only [value, Bilinear.eval] at h₁ h₂ h₃
  ext <;> simp only [Bilinear.left] <;> linarith

lemma right_eq (composed : ComposedBy f g h X Y) : g = X.right Y := by
  have h₁ := composed.right 1 0
  have h₂ := composed.right 0 1
  have h₃ := composed.right 1 1
  simp only [value, Bilinear.eval] at h₁ h₂ h₃
  ext <;> simp only [Bilinear.right] <;> linarith

lemma product_eq (composed : ComposedBy f g h X Y) (nonzero : f.a ≠ 0) : h = X.product Y := by
  have hleft := composed.left_eq
  refine eq_of_values (p := X.xz) (q := X.xw) (r := Y.xz) (s := Y.xw) ?_ fun z w => ?_
  · intro hzero
    apply nonzero
    rw [hleft]
    simp only [Bilinear.left]
    linarith
  · have hproduct := composed.product 1 0 z w
    simp only [Bilinear.eval, mul_one, mul_zero, zero_mul, add_zero] at hproduct
    rw [← hproduct, hleft, composed.right_eq]
    simp only [value, Bilinear.left, Bilinear.right, Bilinear.product]
    ring

end ComposedBy

/-! ## Minors in terms of the forms -/

/-- Twice the coefficients of the symmetric bilinear form. -/
def polar (f : BinaryForm) : Bool → Bool → ℤ
  | false, false => 2 * f.a
  | true, true => 2 * f.c
  | _, _ => f.b

/-- The determinant of two basis vectors. -/
def area : Bool → Bool → ℤ
  | false, true => 1
  | true, false => -1
  | _, _ => 0

def Bilinear.coef (m : Bilinear) : Bool → Bool → ℤ
  | false, false => m.xz
  | false, true => m.xw
  | true, false => m.yz
  | true, true => m.yw

lemma two_minor (X Y : Bilinear) (i j i' j' : Bool) :
    2 * (X.coef i j * Y.coef i' j' - X.coef i' j' * Y.coef i j)
      = (X.left Y).polar i i' * area j j' + area i i' * (X.right Y).polar j j' := by
  cases i <;> cases j <;> cases i' <;> cases j' <;>
    simp only [Bilinear.coef, polar, area, Bilinear.left, Bilinear.right] <;> ring

/-- The composed form at two columns. -/
lemma polar_product (X Y : Bilinear) (i j i' j' : Bool) :
    2 * (2 * (X.product Y).a * (X.coef i j * X.coef i' j')
        + (X.product Y).b * (X.coef i j * Y.coef i' j' + X.coef i' j' * Y.coef i j)
        + 2 * (X.product Y).c * (Y.coef i j * Y.coef i' j'))
      = (X.left Y).polar i i' * (X.right Y).polar j j'
        + (X.product Y).disc * area i i' * area j j' := by
  cases i <;> cases j <;> cases i' <;> cases j' <;>
    simp only [Bilinear.coef, polar, area, Bilinear.left, Bilinear.right, Bilinear.product,
      disc] <;>
    ring

/-- The first pair of bilinear maps put into a component of the second. -/
def triple (X Y Z : Bilinear) (index : Bool × Bool × Bool) : ℤ :=
  Z.coef false index.2.2 * X.coef index.1 index.2.1
    + Z.coef true index.2.2 * Y.coef index.1 index.2.1

/-- The minors of a double composition, in terms of its three operands. -/
lemma four_minor {X Y Z W : Bilinear} (joined : Z.left W = X.product Y)
    (i i' : Bool × Bool × Bool) :
    4 * minor (triple X Y Z) (triple X Y W) i i'
      = (X.left Y).polar i.1 i'.1 * (X.right Y).polar i.2.1 i'.2.1 * area i.2.2 i'.2.2
        + (X.left Y).polar i.1 i'.1 * area i.2.1 i'.2.1 * (Z.right W).polar i.2.2 i'.2.2
        + area i.1 i'.1 * (X.right Y).polar i.2.1 i'.2.1 * (Z.right W).polar i.2.2 i'.2.2
        + (X.product Y).disc * area i.1 i'.1 * area i.2.1 i'.2.1 * area i.2.2 i'.2.2 := by
  obtain ⟨i, j, k⟩ := i
  obtain ⟨i', j', k'⟩ := i'
  have h₀₀ := two_minor Z W false k false k'
  have h₀₁ := two_minor Z W false k true k'
  have h₁₀ := two_minor Z W true k false k'
  have h₁₁ := two_minor Z W true k true k'
  have hpolar := polar_product X Y i j i' j'
  have hminor := two_minor X Y i j i' j'
  rw [joined] at h₀₀ h₀₁ h₁₀ h₁₁
  simp only [minor, triple]
  simp only [show ∀ f : BinaryForm, f.polar false false = 2 * f.a from fun _ => rfl,
    show ∀ f : BinaryForm, f.polar false true = f.b from fun _ => rfl,
    show ∀ f : BinaryForm, f.polar true false = f.b from fun _ => rfl,
    show ∀ f : BinaryForm, f.polar true true = 2 * f.c from fun _ => rfl,
    show area false false = 0 from rfl, show area false true = 1 from rfl,
    show area true false = -1 from rfl, show area true true = 0 from rfl] at h₀₀ h₀₁ h₁₀ h₁₁
  linear_combination 2 * X.coef i j * X.coef i' j' * h₀₀ + 2 * X.coef i j * Y.coef i' j' * h₀₁
    + 2 * Y.coef i j * X.coef i' j' * h₁₀ + 2 * Y.coef i j * Y.coef i' j' * h₁₁
    + area k k' * hpolar + (Z.right W).polar k k' * hminor

/-! ## Uniqueness -/

lemma Primitive.bezout {f : BinaryForm} (primitive : f.Primitive) :
    ∃ x y z : ℤ, x * f.a + y * f.b + z * f.c = 1 := by
  have h₁ := Int.gcd_eq_gcd_ab f.a (Int.gcd f.b f.c)
  have h₂ := Int.gcd_eq_gcd_ab f.b f.c
  rw [primitive] at h₁
  refine ⟨Int.gcdA f.a (Int.gcd f.b f.c), Int.gcdB f.a (Int.gcd f.b f.c) * Int.gcdA f.b f.c,
    Int.gcdB f.a (Int.gcd f.b f.c) * Int.gcdB f.b f.c, ?_⟩
  push_cast at h₁
  linear_combination -h₁ - Int.gcdB f.a (Int.gcd f.b f.c) * h₂

/-- The symmetric weights of a combination of coefficients. -/
def weight (x y z : ℤ) : Bool → Bool → ℤ
  | false, false => x
  | true, true => z
  | _, _ => y

/-- The weight of the first basis vector against the second. -/
def first : Bool → Bool → ℤ
  | false, true => 1
  | _, _ => 0

/-- Composites of primitive forms are equivalent. -/
theorem Composite.unique {f g h h' : BinaryForm} (nonzero : f.a ≠ 0) (primitive : f.Primitive)
    (composite : Composite f g h) (composite' : Composite f g h') : h.Equivalent h' := by
  obtain ⟨X, Y, composed⟩ := composite
  obtain ⟨X', Y', composed'⟩ := composite'
  obtain ⟨x, y, z, hbezout⟩ := primitive.bezout
  have hsame : ∀ i j : Bool × Bool, minor (fun i => X.coef i.1 i.2) (fun i => Y.coef i.1 i.2) i j
      = minor (fun i => X'.coef i.1 i.2) (fun i => Y'.coef i.1 i.2) i j := by
    intro i j
    have h₁ := two_minor X Y i.1 i.2 j.1 j.2
    have h₂ := two_minor X' Y' i.1 i.2 j.1 j.2
    rw [← composed.left_eq, ← composed.right_eq] at h₁
    rw [← composed'.left_eq, ← composed'.right_eq, ← h₁] at h₂
    simp only [minor]
    linarith
  have hweights : ∑ i : Bool × Bool, ∑ j : Bool × Bool, weight x y z i.1 j.1 * first i.2 j.2
      * minor (fun i => X'.coef i.1 i.2) (fun i => Y'.coef i.1 i.2) i j = 1 := by
    have hleft := composed'.left_eq
    simp only [Fintype.sum_prod_type, Fintype.sum_bool, weight, first, minor, Bilinear.coef]
    rw [hleft] at hbezout
    simp only [Bilinear.left] at hbezout
    linear_combination hbezout
  obtain ⟨a, b, c, d, hdet, hX, hY⟩ := exists_substitution hsame _ hweights
  refine ⟨a, b, c, d, hdet, ?_⟩
  -- both forms have the values of the product at the first basis vector
  refine (eq_of_values (p := X'.xz) (q := X'.xw) (r := Y'.xz) (s := Y'.xw) ?_ fun z w => ?_)
  · intro hzero
    apply nonzero
    rw [composed'.left_eq]
    simp only [Bilinear.left]
    linarith
  · have h₀ := hX (false, false)
    have h₁ := hX (false, true)
    have h₂ := hY (false, false)
    have h₃ := hY (false, true)
    simp only [Bilinear.coef] at h₀ h₁ h₂ h₃
    have hvalue := composed.product 1 0 z w
    have hvalue' := composed'.product 1 0 z w
    rw [hvalue] at hvalue'
    simp only [Bilinear.eval, mul_one, mul_zero, zero_mul, add_zero] at hvalue'
    rw [← hvalue', value_subst, h₀, h₁, h₂, h₃]
    congr 1 <;> ring

/-! ## Associativity -/

/-- The two bracketings of a triple composition are equivalent. -/
theorem Composite.assoc {f g h fg gh left right : BinaryForm} (hf : f.a ≠ 0) (hg : g.a ≠ 0)
    (primitive : f.Primitive) (primitive' : g.Primitive)
    (disc : fg.disc = gh.disc) (composite : Composite f g fg) (composite' : Composite fg h left)
    (compositeLeft : Composite g h gh) (compositeRight : Composite f gh right) :
    left.Equivalent right := by
  obtain ⟨X, Y, hXY⟩ := composite
  obtain ⟨Z, W, hZW⟩ := composite'
  obtain ⟨X', Y', hXY'⟩ := compositeLeft
  obtain ⟨Z', W', hZW'⟩ := compositeRight.symm
  obtain ⟨x₁, y₁, z₁, hbezout₁⟩ := primitive.bezout
  obtain ⟨x₂, y₂, z₂, hbezout₂⟩ := primitive'.bezout
  have hjoin : Z.left W = X.product Y := hZW.left_eq.symm.trans (hXY.product_eq hf)
  have hjoin' : Z'.left W' = X'.product Y' := hZW'.left_eq.symm.trans (hXY'.product_eq hg)
  have hminor := fun i i' => four_minor hjoin i i'
  have hminor' := fun i i' => four_minor hjoin' i i'
  simp only [← hXY.left_eq, ← hXY.right_eq, ← hZW.right_eq, ← hXY.product_eq hf] at hminor
  simp only [← hXY'.left_eq, ← hXY'.right_eq, ← hZW'.right_eq, ← hXY'.product_eq hg] at hminor'
  have hsame : ∀ i i' : Bool × Bool × Bool,
      minor (fun i => triple X' Y' Z' (i.2.1, i.2.2, i.1))
          (fun i => triple X' Y' W' (i.2.1, i.2.2, i.1)) i i'
        = minor (triple X Y Z) (triple X Y W) i i' := by
    intro i i'
    have h₁ := hminor i i'
    have h₂ := hminor' (i.2.1, i.2.2, i.1) (i'.2.1, i'.2.2, i'.1)
    dsimp only at h₂
    rw [← disc] at h₂
    have h₃ : minor (fun i => triple X' Y' Z' (i.2.1, i.2.2, i.1))
          (fun i => triple X' Y' W' (i.2.1, i.2.2, i.1)) i i'
        = minor (triple X' Y' Z') (triple X' Y' W') (i.2.1, i.2.2, i.1) (i'.2.1, i'.2.2, i'.1) :=
      rfl
    rw [h₃]
    refine mul_left_cancel₀ (show (4 : ℤ) ≠ 0 by norm_num) ?_
    rw [h₁, h₂]
    ring
  have hweights : ∑ i : Bool × Bool × Bool, ∑ i' : Bool × Bool × Bool,
      weight x₁ y₁ z₁ i.1 i'.1 * weight x₂ y₂ z₂ i.2.1 i'.2.1 * first i.2.2 i'.2.2
        * minor (triple X Y Z) (triple X Y W) i i' = 1 := by
    refine mul_left_cancel₀ (show (4 : ℤ) ≠ 0 by norm_num) ?_
    simp only [Finset.mul_sum, mul_left_comm (4 : ℤ), hminor]
    simp only [Fintype.sum_prod_type, Fintype.sum_bool, weight, first, polar, area]
    linear_combination 4 * (x₂ * g.a + y₂ * g.b + z₂ * g.c) * hbezout₁ + 4 * hbezout₂
  obtain ⟨a, b, c, d, hdet, hp, hq⟩ := exists_substitution hsame _ hweights
  refine Equivalent.symm ⟨a, b, c, d, hdet, ?_⟩
  -- both forms have the values of the product at the first two basis vectors
  have hfirst := hminor (false, false, false) (false, false, true)
  simp only [polar, area, minor, triple, Bilinear.coef] at hfirst
  refine eq_of_values (p := Z.xz * X.xz + Z.yz * Y.xz) (q := Z.xw * X.xz + Z.yw * Y.xz)
    (r := W.xz * X.xz + W.yz * Y.xz) (s := W.xw * X.xz + W.yw * Y.xz) ?_ fun z w => ?_
  · intro hzero
    have hproduct : 4 * (f.a * g.a) = 0 := by linear_combination 4 * hzero - hfirst
    exact mul_ne_zero hf hg (by omega)
  · have h₀ := hp (false, false, false)
    have h₁ := hp (false, false, true)
    have h₂ := hq (false, false, false)
    have h₃ := hq (false, false, true)
    simp only [triple, Bilinear.coef] at h₀ h₁ h₂ h₃
    have hinner := hXY.product 1 0 1 0
    have houter := hZW.product (X.eval 1 0 1 0) (Y.eval 1 0 1 0) z w
    have hinner' := hXY'.product 1 0 z w
    have houter' := hZW'.product (X'.eval 1 0 z w) (Y'.eval 1 0 z w) 1 0
    rw [← hinner] at houter
    rw [← hinner'] at houter'
    have hvalues : left.value (Z.eval (X.eval 1 0 1 0) (Y.eval 1 0 1 0) z w)
          (W.eval (X.eval 1 0 1 0) (Y.eval 1 0 1 0) z w)
        = right.value (Z'.eval (X'.eval 1 0 z w) (Y'.eval 1 0 z w) 1 0)
          (W'.eval (X'.eval 1 0 z w) (Y'.eval 1 0 z w) 1 0) := by
      rw [← houter, ← houter']
      ring
    rw [value_subst]
    convert hvalues using 2
    · simp only [Bilinear.eval]
      ring
    · simp only [Bilinear.eval]
      ring
    · simp only [Bilinear.eval]
      linear_combination (-z) * h₀ - w * h₁
    · simp only [Bilinear.eval]
      linear_combination (-z) * h₂ - w * h₃

/-! ## The group -/

/-- A negative discriminant without square factors, of the residue of an odd middle coefficient. -/
structure Discriminant where
  value : ℤ
  negative : value < 0
  squarefree : Squarefree value
  residue : value % 4 = 1

/-- A positive definite form of a discriminant. -/
structure FormOf (D : Discriminant) where
  form : BinaryForm
  posDef : form.PosDef
  disc_eq : form.disc = D.value

namespace FormOf

variable {D : Discriminant}

lemma primitive (f : FormOf D) : f.form.Primitive := by
  obtain ⟨f, definite, hdisc⟩ := f
  have hgcd : ∀ n : ℤ, n ∣ f.a → n ∣ f.b → n ∣ f.c → IsUnit n := by
    rintro n ⟨a, ha⟩ ⟨b, hb⟩ ⟨c, hc⟩
    refine D.squarefree n ⟨b * b - 4 * a * c, ?_⟩
    rw [← hdisc, disc, ha, hb, hc]
    ring
  have hinner : (Int.gcd f.a (Int.gcd f.b f.c) : ℤ) ∣ (Int.gcd f.b f.c : ℤ) :=
    Int.gcd_dvd_right ..
  have hunit := hgcd (Int.gcd f.a (Int.gcd f.b f.c)) (Int.gcd_dvd_left ..)
    (hinner.trans (Int.gcd_dvd_left ..)) (hinner.trans (Int.gcd_dvd_right ..))
  rw [Primitive]
  simpa [Int.isUnit_iff_natAbs_eq] using hunit

lemma odd (f : FormOf D) : ∃ i, f.form.b = 2 * i + 1 := by
  have hdisc := f.disc_eq
  have hresidue := D.residue
  rcases Int.even_or_odd f.form.b with ⟨i, hi⟩ | h
  · rw [disc, hi] at hdisc
    have hfour : (i + i) * (i + i) - 4 * f.form.a * f.form.c
        = 4 * (i * i - f.form.a * f.form.c) := by ring
    omega
  · exact h

lemma disc_principal (D : Discriminant) : disc ⟨1, 1, (1 - D.value) / 4⟩ = D.value := by
  have hresidue := D.residue
  simp only [disc]
  omega

lemma principal_posDef (D : Discriminant) :
    PosDef (⟨1, 1, (1 - D.value) / 4⟩ : BinaryForm) :=
  ⟨one_pos, (disc_principal D).trans_lt D.negative⟩

/-- The principal form. -/
def principal (D : Discriminant) : FormOf D where
  form := ⟨1, 1, (1 - D.value) / 4⟩
  posDef := principal_posDef D
  disc_eq := disc_principal D

lemma disc_inverse (f : FormOf D) : disc ⟨f.form.a, -f.form.b, f.form.c⟩ = D.value := by
  rw [← f.disc_eq]
  simp only [disc]
  ring

/-- The form with the middle coefficient negated. -/
def inverse (f : FormOf D) : FormOf D where
  form := ⟨f.form.a, -f.form.b, f.form.c⟩
  posDef := ⟨f.posDef.pos, by rw [disc_inverse]; exact D.negative⟩
  disc_eq := f.disc_inverse

lemma disc_same (f g : FormOf D) : f.form.disc = g.form.disc := f.disc_eq.trans g.disc_eq.symm

/-- Any two forms of a discriminant have a composite. -/
lemma exists_composite (f g : FormOf D) : ∃ h : FormOf D, Composite f.form g.form h.form := by
  obtain ⟨i, hi⟩ := f.odd
  obtain ⟨j, hj⟩ := g.odd
  have hdisc := disc_same f g
  obtain ⟨f, hf, hfd⟩ := f
  obtain ⟨g, hg, hgd⟩ := g
  dsimp only at hi hj hdisc ⊢
  -- the gcd of the first coefficients, and that of it with the half of the sum of the middle ones
  have h₁ := Int.gcd_eq_gcd_ab f.a g.a
  have hleft : (Int.gcd f.a g.a : ℤ) ∣ f.a := Int.gcd_dvd_left ..
  have hright : (Int.gcd f.a g.a : ℤ) ∣ g.a := Int.gcd_dvd_right ..
  have hpos : 0 < (Int.gcd f.a g.a : ℤ) := by
    exact_mod_cast Int.gcd_pos_of_ne_zero_left g.a hf.pos.ne'
  generalize (Int.gcd f.a g.a : ℤ) = sp at *
  have h₂ := Int.gcd_eq_gcd_ab (i + j + 1) sp
  have hsum : (Int.gcd (i + j + 1) sp : ℤ) ∣ i + j + 1 := Int.gcd_dvd_left ..
  have hsp : (Int.gcd (i + j + 1) sp : ℤ) ∣ sp := Int.gcd_dvd_right ..
  have hs : 0 < (Int.gcd (i + j + 1) sp : ℤ) := by
    exact_mod_cast Int.gcd_pos_of_ne_zero_right (i + j + 1) hpos.ne'
  generalize (Int.gcd (i + j + 1) sp : ℤ) = s at *
  generalize Int.gcdA (i + j + 1) sp = v₂ at h₂
  generalize Int.gcdB (i + j + 1) sp = u₂ at h₂
  have hcofactor : f.a ∣ Int.gcdB f.a g.a * g.a - sp :=
    ⟨-Int.gcdA f.a g.a, by linear_combination -h₁⟩
  have hbezout : v₂ * (i + j + 1) + u₂ * sp = s := by linear_combination -h₂
  obtain ⟨a₁, ha₁⟩ := hsp.trans hleft
  obtain ⟨a₂, ha₂⟩ := hsp.trans hright
  have hslope : a₁ ∣ (i - j) * Int.gcdB f.a g.a * u₂ - v₂ * g.c
      - ((i - j) * Int.gcdB f.a g.a * u₂ - v₂ * g.c) := by simp
  obtain ⟨t, u, v, -, -, slope⟩ := exists_slope hdisc hs.ne' ha₁ ha₂
    (show f.b + g.b = 2 * (i + j + 1) by omega) (show f.b - g.b = 2 * (i - j) by omega) hsum hsp
    hcofactor hbezout hslope
  exact ⟨⟨_, slope.posDef hf hg hs, slope.disc_form.trans hgd⟩, slope.composite hdisc hf.pos⟩

lemma principal_composite (f : FormOf D) : Composite (principal D).form f.form f.form :=
  composite_principal rfl rfl (disc_same _ f)

lemma inverse_composite (f : FormOf D) :
    Composite f.inverse.form f.form (principal D).form := by
  obtain ⟨i, hi⟩ := f.odd
  have slope : Slope f.inverse.form f.form f.form.a 1 1 (-i) 0 (i - f.form.b) (-f.form.c) := by
    refine ⟨(mul_one _).symm, (mul_one _).symm, ?_, ?_, by ring⟩ <;>
      simp only [inverse] <;> ring
  have hform : Slope.form f.form.a 1 1 (-i) 0 (i - f.form.b) (-f.form.c)
      = (principal D).form := by
    refine eq_of_disc one_pos ?_ ?_ ?_
    · rw [Slope.form_a]
      rfl
    · simp only [Slope.form, Bilinear.product, principal]
      omega
    · rw [slope.disc_form, f.disc_eq, (principal D).disc_eq]
  have hcomposite := slope.composite (disc_same _ _) f.posDef.pos
  rwa [hform] at hcomposite

/-- Equivalence of forms. -/
instance setoid (D : Discriminant) : Setoid (FormOf D) where
  r f g := f.form.Equivalent g.form
  iseqv := ⟨fun f => .refl f.form, fun h => h.symm, fun h h' => h.trans h'⟩

/-- A composite of two forms. -/
noncomputable def compose (f g : FormOf D) : FormOf D := Classical.choose (exists_composite f g)

lemma compose_composite (f g : FormOf D) : Composite f.form g.form (f.compose g).form :=
  Classical.choose_spec (exists_composite f g)

end FormOf

/-- The classes of the forms of a discriminant. -/
def FormClass (D : Discriminant) : Type := Quotient (FormOf.setoid D)

namespace FormClass

variable {D : Discriminant}

/-- The class of a form. -/
def mk (f : FormOf D) : FormClass D := Quotient.mk _ f

lemma mk_eq_iff {f g : FormOf D} : mk f = mk g ↔ f.form.Equivalent g.form := Quotient.eq

noncomputable instance : Mul (FormClass D) where
  mul := Quotient.map₂ FormOf.compose fun f f' hf g g' hg =>
    ((f.compose_composite g).left_equivalent hf |>.right_equivalent hg).unique
      f'.posDef.pos.ne' f'.primitive (f'.compose_composite g')

instance : One (FormClass D) := ⟨mk (FormOf.principal D)⟩

/-- The product of two classes is the class of every composite. -/
lemma mk_mul_mk {f g h : FormOf D} :
    mk f * mk g = mk h ↔ Composite f.form g.form h.form := by
  change mk (f.compose g) = mk h ↔ _
  rw [mk_eq_iff]
  constructor
  · exact (f.compose_composite g).equivalent
  · exact (f.compose_composite g).unique f.posDef.pos.ne' f.primitive

lemma exists_mk (x : FormClass D) : ∃ f, x = mk f := by
  induction x using Quotient.inductionOn with
  | h f => exact ⟨f, rfl⟩

lemma mk_mul_mk_compose (f g : FormOf D) : mk f * mk g = mk (f.compose g) := rfl

lemma mul_comm' (x y : FormClass D) : x * y = y * x := by
  obtain ⟨f, rfl⟩ := exists_mk x
  obtain ⟨g, rfl⟩ := exists_mk y
  rw [mk_mul_mk_compose g f, mk_mul_mk]
  exact (g.compose_composite f).symm

lemma one_mul' (x : FormClass D) : 1 * x = x := by
  obtain ⟨f, rfl⟩ := exists_mk x
  exact mk_mul_mk.mpr f.principal_composite

lemma mul_assoc' (x y z : FormClass D) : x * y * z = x * (y * z) := by
  obtain ⟨f, rfl⟩ := exists_mk x
  obtain ⟨g, rfl⟩ := exists_mk y
  obtain ⟨h, rfl⟩ := exists_mk z
  simp only [mk_mul_mk_compose, mk_eq_iff]
  exact Composite.assoc f.posDef.pos.ne' g.posDef.pos.ne' f.primitive g.primitive
    (FormOf.disc_same _ _) (f.compose_composite g) ((f.compose g).compose_composite h)
    (g.compose_composite h) (f.compose_composite (g.compose h))

instance : Inv (FormClass D) where
  inv := Quotient.map FormOf.inverse fun f f' equivalent => by
    obtain ⟨p, q, r, s, det, h⟩ := equivalent
    refine ⟨p, -q, -r, s, by linarith, ?_⟩
    simp only [FormOf.inverse, h]
    ext <;> simp only [subst] <;> ring

lemma inv_mul_cancel' (x : FormClass D) : x⁻¹ * x = 1 := by
  obtain ⟨f, rfl⟩ := exists_mk x
  exact mk_mul_mk.mpr f.inverse_composite

/-- **The group of classes.** -/
noncomputable instance : CommGroup (FormClass D) where
  mul_assoc := mul_assoc'
  one_mul := one_mul'
  mul_one x := (mul_comm' x 1).trans (one_mul' x)
  inv_mul_cancel := inv_mul_cancel'
  mul_comm := mul_comm'

lemma one_eq : (1 : FormClass D) = mk (FormOf.principal D) := rfl

/-- A form of first coefficient one is in the class of the principal form. -/
lemma mk_eq_one {f : FormOf D} (h : f.form.a = 1) : mk f = 1 := by
  obtain ⟨i, hi⟩ := f.odd
  rw [one_eq, mk_eq_iff]
  refine ⟨1, -i, 0, 1, by ring, ?_⟩
  refine (eq_of_disc one_pos ?_ ?_ ?_).symm
  · simp only [subst, FormOf.principal]
    rw [h]
    ring
  · simp only [subst, FormOf.principal]
    rw [h, hi]
    ring
  · rw [disc_subst, f.disc_eq, (FormOf.principal D).disc_eq]
    ring

end FormClass

end BinaryForm
