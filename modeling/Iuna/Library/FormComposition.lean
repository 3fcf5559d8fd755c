import Iuna.Library.QuadraticForms

/-!
# Composition of binary quadratic forms

A form is composed of two others by two bilinear maps that take the product of their values to its
value, and whose determinants in either pair of variables are the two forms.  Two bilinear maps
give three such forms by their minors (`composite_minors`); composition passes to equivalent forms
in each place.
-/

namespace BinaryForm

/-- `f (x, y)`. -/
def value (f : BinaryForm) (x y : ℤ) : ℤ := f.a * x * x + f.b * x * y + f.c * y * y

lemma value_subst (f : BinaryForm) (p q r s x y : ℤ) :
    (f.subst p q r s).value x y = f.value (p * x + q * y) (r * x + s * y) := by
  simp only [value, subst]
  ring

/-- The coefficients of a bilinear map of two pairs `(x, y)` and `(z, w)`. -/
structure Bilinear where
  xz : ℤ
  xw : ℤ
  yz : ℤ
  yw : ℤ
  deriving DecidableEq, Repr

def Bilinear.eval (m : Bilinear) (x y z w : ℤ) : ℤ :=
  m.xz * x * z + m.xw * x * w + m.yz * y * z + m.yw * y * w

/-- `h` is composed of `f` and `g` by the maps `X` and `Y`. -/
structure ComposedBy (f g h : BinaryForm) (X Y : Bilinear) : Prop where
  product : ∀ x y z w,
    f.value x y * g.value z w = h.value (X.eval x y z w) (Y.eval x y z w)
  left : ∀ x y,
    f.value x y = X.eval x y 1 0 * Y.eval x y 0 1 - X.eval x y 0 1 * Y.eval x y 1 0
  right : ∀ z w,
    g.value z w = X.eval 1 0 z w * Y.eval 0 1 z w - X.eval 0 1 z w * Y.eval 1 0 z w

/-- Gauss's direct composition. -/
def Composite (f g h : BinaryForm) : Prop := ∃ X Y, ComposedBy f g h X Y

/-! ## Substitutions in the three places -/

lemma Composite.symm {f g h : BinaryForm} (composite : Composite f g h) : Composite g f h := by
  obtain ⟨X, Y, hcomposed⟩ := composite
  have hflip : ∀ (m : Bilinear) (x y z w : ℤ),
      Bilinear.eval ⟨m.xz, m.yz, m.xw, m.yw⟩ x y z w = m.eval z w x y := by
    intro m x y z w
    simp only [Bilinear.eval]
    ring
  refine ⟨⟨X.xz, X.yz, X.xw, X.yw⟩, ⟨Y.xz, Y.yz, Y.xw, Y.yw⟩, ?_, ?_, ?_⟩
  · intro x y z w
    rw [hflip, hflip, mul_comm, hcomposed.product]
  · intro x y
    simp only [hflip]
    exact hcomposed.right x y
  · intro z w
    simp only [hflip]
    exact hcomposed.left z w

lemma Composite.left_equivalent {f f' g h : BinaryForm} (composite : Composite f g h)
    (equivalent : f.Equivalent f') : Composite f' g h := by
  obtain ⟨X, Y, hcomposed⟩ := composite
  obtain ⟨p, q, r, s, det, rfl⟩ := equivalent
  have heval : ∀ (m : Bilinear) (x y z w : ℤ),
      Bilinear.eval ⟨p * m.xz + r * m.yz, p * m.xw + r * m.yw, q * m.xz + s * m.yz,
        q * m.xw + s * m.yw⟩ x y z w = m.eval (p * x + q * y) (r * x + s * y) z w := by
    intro m x y z w
    simp only [Bilinear.eval]
    ring
  refine ⟨⟨p * X.xz + r * X.yz, p * X.xw + r * X.yw, q * X.xz + s * X.yz, q * X.xw + s * X.yw⟩,
    ⟨p * Y.xz + r * Y.yz, p * Y.xw + r * Y.yw, q * Y.xz + s * Y.yz, q * Y.xw + s * Y.yw⟩,
    ?_, ?_, ?_⟩
  · intro x y z w
    rw [heval, heval, value_subst, hcomposed.product]
  · intro x y
    simp only [heval, value_subst]
    exact hcomposed.left _ _
  · -- the determinant in the first pair gains the factor of the substitution
    intro z w
    rw [hcomposed.right]
    simp only [Bilinear.eval]
    linear_combination (-((X.xz * z + X.xw * w) * (Y.yz * z + Y.yw * w)
      - (X.yz * z + X.yw * w) * (Y.xz * z + Y.xw * w))) * det

lemma Composite.right_equivalent {f g g' h : BinaryForm} (composite : Composite f g h)
    (equivalent : g.Equivalent g') : Composite f g' h :=
  (composite.symm.left_equivalent equivalent).symm

lemma Composite.equivalent {f g h h' : BinaryForm} (composite : Composite f g h)
    (equivalent : h.Equivalent h') : Composite f g h' := by
  obtain ⟨X, Y, hcomposed⟩ := composite
  obtain ⟨p, q, r, s, det, rfl⟩ := equivalent
  have heval : ∀ (i j x y z w : ℤ),
      Bilinear.eval ⟨i * X.xz + j * Y.xz, i * X.xw + j * Y.xw, i * X.yz + j * Y.yz,
        i * X.yw + j * Y.yw⟩ x y z w = i * X.eval x y z w + j * Y.eval x y z w := by
    intro i j x y z w
    simp only [Bilinear.eval]
    ring
  refine ⟨⟨s * X.xz + -q * Y.xz, s * X.xw + -q * Y.xw, s * X.yz + -q * Y.yz,
      s * X.yw + -q * Y.yw⟩,
    ⟨-r * X.xz + p * Y.xz, -r * X.xw + p * Y.xw, -r * X.yz + p * Y.yz, -r * X.yw + p * Y.yw⟩,
    ?_, ?_, ?_⟩
  · intro x y z w
    rw [hcomposed.product, heval, heval, value_subst]
    congr 1
    · linear_combination (-X.eval x y z w) * det
    · linear_combination (-Y.eval x y z w) * det
  · intro x y
    rw [hcomposed.left]
    simp only [heval]
    linear_combination (-(X.eval x y 1 0 * Y.eval x y 0 1 - X.eval x y 0 1 * Y.eval x y 1 0)) * det
  · intro z w
    rw [hcomposed.right]
    simp only [heval]
    linear_combination (-(X.eval 1 0 z w * Y.eval 0 1 z w - X.eval 0 1 z w * Y.eval 1 0 z w)) * det

/-! ## The forms of two bilinear maps -/

namespace Bilinear

variable (X Y : Bilinear)

def left : BinaryForm where
  a := X.xz * Y.xw - X.xw * Y.xz
  b := X.xz * Y.yw + X.yz * Y.xw - X.xw * Y.yz - X.yw * Y.xz
  c := X.yz * Y.yw - X.yw * Y.yz

def right : BinaryForm where
  a := X.xz * Y.yz - X.yz * Y.xz
  b := X.xz * Y.yw + X.xw * Y.yz - X.yz * Y.xw - X.yw * Y.xz
  c := X.xw * Y.yw - X.yw * Y.xw

def product : BinaryForm where
  a := Y.xw * Y.yz - Y.xz * Y.yw
  b := X.xz * Y.yw + X.yw * Y.xz - X.xw * Y.yz - X.yz * Y.xw
  c := X.xw * X.yz - X.xz * X.yw

lemma disc_left : (left X Y).disc = (product X Y).disc := by
  simp only [disc, left, product]
  ring

lemma disc_right : (right X Y).disc = (product X Y).disc := by
  simp only [disc, right, product]
  ring

end Bilinear

/-- Two bilinear maps compose the forms of their minors. -/
lemma composite_minors (X Y : Bilinear) :
    Composite (X.left Y) (X.right Y) (X.product Y) := by
  refine ⟨X, Y, ?_, ?_, ?_⟩
  · intro x y z w
    simp only [value, Bilinear.left, Bilinear.right, Bilinear.product, Bilinear.eval]
    ring
  · intro x y
    simp only [value, Bilinear.left, Bilinear.eval]
    ring
  · intro z w
    simp only [value, Bilinear.right, Bilinear.eval]
    ring

/-! ## Slopes -/

/-- Two forms whose first coefficients are `s a₁` and `s a₂`, with a slope `k` that solves the
congruences of their composition; `t`, `u` and `v` are the quotients. -/
structure Slope (f g : BinaryForm) (s a₁ a₂ k t u v : ℤ) : Prop where
  left : f.a = s * a₁
  right : g.a = s * a₂
  sum : f.b + g.b = 2 * (s * t)
  difference : f.b - g.b = 2 * (a₁ * u + a₂ * k)
  last : g.c + k * t = -(a₁ * v)

namespace Slope

variable {f g : BinaryForm} {s a₁ a₂ k t u v : ℤ}

/-- The form that the slope composes. -/
def form (s a₁ a₂ k t u v : ℤ) : BinaryForm :=
  Bilinear.product ⟨s, -k, u, v⟩ ⟨0, a₁, a₂, t⟩

lemma right_eq (h : Slope f g s a₁ a₂ k t u v) :
    Bilinear.right ⟨s, -k, u, v⟩ ⟨0, a₁, a₂, t⟩ = g := by
  ext
  · simp only [Bilinear.right]
    linear_combination -h.right
  · simp only [Bilinear.right]
    have hsum := h.sum
    have hdifference := h.difference
    linarith
  · simp only [Bilinear.right]
    linear_combination -h.last

lemma left_eq (h : Slope f g s a₁ a₂ k t u v) (disc : f.disc = g.disc) (positive : 0 < f.a) :
    Bilinear.left ⟨s, -k, u, v⟩ ⟨0, a₁, a₂, t⟩ = f := by
  refine eq_of_disc positive ?_ ?_ ?_
  · simp only [Bilinear.left]
    linear_combination -h.left
  · simp only [Bilinear.left]
    have hsum := h.sum
    have hdifference := h.difference
    linarith
  · rw [Bilinear.disc_left, ← Bilinear.disc_right, h.right_eq, disc]

lemma disc_form (h : Slope f g s a₁ a₂ k t u v) : (form s a₁ a₂ k t u v).disc = g.disc := by
  rw [form, ← Bilinear.disc_right, h.right_eq]

lemma composite (h : Slope f g s a₁ a₂ k t u v) (disc : f.disc = g.disc) (positive : 0 < f.a) :
    Composite f g (form s a₁ a₂ k t u v) := by
  have hminors := composite_minors ⟨s, -k, u, v⟩ ⟨0, a₁, a₂, t⟩
  rwa [h.left_eq disc positive, h.right_eq] at hminors

lemma form_a : (form s a₁ a₂ k t u v).a = a₁ * a₂ := by
  simp only [form, Bilinear.product]
  ring

lemma posDef (h : Slope f g s a₁ a₂ k t u v) (hf : f.PosDef) (hg : g.PosDef) (hs : 0 < s) :
    (form s a₁ a₂ k t u v).PosDef := by
  refine ⟨?_, by rw [h.disc_form]; exact hg.neg⟩
  have ha₁ := h.left ▸ hf.pos
  have ha₂ := h.right ▸ hg.pos
  rw [form_a]
  exact mul_pos (pos_of_mul_pos_right ha₁ hs.le) (pos_of_mul_pos_right ha₂ hs.le)

end Slope

/-- The cofactors of the first coefficients and of the middle ones give a slope. -/
lemma exists_slope {f g : BinaryForm} (disc : f.disc = g.disc) {s a₁ a₂ ss m sp v₁ u₂ v₂ k : ℤ}
    (hs : s ≠ 0) (left : f.a = s * a₁) (right : g.a = s * a₂) (sum : f.b + g.b = 2 * ss)
    (difference : f.b - g.b = 2 * m) (hss : s ∣ ss) (hsp : s ∣ sp)
    (cofactor : f.a ∣ v₁ * g.a - sp) (bezout : v₂ * ss + u₂ * sp = s)
    (slope : a₁ ∣ k - (m * v₁ * u₂ - v₂ * g.c)) :
    ∃ t u v, ss = s * t ∧ m = a₁ * u + a₂ * k ∧ Slope f g s a₁ a₂ k t u v := by
  obtain ⟨t, rfl⟩ := hss
  obtain ⟨p, rfl⟩ := hsp
  obtain ⟨w, hw⟩ := cofactor
  obtain ⟨j, hj⟩ := slope
  have hw' : v₁ * a₂ - p = a₁ * w := by
    refine mul_left_cancel₀ hs ?_
    linear_combination hw - v₁ * right + w * left
  have hone : v₂ * t + u₂ * p = 1 := by
    refine mul_left_cancel₀ hs ?_
    linear_combination bezout
  have hproduct : t * m = a₁ * f.c - a₂ * g.c := by
    refine mul_left_cancel₀ (mul_ne_zero four_ne_zero hs) ?_
    simp only [BinaryForm.disc] at disc
    linear_combination disc - (f.b - g.b) * sum - 2 * (s * t) * difference
      + 4 * f.c * left - 4 * g.c * right
  have hm : m = a₁ * (v₂ * f.c - m * u₂ * w - a₂ * j) + a₂ * k := by
    linear_combination (-a₂) * hj - m * u₂ * hw' + v₂ * hproduct - m * hone
  have hlast : g.c + k * t = -(a₁ * -(f.c * v₁ * u₂ - g.c * u₂ * w + j * t)) := by
    linear_combination t * hj + v₁ * u₂ * hproduct - g.c * u₂ * hw' - g.c * hone
  exact ⟨t, _, _, rfl, hm, left, right, sum, by rw [difference, ← hm], hlast⟩

/-- The principal form with `b = 1` composes with every form of its discriminant to that form. -/
lemma composite_principal {f g : BinaryForm} (ha : f.a = 1) (hb : f.b = 1)
    (disc : f.disc = g.disc) : Composite f g g := by
  have hodd : g.b % 2 = 1 := by
    have hsquare : (g.b - 1) * (g.b + 1) = 4 * (g.a * g.c - f.c) := by
      simp only [BinaryForm.disc, ha, hb] at disc
      linear_combination -disc
    rcases Int.even_or_odd g.b with ⟨j, hj⟩ | ⟨j, hj⟩
    · rw [hj] at hsquare
      ring_nf at hsquare
      omega
    · omega
  obtain ⟨i, hi⟩ : ∃ i, g.b = 2 * i + 1 := ⟨g.b / 2, by omega⟩
  have slope : Slope f g 1 1 g.a 0 (i + 1) (-i) (-g.c) := by
    refine ⟨by rw [ha, one_mul], by rw [one_mul], ?_, ?_, by ring⟩
    · rw [hb, hi]
      ring
    · rw [hb, hi]
      ring
  have hform : Slope.form 1 1 g.a 0 (i + 1) (-i) (-g.c) = g := by
    ext <;> simp only [Slope.form, Bilinear.product]
    · ring
    · rw [hi]
      ring
    · ring
  have hcomposite := slope.composite disc (by rw [ha]; exact one_pos)
  rwa [hform] at hcomposite

end BinaryForm
