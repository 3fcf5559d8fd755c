import Mathlib

/-!
# Matrices of unit determinant

Two by two matrices over the integers that act on pairs and keep their greatest common divisor.
-/

namespace Iuna

/-- A matrix of unit determinant. -/
structure Unimodular where
  a : ℤ
  b : ℤ
  c : ℤ
  d : ℤ
  isUnit : IsUnit (a * d - b * c)

namespace Unimodular

/-- The pair that a pair is taken to. -/
def act (g : Unimodular) (v : ℤ × ℤ) : ℤ × ℤ := (g.a * v.1 + g.b * v.2, g.c * v.1 + g.d * v.2)

def one : Unimodular := ⟨1, 0, 0, 1, by norm_num⟩

def mul (g h : Unimodular) : Unimodular where
  a := g.a * h.a + g.b * h.c
  b := g.a * h.b + g.b * h.d
  c := g.c * h.a + g.d * h.c
  d := g.c * h.b + g.d * h.d
  isUnit := by
    have hmul := g.isUnit.mul h.isUnit
    convert hmul using 1
    ring

def swap : Unimodular := ⟨0, 1, 1, 0, by norm_num⟩

/-- A step of the quotient `q`. -/
def division (q : ℤ) : Unimodular := ⟨0, 1, 1, -q, by norm_num⟩

@[simp] lemma one_act (v : ℤ × ℤ) : one.act v = v := by simp [one, act]

lemma mul_act (g h : Unimodular) (v : ℤ × ℤ) : (g.mul h).act v = g.act (h.act v) := by
  simp only [act, mul]
  ext <;> ring

@[simp] lemma swap_act (v : ℤ × ℤ) : swap.act v = v.swap := by simp [swap, act, Prod.swap]

@[simp] lemma division_act (q : ℤ) (v : ℤ × ℤ) : (division q).act v = (v.2, v.1 - q * v.2) := by
  simp [division, act, sub_eq_add_neg]

/-- A matrix of unit determinant keeps the greatest common divisor. -/
lemma gcd_act (g : Unimodular) (v : ℤ × ℤ) :
    Int.gcd (g.act v).1 (g.act v).2 = Int.gcd v.1 v.2 := by
  apply Nat.dvd_antisymm
  · have h₁ := Int.gcd_dvd_left (a := (g.act v).1) (b := (g.act v).2)
    have h₂ := Int.gcd_dvd_right (a := (g.act v).1) (b := (g.act v).2)
    apply Int.natCast_dvd_natCast.mp
    apply Int.dvd_coe_gcd
    · apply (g.isUnit.dvd_mul_left).mp
      rw [show (g.a * g.d - g.b * g.c) * v.1 = g.d * (g.act v).1 - g.b * (g.act v).2 by
        simp only [act]; ring]
      exact Int.dvd_sub (h₁.mul_left g.d) (h₂.mul_left g.b)
    · apply (g.isUnit.dvd_mul_left).mp
      rw [show (g.a * g.d - g.b * g.c) * v.2 = g.a * (g.act v).2 - g.c * (g.act v).1 by
        simp only [act]; ring]
      exact Int.dvd_sub (h₂.mul_left g.a) (h₁.mul_left g.c)
  · have h₁ := Int.gcd_dvd_left (a := v.1) (b := v.2)
    have h₂ := Int.gcd_dvd_right (a := v.1) (b := v.2)
    apply Int.natCast_dvd_natCast.mp
    apply Int.dvd_coe_gcd
    · exact Int.dvd_add (h₁.mul_left g.a) (h₂.mul_left g.b)
    · exact Int.dvd_add (h₁.mul_left g.c) (h₂.mul_left g.d)

end Unimodular

end Iuna
