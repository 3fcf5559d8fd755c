import Mathlib

/-!
# Division in windows

The quotient of a number by a divisor can be read off in digits: each digit of the quotient is what
the remainder of the next higher part gives when it is shifted up by one window
(`div_eq_sum_digits`).  Sums over positions are taken apart into strides (`prod_range_mul`), and a
product of powers over all digits into the powers of its rows and of its columns
(`prod_pow_rows_columns`).
-/

namespace Windows

open Finset

/-! ## Digits of a quotient -/

/-- One window of a long division. -/
lemma mul_div_digit (base n divisor : ℕ) (positive : 0 < divisor) :
    base * n / divisor = base * (n / divisor) + base * (n % divisor) / divisor := by
  have hn : base * n = divisor * (base * (n / divisor)) + base * (n % divisor) := by
    conv_lhs => rw [← Nat.div_add_mod n divisor]
    rw [Nat.mul_add, Nat.mul_left_comm]
  rw [hn, Nat.mul_add_div positive]

/-- **Long division.** A number that is taken apart window by window has a quotient whose digits
come from the remainders of its higher parts. -/
theorem div_eq_sum_digits {base divisor : ℕ} {part : ℕ → ℕ} (positive : 0 < divisor) (count : ℕ)
    (window : ∀ p < count, part p = base * part (p + 1)) :
    part 0 / divisor = ∑ p ∈ range count, base ^ p * (base * (part (p + 1) % divisor) / divisor)
      + base ^ count * (part count / divisor) := by
  induction count with
  | zero => simp
  | succ count ih =>
    rw [ih fun p hp => window p (by omega), window count (Nat.lt_succ_self _),
      mul_div_digit base _ divisor positive, sum_range_succ, Nat.mul_add, ← Nat.mul_assoc,
      ← Nat.pow_succ, Nat.add_assoc, Nat.add_comm (base ^ (count + 1) * _)]

/-! ## Strides -/

variable {M : Type*} [CommMonoid M]

/-- The positions below a product are the strides one after another. -/
lemma prod_range_mul (f : ℕ → M) (count stride : ℕ) :
    ∏ p ∈ range (count * stride), f p
      = ∏ i ∈ range count, ∏ j ∈ range stride, f (i * stride + j) := by
  induction count with
  | zero => simp
  | succ count ih => rw [Nat.succ_mul, prod_range_add, ih, prod_range_succ]

lemma sum_range_mul (f : ℕ → ℕ) (count stride : ℕ) :
    ∑ p ∈ range (count * stride), f p
      = ∑ i ∈ range count, ∑ j ∈ range stride, f (i * stride + j) := by
  induction count with
  | zero => simp
  | succ count ih => rw [Nat.succ_mul, sum_range_add, ih, sum_range_succ]

/-- A product of powers over all digits, by the higher and the lower half of the digit. -/
theorem prod_pow_rows_columns (v : ℕ → M) (rows columns : ℕ) :
    ∏ b ∈ range (rows * columns), v b ^ b
      = (∏ b₁ ∈ range rows, (∏ b₀ ∈ range columns, v (b₁ * columns + b₀)) ^ (b₁ * columns))
        * ∏ b₀ ∈ range columns, (∏ b₁ ∈ range rows, v (b₁ * columns + b₀)) ^ b₀ := by
  have hcolumns : ∏ b₀ ∈ range columns, (∏ b₁ ∈ range rows, v (b₁ * columns + b₀)) ^ b₀
      = ∏ b₁ ∈ range rows, ∏ b₀ ∈ range columns, v (b₁ * columns + b₀) ^ b₀ := by
    rw [prod_comm]
    exact prod_congr rfl fun b₀ _ => (prod_pow _ _ _).symm
  rw [hcolumns, prod_range_mul, ← prod_mul_distrib]
  refine prod_congr rfl fun b₁ _ => ?_
  rw [← prod_pow, ← prod_mul_distrib]
  exact prod_congr rfl fun b₀ _ => pow_add _ _ _

end Windows
