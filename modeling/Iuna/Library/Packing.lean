import Mathlib

/-!
# Digits of a width, highest first

A list of digits of `width` bits, the highest first, packs into one number.  Two lists of one
length pack into the same number only if they are the same (`packed_inj`); a list that is taken
apart packs part by part (`packed_append`).  The last section is the bitwise side: appending a
digit by a shift and an exclusive or, as checksums do, is packing it.
-/

namespace Packing

/-- The number that digits of a width make, the highest digit first. -/
def packed (width : ℕ) (digits : List ℕ) : ℕ := Nat.ofDigits (2 ^ width) digits.reverse

variable {width : ℕ} {digits digits' : List ℕ} {digit : ℕ}

@[simp] lemma packed_nil (width : ℕ) : packed width [] = 0 := rfl

lemma packed_append (digits digits' : List ℕ) :
    packed width (digits ++ digits')
      = packed width digits * 2 ^ (width * digits'.length) + packed width digits' := by
  unfold packed
  rw [List.reverse_append, Nat.ofDigits_append, List.length_reverse, ← pow_mul]
  ring

lemma packed_cons (digit : ℕ) (digits : List ℕ) :
    packed width (digit :: digits)
      = digit * 2 ^ (width * digits.length) + packed width digits := by
  have happend := @packed_append width [digit] digits
  simpa [packed] using happend

lemma packed_snoc (digits : List ℕ) (digit : ℕ) :
    packed width (digits ++ [digit]) = packed width digits * 2 ^ width + digit := by
  rw [packed_append]
  simp [packed]

/-- Digits of a width pack below the power that their number gives. -/
lemma packed_lt (small : ∀ digit ∈ digits, digit < 2 ^ width) :
    packed width digits < 2 ^ (width * digits.length) := by
  induction digits with
  | nil => simp
  | cons digit digits ih =>
    have hrest := ih fun other hother => small other (List.mem_cons_of_mem _ hother)
    have hdigit : digit + 1 ≤ 2 ^ width := small digit List.mem_cons_self
    rw [packed_cons, List.length_cons, Nat.mul_succ, pow_add]
    calc digit * 2 ^ (width * digits.length) + packed width digits
        < (digit + 1) * 2 ^ (width * digits.length) := by
          rw [Nat.succ_mul]
          omega
      _ ≤ 2 ^ (width * digits.length) * 2 ^ width := by
          rw [Nat.mul_comm]
          exact Nat.mul_le_mul_left _ hdigit

/-- Digits of one width and one number are determined by what they pack into. -/
theorem packed_inj (positive : 0 < width) (length : digits.length = digits'.length)
    (small : ∀ digit ∈ digits, digit < 2 ^ width) (small' : ∀ digit ∈ digits', digit < 2 ^ width)
    (h : packed width digits = packed width digits') : digits = digits' := by
  have hreverse : digits.reverse = digits'.reverse := by
    refine Nat.ofDigits_inj_of_len_eq (Nat.one_lt_two_pow positive.ne') (by simpa using length)
      ?_ ?_ h
    · intro digit hdigit
      exact small digit (List.mem_reverse.mp hdigit)
    · intro digit hdigit
      exact small' digit (List.mem_reverse.mp hdigit)
  exact List.reverse_injective hreverse

/-! ## Bits -/

/-- The lowest bits of a shifted number are free for a digit. -/
lemma shiftLeft_xor_of_lt {value : ℕ} (small : digit < 2 ^ width) :
    (value <<< width) ^^^ digit = value * 2 ^ width + digit := by
  refine Nat.eq_of_testBit_eq fun i => ?_
  rw [Nat.mul_comm, Nat.testBit_two_pow_mul_add value small i, Nat.testBit_xor,
    Nat.testBit_shiftLeft]
  by_cases hi : i < width
  · have hbelow : ¬ width ≤ i := by omega
    simp [hi, hbelow]
  · have habove : width ≤ i := by omega
    have hzero : digit.testBit i = false :=
      Nat.testBit_lt_two_pow (lt_of_lt_of_le small (Nat.pow_le_pow_right (by omega) (by omega)))
    simp [hi, hzero, habove]

lemma shiftLeft_or_of_lt {value : ℕ} (small : digit < 2 ^ width) :
    (value <<< width) ||| digit = value * 2 ^ width + digit := by
  rw [← Nat.shiftLeft_add_eq_or_of_lt small, Nat.shiftLeft_eq]

end Packing
