import Mathlib

/-!
# Positional numbers

Numbers written as lists of digits below a base, the lowest digit first.  `value` is the number
of a list and `Nat.digits` the list of a number without a leading zero; a list of digits that is
trimmed, or ends in a digit that is not zero, is the list of its value.  The second part is the
arithmetic of the digit estimate in a long division: the largest guess whose product with the two
leading digits of the divisor fits the three leading digits of the dividend is the digit of the
quotient or one more.
-/

namespace Positional

variable {b : ℕ}

/-- Every entry of the list is a digit to the base. -/
def Digits (b : ℕ) (digits : List ℕ) : Prop := ∀ digit ∈ digits, digit < b

/-- The number of a list of digits. -/
abbrev value (b : ℕ) (digits : List ℕ) : ℕ := Nat.ofDigits b digits

@[simp] lemma Digits.nil : Digits b [] := by simp [Digits]

@[simp] lemma digits_cons {d : ℕ} {ds : List ℕ} : Digits b (d :: ds) ↔ d < b ∧ Digits b ds := by
  simp [Digits]

@[simp] lemma digits_append {ds es : List ℕ} :
    Digits b (ds ++ es) ↔ Digits b ds ∧ Digits b es := by
  simp only [Digits, List.mem_append]
  constructor
  · exact fun h => ⟨fun d hd => h d (.inl hd), fun d hd => h d (.inr hd)⟩
  · rintro ⟨hds, hes⟩ d (hd | hd)
    · exact hds d hd
    · exact hes d hd

lemma Digits.replicate_zero (hb : 0 < b) (count : ℕ) : Digits b (List.replicate count 0) := by
  intro d hd
  rw [List.eq_of_mem_replicate hd]
  exact hb

lemma Digits.take {ds : List ℕ} (h : Digits b ds) (count : ℕ) : Digits b (ds.take count) :=
  fun d hd => h d (List.mem_of_mem_take hd)

lemma Digits.drop {ds : List ℕ} (h : Digits b ds) (count : ℕ) : Digits b (ds.drop count) :=
  fun d hd => h d (List.mem_of_mem_drop hd)

lemma Digits.of_nat (hb : 1 < b) (n : ℕ) : Digits b (Nat.digits b n) :=
  fun _ hd => Nat.digits_lt_base hb hd

lemma Digits.value_lt (hb : 1 < b) {ds : List ℕ} (h : Digits b ds) :
    value b ds < b ^ ds.length :=
  Nat.ofDigits_lt_base_pow_length hb h

@[simp] lemma value_nil : value b [] = 0 := rfl

@[simp] lemma value_cons (d : ℕ) (ds : List ℕ) : value b (d :: ds) = d + b * value b ds := by
  simp [value, Nat.ofDigits_cons]

@[simp] lemma value_singleton (d : ℕ) : value b [d] = d := by simp

@[simp] lemma value_append (ds es : List ℕ) :
    value b (ds ++ es) = value b ds + b ^ ds.length * value b es :=
  Nat.ofDigits_append

lemma value_take_add_drop (ds : List ℕ) {count : ℕ} (h : count ≤ ds.length) :
    value b ds = value b (ds.take count) + b ^ count * value b (ds.drop count) := by
  conv_lhs => rw [← List.take_append_drop count ds]
  rw [value_append, List.length_take, Nat.min_eq_left h]

@[simp] lemma value_replicate_zero (count : ℕ) : value b (List.replicate count 0) = 0 := by
  simp [value]

lemma value_digits (n : ℕ) : value b (Nat.digits b n) = n := Nat.ofDigits_digits b n

/-! ## Leading zeros -/

/-- A list of digits that does not end in zero is the list of its value. -/
lemma eq_digits (hb : 1 < b) {ds : List ℕ} {n : ℕ} (h : Digits b ds) (hvalue : value b ds = n)
    (hlast : ∀ hds : ds ≠ [], ds.getLast hds ≠ 0) : ds = Nat.digits b n := by
  rw [← hvalue, value, Nat.digits_ofDigits b hb ds h hlast]

lemma value_rdropWhile_zero (ds : List ℕ) :
    value b (ds.rdropWhile (· == 0)) = value b ds := by
  induction ds using List.reverseRecOn with
  | nil => simp
  | append_singleton ds d ih =>
    rw [List.rdropWhile_concat]
    by_cases hd : d = 0
    · simp [hd, ih]
    · simp [hd]

/-- A trimmed list of digits is the list of its value. -/
lemma rdropWhile_zero_eq_digits (hb : 1 < b) {ds : List ℕ} {n : ℕ} (h : Digits b ds)
    (hvalue : value b ds = n) : ds.rdropWhile (· == 0) = Nat.digits b n := by
  apply eq_digits hb
  · exact fun d hd => h d ((List.rdropWhile_prefix (· == 0) ds).subset hd)
  · rw [value_rdropWhile_zero, hvalue]
  · intro hds
    have hlast := List.rdropWhile_last_not (· == 0) ds hds
    simpa using hlast

/-- Lists of digits of one length with one value are the same. -/
lemma digits_inj (hb : 1 < b) {ds es : List ℕ} (hlen : ds.length = es.length)
    (hds : Digits b ds) (hes : Digits b es) (hvalue : value b ds = value b es) : ds = es :=
  Nat.ofDigits_inj_of_len_eq hb hlen hds hes hvalue

/-! ## The digit estimate -/

section Estimate

variable {guess w₀ w₁ w₂ wr v₁ v₂ vr tail : ℕ}

/-- A guess whose product with the leading digits of the divisor is too large for the leading
digits of the dividend is too large. -/
lemma lt_guess_of_leading (hwr : wr < tail)
    (hlarge : (w₀ * b + w₁) * b + w₂ < guess * (v₁ * b + v₂)) :
    ((w₀ * b + w₁) * b + w₂) * tail + wr < guess * ((v₁ * b + v₂) * tail + vr) := by
  have hstep : ((w₀ * b + w₁) * b + w₂ + 1) * tail ≤ guess * (v₁ * b + v₂) * tail :=
    Nat.mul_le_mul_right tail hlarge
  calc ((w₀ * b + w₁) * b + w₂) * tail + wr
      < ((w₀ * b + w₁) * b + w₂ + 1) * tail := by rw [Nat.add_mul _ 1]; omega
    _ ≤ guess * (v₁ * b + v₂) * tail := hstep
    _ ≤ guess * ((v₁ * b + v₂) * tail + vr) := by
      rw [Nat.mul_assoc]
      exact Nat.mul_le_mul_left guess (Nat.le_add_right _ _)

/-- A guess whose product with the leading digits of the divisor fits the leading digits of the
dividend is at most one too large. -/
lemma guess_le_succ (hguess : guess < b) (hv₁ : 0 < v₁) (hvr : vr < tail)
    (hfits : guess * (v₁ * b + v₂) ≤ (w₀ * b + w₁) * b + w₂) :
    guess * ((v₁ * b + v₂) * tail + vr)
      < ((w₀ * b + w₁) * b + w₂) * tail + wr + ((v₁ * b + v₂) * tail + vr) := by
  have hlead : guess * (v₁ * b + v₂) * tail ≤ ((w₀ * b + w₁) * b + w₂) * tail :=
    Nat.mul_le_mul_right tail hfits
  have hrest : guess * vr < b * tail := by
    rcases Nat.eq_zero_or_pos guess with rfl | hpos
    · simpa using Nat.mul_pos hguess (by omega)
    · calc guess * vr < guess * tail := Nat.mul_lt_mul_of_pos_left hvr hpos
        _ ≤ b * tail := Nat.mul_le_mul_right tail hguess.le
  have hdivisor : b * tail ≤ (v₁ * b + v₂) * tail := by
    apply Nat.mul_le_mul_right
    calc b = 1 * b := (Nat.one_mul b).symm
      _ ≤ v₁ * b := Nat.mul_le_mul_right b hv₁
      _ ≤ v₁ * b + v₂ := Nat.le_add_right _ _
  calc guess * ((v₁ * b + v₂) * tail + vr)
      = guess * (v₁ * b + v₂) * tail + guess * vr := by ring
    _ < ((w₀ * b + w₁) * b + w₂) * tail + wr + ((v₁ * b + v₂) * tail + vr) := by omega

end Estimate

end Positional
