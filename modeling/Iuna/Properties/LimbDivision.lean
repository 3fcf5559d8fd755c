import Iuna.Properties.LimbShifts

/-!
# Long division

One turn of the long division divides a window of the numerator, one limb longer than the
denominator, by the denominator: the corrected guess is the quotient limb or one more, and the
multiple that was one too large is added back.  The carry of the addition goes one limb past the
window.  Below the first turn that limb is there and nothing reads it again; in the first turn it
is past the end, so that the division panics exactly when the first guess is one too large
(`FirstGuessTooLarge`).
-/

namespace Iuna

namespace Vdf

open Positional

/-! ## The guess -/

section Guess

variable {v₁ v₂ w₀ w₁ w₂ : ℕ}

/-- The numbers that the estimate keeps: the guess, and what it leaves of the leading limbs. -/
def GuessState (v₁ w₀ w₁ qhat rhat : ℕ) (overflowed : Bool) : Prop :=
  rhat < base ∧ qhat * v₁ + rhat + (if overflowed then base else 0) = w₀ * base + w₁

/-- `estimate_quotient`: the largest limb whose product with the leading limb of the denominator
fits the two leading limbs of the window. -/
lemma estimateQuotient_spec (hv₁ : v₁ < base) (hw₁ : w₁ < base) (hle : w₀ ≤ v₁) (hpos : 0 < v₁) :
    ∃ qhat rhat overflowed, estimateQuotient w₀ w₁ v₁ = .ok (qhat, rhat, overflowed) ∧
      qhat < base ∧ GuessState v₁ w₀ w₁ qhat rhat overflowed ∧
      (qhat = base - 1 ∨ w₀ * base + w₁ < (qhat + 1) * v₁) := by
  unfold estimateQuotient
  by_cases heq : w₀ = v₁
  · obtain ⟨hlt, hsum⟩ := overflowingAdd_spec hw₁ hv₁
    refine ⟨base - 1, (overflowingAdd w₁ v₁).1, (overflowingAdd w₁ v₁).2,
      by rw [if_pos heq]; rfl, ?_, ⟨hlt, ?_⟩, .inl rfl⟩
    · exact Nat.sub_one_lt base_pos.ne'
    · have hcarry : (if (overflowingAdd w₁ v₁).2 = true then base else 0)
          = base * (overflowingAdd w₁ v₁).2.toNat := by
        cases (overflowingAdd w₁ v₁).2 <;> simp
      have hsplit : base * v₁ = (base - 1) * v₁ + v₁ := by
        rw [← Nat.succ_mul, Nat.succ_eq_add_one, Nat.sub_add_cancel one_lt_base.le]
      rw [hcarry, heq, Nat.mul_comm v₁ base, hsplit]
      omega
  · have hlt : w₀ < v₁ := by omega
    have hquot : (w₀ * base + w₁) / v₁ < base := by
      apply Nat.div_lt_of_lt_mul
      calc w₀ * base + w₁ < (w₀ + 1) * base := by rw [Nat.add_mul, Nat.one_mul]; omega
        _ ≤ v₁ * base := Nat.mul_le_mul_right base hlt
    have hrem : (w₀ * base + w₁) % v₁ < v₁ := Nat.mod_lt _ hpos
    have hsplit := Nat.div_add_mod (w₀ * base + w₁) v₁
    refine ⟨(w₀ * base + w₁) / v₁, (w₀ * base + w₁) % v₁, false, ?_, hquot, ⟨by omega, ?_⟩,
      .inr ?_⟩
    · simp only [if_neg heq, Outcome.bailIf, if_neg hpos.ne', Nat.mod_eq_of_lt hquot,
        Nat.mod_eq_of_lt (hrem.trans hv₁)]
      rfl
    · rw [Nat.mul_comm]
      simpa using hsplit
    · have hnext : ((w₀ * base + w₁) / v₁ + 1) * v₁ = v₁ * ((w₀ * base + w₁) / v₁) + v₁ := by
        ring
      omega

/-- The correction ends with the largest limb, up to the first estimate, whose product with the
two leading limbs of the denominator fits the three leading limbs of the window. -/
lemma lowerQuotient_spec (hv₁ : v₁ < base) (hv₂ : v₂ < base)
    {qhat rhat : ℕ} {overflowed : Bool} (hqhat : qhat < base)
    (hstate : GuessState v₁ w₀ w₁ qhat rhat overflowed)
    (hlarge : qhat = base - 1 ∨ (w₀ * base + w₁) * base + w₂ < (qhat + 1) * (v₁ * base + v₂)) :
    ∃ guess, lowerQuotient v₁ v₂ w₂ qhat rhat overflowed = .ok guess ∧ guess < base ∧
      guess * (v₁ * base + v₂) ≤ (w₀ * base + w₁) * base + w₂ ∧
      (guess = base - 1 ∨ (w₀ * base + w₁) * base + w₂ < (guess + 1) * (v₁ * base + v₂)) := by
  induction qhat generalizing rhat overflowed with
  | zero =>
    refine ⟨0, ?_, base_pos, by simp, hlarge⟩
    simp [lowerQuotient, quotientTooLarge, pure_eq]
  | succ qhat ih =>
    obtain ⟨hrhat, hsum⟩ := hstate
    -- the test compares the product with the leading limbs
    have hexpand : (qhat + 1) * (v₁ * base + v₂)
          + (rhat + (if overflowed then base else 0)) * base + w₂
        = (w₀ * base + w₁) * base + w₂ + (qhat + 1) * v₂ := by
      linear_combination base * hsum
    by_cases htest : (!overflowed && quotientTooLarge (qhat + 1) rhat v₂ w₂) = true
    · obtain ⟨hoverflowed, htoo⟩ : overflowed = false ∧ rhat * base + w₂ < (qhat + 1) * v₂ := by
        simpa [quotientTooLarge] using htest
      subst hoverflowed
      obtain ⟨hnext, hnextSum⟩ := overflowingAdd_spec hrhat hv₁
      have hcarry : (if (overflowingAdd rhat v₁).2 = true then base else 0)
          = base * (overflowingAdd rhat v₁).2.toNat := by
        cases (overflowingAdd rhat v₁).2 <;> simp
      have hover : (w₀ * base + w₁) * base + w₂ < (qhat + 1) * (v₁ * base + v₂) := by
        simp only [Bool.false_eq_true, if_false, Nat.add_zero] at hexpand
        omega
      have hnextState : GuessState v₁ w₀ w₁ qhat (overflowingAdd rhat v₁).1
          (overflowingAdd rhat v₁).2 := by
        refine ⟨hnext, ?_⟩
        rw [hcarry]
        simp only [Bool.false_eq_true, if_false, Nat.add_zero] at hsum
        rw [← hsum, Nat.add_mul, Nat.one_mul]
        omega
      obtain ⟨guess, hrun, hguess⟩ := ih (by omega) hnextState (.inr hover)
      exact ⟨guess, by simp only [lowerQuotient, htest, if_true, hrun], hguess⟩
    · refine ⟨qhat + 1, by simp only [lowerQuotient, htest, if_false, pure_eq, Bool.false_eq_true],
        hqhat, ?_, hlarge⟩
      have hfits : (qhat + 1) * v₂ ≤ (rhat + (if overflowed then base else 0)) * base + w₂ := by
        cases overflowed with
        | false =>
          have hle : ¬rhat * base + w₂ < (qhat + 1) * v₂ := by
            simpa [quotientTooLarge] using htest
          simpa using hle
        | true =>
          have hmul : (qhat + 1) * v₂ ≤ base * base := Nat.mul_le_mul hqhat.le hv₂.le
          rw [if_pos rfl, Nat.add_mul rhat]
          omega
      omega

end Guess

/-! ## Multiplying, subtracting and adding back -/

/-- A carry that fills the base leaves nothing to subtract from the top limb. -/
lemma borrowed_toNat (w : ℕ) {carry : ℕ} (hcarry : carry ≤ base) :
    ((overflowingSub w (carry % base)).2 || decide (carry / base ≠ 0)).toNat
      = (overflowingSub w (carry % base)).2.toNat + carry / base := by
  rcases Nat.lt_or_eq_of_le hcarry with hlt | rfl
  · rw [Nat.div_eq_of_lt hlt]
    simp
  · rw [Nat.div_self base_pos, Nat.mod_self]
    simp [overflowingSub]

/-- `sub_mul_at` on a window: the window less the multiple, from a limb more when that is
larger. -/
lemma subMulLoop_spec (rest : List ℕ) {multiplier carry : ℕ} {denominator window : List ℕ}
    (hmultiplier : multiplier < base) (hdenominator : Words denominator) (hwindow : Words window)
    (hlen : window.length = denominator.length + 1) (hcarry : carry ≤ base) :
    ∃ output borrowed, subMulLoop multiplier denominator (window ++ rest) carry
        = .ok (output ++ rest, borrowed) ∧ Words output ∧ output.length = window.length ∧
      value base output + multiplier * value base denominator + carry
        = value base window + base ^ window.length * borrowed.toNat := by
  induction denominator generalizing window carry with
  | nil =>
    obtain ⟨w, rfl⟩ := List.length_eq_one_iff.mp hlen
    have hw : w < base := by simpa using hwindow
    obtain ⟨hsum, hlt⟩ := overflowingSub_spec hw (Nat.mod_lt carry base_pos).le
    have hsplit := mod_add_base_mul_div carry
    have hbool := borrowed_toNat w hcarry
    rcases hpair : overflowingSub w (carry % base) with ⟨difference, borrowed⟩
    rw [hpair] at hsum hlt hbool
    refine ⟨[difference], borrowed || decide (carry / base ≠ 0), ?_, by simpa using hlt, rfl, ?_⟩
    · simp only [subMulLoop, List.singleton_append, hpair, pure_eq]
    · rw [hbool, List.length_singleton, pow_one, value_cons, value_cons, value_nil, Nat.mul_zero,
        Nat.mul_zero, Nat.add_zero, Nat.add_zero]
      linear_combination hsum + hsplit.symm
  | cons v vs ih =>
    obtain _ | ⟨w, ws⟩ := window
    · simp at hlen
    · obtain ⟨hv, hvs⟩ := digits_cons.mp hdenominator
      obtain ⟨hw, hws⟩ := digits_cons.mp hwindow
      have hproduct : multiplier * v + carry < base * base := by
        have hle : multiplier * v ≤ (base - 1) * (base - 1) :=
          Nat.mul_le_mul (by omega) (by omega)
        have hsquare : (base - 1) * (base - 1) + base < base * base := by decide
        omega
      have hquot : (multiplier * v + carry) / base ≤ base - 1 :=
        Nat.le_sub_one_of_lt (div_base_lt hproduct)
      obtain ⟨hsum, hlt⟩ := overflowingSub_spec hw
        (Nat.mod_lt (multiplier * v + carry) base_pos).le
      have hcarry' : (multiplier * v + carry) / base
          + (overflowingSub w ((multiplier * v + carry) % base)).2.toNat ≤ base := by
        have hone := Bool.toNat_le (overflowingSub w ((multiplier * v + carry) % base)).2
        have hbase := one_lt_base
        omega
      obtain ⟨output, borrowed, hrun, hwords, houtLen, hvalue⟩ :=
        ih hvs hws (by simpa using hlen) hcarry'
      refine ⟨(overflowingSub w ((multiplier * v + carry) % base)).1 :: output, borrowed, ?_,
        digits_cons.mpr ⟨hlt, hwords⟩, by simp [houtLen], ?_⟩
      · simp only [subMulLoop, List.cons_append, wide_of_lt hproduct, hrun, ok_bind, pure_eq]
      · have hsplit := mod_add_base_mul_div (multiplier * v + carry)
        rw [value_cons, value_cons, value_cons, List.length_cons, pow_succ']
        linear_combination hsum + hsplit.symm + base * hvalue

lemma add_limbs_lt {l r carry : ℕ} (hl : l < base) (hr : r < base) (hcarry : carry ≤ 1) :
    l + r + carry < base * base := by
  rw [base_eq] at *
  omega

lemma add_limbs_div {l r carry : ℕ} (hl : l < base) (hr : r < base) (hcarry : carry ≤ 1) :
    (l + r + carry) / base ≤ 1 := by
  rw [base_eq] at *
  omega

/-- `add_at` on a window: the sum, and its carry into the limbs above. -/
lemma addAtLoop_spec (rest : List ℕ) {carry : ℕ} {denominator window : List ℕ}
    (hdenominator : Words denominator) (hwindow : Words window)
    (hlen : window.length = denominator.length) (hcarry : carry ≤ 1) :
    ∃ output last, addAtLoop denominator (window ++ rest) carry
        = (do pure (output ++ (← carryUp rest last))) ∧ Words output ∧ last ≤ 1 ∧
      output.length = window.length ∧
      value base output + base ^ window.length * last
        = value base window + value base denominator + carry := by
  induction denominator generalizing window carry with
  | nil =>
    obtain rfl := List.length_eq_zero_iff.mp hlen
    refine ⟨[], carry, ?_, by simp, hcarry, rfl, by simp⟩
    simp only [addAtLoop, List.nil_append]
    cases carryUp rest carry <;> rfl
  | cons v vs ih =>
    obtain _ | ⟨w, ws⟩ := window
    · simp at hlen
    · obtain ⟨hv, hvs⟩ := digits_cons.mp hdenominator
      obtain ⟨hw, hws⟩ := digits_cons.mp hwindow
      have hsum := add_limbs_lt hw hv hcarry
      have hquot : (w + v + carry) / base ≤ 1 := add_limbs_div hw hv hcarry
      obtain ⟨output, last, hrun, hwords, hlast, houtLen, hvalue⟩ :=
        ih hvs hws (by simpa using hlen) hquot
      refine ⟨(w + v + carry) % base :: output, last, ?_,
        digits_cons.mpr ⟨Nat.mod_lt _ base_pos, hwords⟩, hlast, by simp [houtLen], ?_⟩
      · simp only [addAtLoop, List.cons_append, wide_of_lt hsum, ok_bind, hrun]
        cases carryUp rest last <;> rfl
      · rw [value_cons, value_cons, value_cons, List.length_cons, pow_succ']
        linear_combination mod_add_base_mul_div (w + v + carry) + base * hvalue

/-! ## One turn -/

lemma limbAt_append (low high : List ℕ) (limb : ℕ) {index : ℕ} (h : index = low.length) :
    limbAt (low ++ limb :: high) index = .ok limb := by
  subst h
  simp [limbAt, Outcome.ofOption]

lemma value_leading (wr : List ℕ) (w₂ w₁ w₀ : ℕ) :
    value base (wr ++ [w₂, w₁, w₀])
      = ((w₀ * base + w₁) * base + w₂) * base ^ wr.length + value base wr := by
  simp only [value_append, value_cons, value_nil]
  ring

lemma value_leading_two (vr : List ℕ) (v₂ v₁ : ℕ) :
    value base (vr ++ [v₂, v₁]) = (v₁ * base + v₂) * base ^ vr.length + value base vr := by
  simp only [value_append, value_cons, value_nil]
  ring

/-- The window of a turn: a limb of the numerator and the remainder of the limbs above it. -/
structure Window (denominator window : List ℕ) : Prop where
  words : Words window
  length : window.length = denominator.length + 1
  lt : value base window < base * value base denominator

/-- A denominator of two limbs or more, with its two leading limbs. -/
structure Leading (denominator : List ℕ) (vr : List ℕ) (v₂ v₁ : ℕ) : Prop where
  eq : denominator = vr ++ [v₂, v₁]
  words : Words denominator
  top : 0 < v₁

section Turn

variable {denominator vr wr low rest : List ℕ} {v₂ v₁ w₂ w₁ w₀ : ℕ}

lemma Leading.limbs (h : Leading denominator vr v₂ v₁) : Words vr ∧ v₂ < base ∧ v₁ < base := by
  have hwords := h.words
  rw [h.eq] at hwords
  simpa using hwords

lemma Leading.length (h : Leading denominator vr v₂ v₁) :
    denominator.length = vr.length + 2 := by
  simp [h.eq]

lemma Leading.value_pos (h : Leading denominator vr v₂ v₁) : 0 < value base denominator := by
  have hmul : 0 < (v₁ * base + v₂) * base ^ vr.length :=
    Nat.mul_pos (Nat.add_pos_left (Nat.mul_pos h.top base_pos) v₂) (Nat.pow_pos base_pos)
  rw [h.eq, value_leading_two]
  omega

lemma Leading.value_lt (h : Leading denominator vr v₂ v₁) :
    value base denominator < base ^ denominator.length := Digits.value_lt one_lt_base h.words

lemma Window.top_le (h : Leading denominator vr v₂ v₁)
    (hwindow : Window denominator (wr ++ [w₂, w₁, w₀])) : w₀ ≤ v₁ := by
  have hlen : wr.length = vr.length := by
    have hlen := hwindow.length
    rw [h.length] at hlen
    simpa using hlen
  have hlt := hwindow.lt
  obtain ⟨hvr, hv₂, -⟩ := h.limbs
  have hvr' := Digits.value_lt one_lt_base hvr
  rw [value_leading, h.eq, value_leading_two, hlen] at hlt
  by_contra hgt
  -- the denominator stays below the next multiple of its leading limb
  have hdenominator : (v₁ * base + v₂) * base ^ vr.length + value base vr
      < (v₁ + 1) * base * base ^ vr.length := by
    have hle : (v₁ * base + v₂ + 1) * base ^ vr.length ≤ (v₁ + 1) * base * base ^ vr.length :=
      Nat.mul_le_mul_right _ (by rw [Nat.add_mul]; omega)
    rw [Nat.add_mul _ 1] at hle
    omega
  have hwindowLe : base * ((v₁ + 1) * base * base ^ vr.length)
      ≤ ((w₀ * base + w₁) * base + w₂) * base ^ vr.length := by
    have hle : (v₁ + 1) * base * base ≤ (w₀ * base + w₁) * base + w₂ :=
      calc (v₁ + 1) * base * base ≤ w₀ * base * base :=
            Nat.mul_le_mul_right _ (Nat.mul_le_mul_right _ (by omega))
        _ ≤ (w₀ * base + w₁) * base + w₂ := by rw [Nat.add_mul]; omega
    calc base * ((v₁ + 1) * base * base ^ vr.length)
        = (v₁ + 1) * base * base * base ^ vr.length := by ring
      _ ≤ _ := Nat.mul_le_mul_right _ hle
  have hmul := Nat.mul_lt_mul_of_pos_left hdenominator base_pos
  omega

variable (low rest) in
/-- The corrected guess of a turn. -/
lemma guessQuotient_spec (h : Leading denominator vr v₂ v₁)
    (hwindow : Window denominator (wr ++ [w₂, w₁, w₀])) :
    ∃ guess, guessQuotient (low ++ (wr ++ [w₂, w₁, w₀]) ++ rest) denominator low.length = .ok guess
      ∧ guess < base ∧ guess * (v₁ * base + v₂) ≤ (w₀ * base + w₁) * base + w₂ ∧
      (guess = base - 1 ∨ (w₀ * base + w₁) * base + w₂ < (guess + 1) * (v₁ * base + v₂)) := by
  obtain ⟨-, hv₂, hv₁⟩ := h.limbs
  have hlen : wr.length = vr.length := by
    have hlen := hwindow.length
    rw [h.length] at hlen
    simpa using hlen
  obtain ⟨hw₂, hw₁⟩ : w₂ < base ∧ w₁ < base := by
    have hwords := hwindow.words
    simp only [digits_append, digits_cons] at hwords
    exact ⟨hwords.2.1, hwords.2.2.1⟩
  obtain ⟨qhat, rhat, overflowed, hestimate, hqhat, hstate, hmax⟩ :=
    estimateQuotient_spec hv₁ hw₁ (Window.top_le h hwindow) h.top
  have hlarge : qhat = base - 1 ∨
      (w₀ * base + w₁) * base + w₂ < (qhat + 1) * (v₁ * base + v₂) := by
    refine hmax.imp_right (fun hlt => ?_)
    calc (w₀ * base + w₁) * base + w₂ < (w₀ * base + w₁ + 1) * base := by
          rw [Nat.add_mul _ 1]
          omega
      _ ≤ (qhat + 1) * v₁ * base := Nat.mul_le_mul_right base hlt
      _ ≤ (qhat + 1) * (v₁ * base + v₂) := by
          rw [Nat.mul_assoc]
          exact Nat.mul_le_mul_left _ (Nat.le_add_right _ _)
  obtain ⟨guess, hlower, hguess⟩ := lowerQuotient_spec hv₁ hv₂ hqhat hstate hlarge
  refine ⟨guess, ?_, hguess⟩
  have hhigh : limbAt (low ++ (wr ++ [w₂, w₁, w₀]) ++ rest) (low.length + denominator.length)
      = .ok w₀ := by
    have hsplit : low ++ (wr ++ [w₂, w₁, w₀]) ++ rest = (low ++ wr ++ [w₂, w₁]) ++ w₀ :: rest := by
      simp
    rw [hsplit]
    exact limbAt_append _ _ _ (by simp [h.length, hlen])
  have hmiddle : limbAt (low ++ (wr ++ [w₂, w₁, w₀]) ++ rest)
      (low.length + denominator.length - 1) = .ok w₁ := by
    have hsplit : low ++ (wr ++ [w₂, w₁, w₀]) ++ rest
        = (low ++ wr ++ [w₂]) ++ w₁ :: w₀ :: rest := by
      simp
    rw [hsplit]
    exact limbAt_append _ _ _ (by simp [h.length, hlen])
  have hlow : limbAt (low ++ (wr ++ [w₂, w₁, w₀]) ++ rest)
      (low.length + denominator.length - 2) = .ok w₂ := by
    have hsplit : low ++ (wr ++ [w₂, w₁, w₀]) ++ rest = (low ++ wr) ++ w₂ :: w₁ :: w₀ :: rest := by
      simp
    rw [hsplit]
    exact limbAt_append _ _ _ (by rw [List.length_append, h.length, hlen]; omega)
  have htop : limbAt denominator (denominator.length - 1) = .ok v₁ := by
    have hsplit : denominator = (vr ++ [v₂]) ++ v₁ :: [] := by simp [h.eq]
    rw [h.length]
    conv_lhs => rw [hsplit]
    exact limbAt_append _ _ _ (by simp)
  have hnext : limbAt denominator (denominator.length - 2) = .ok v₂ := by
    rw [h.length]
    conv_lhs => rw [h.eq]
    exact limbAt_append _ _ _ (by simp)
  have htwo : denominator.length > 1 := by
    rw [h.length]
    omega
  simp only [guessQuotient, hhigh, hmiddle, hlow, htop, hnext, ok_bind, hestimate, if_pos htwo,
    hlower]

/-- The corrected guess is the quotient or one more. -/
lemma guess_bounds {guess : ℕ} (h : Leading denominator vr v₂ v₁)
    (hwindow : Window denominator (wr ++ [w₂, w₁, w₀])) (hguess : guess < base)
    (hfits : guess * (v₁ * base + v₂) ≤ (w₀ * base + w₁) * base + w₂)
    (hmax : guess = base - 1 ∨ (w₀ * base + w₁) * base + w₂ < (guess + 1) * (v₁ * base + v₂)) :
    value base (wr ++ [w₂, w₁, w₀]) < (guess + 1) * value base denominator ∧
      guess * value base denominator
        < value base (wr ++ [w₂, w₁, w₀]) + value base denominator := by
  have hlen : wr.length = vr.length := by
    have hlen := hwindow.length
    rw [h.length] at hlen
    simpa using hlen
  obtain ⟨hvr, hv₂, -⟩ := h.limbs
  have hwr : Words wr := (digits_append.mp hwindow.words).1
  have hvr' := Digits.value_lt one_lt_base hvr
  have hwr' := Digits.value_lt one_lt_base hwr
  have hV : value base denominator = (v₁ * base + v₂) * base ^ wr.length + value base vr := by
    rw [h.eq, value_leading_two, hlen]
  rw [← hlen] at hvr'
  constructor
  · rcases hmax with hlast | hlarge
    · rw [hlast, Nat.sub_add_cancel one_lt_base.le]
      exact hwindow.lt
    · rw [value_leading, hV]
      exact lt_guess_of_leading hwr' hlarge
  · rw [value_leading, hV]
    exact guess_le_succ hguess h.top hvr' hfits

/-- A remainder below the denominator has no limb in the top place. -/
lemma exists_remainder {output : List ℕ} (h : Leading denominator vr v₂ v₁) (houtput : Words output)
    (hlen : output.length = denominator.length + 1)
    (hlt : value base output < value base denominator) :
    ∃ remainder, output = remainder ++ [0] ∧ Words remainder ∧
      remainder.length = denominator.length ∧ value base remainder = value base output := by
  have hne : output ≠ [] := by
    rintro rfl
    simp at hlen
  have hsplit := List.dropLast_append_getLast hne
  have hdropLen : output.dropLast.length = denominator.length := by
    rw [List.length_dropLast, hlen, Nat.add_sub_cancel]
  have hvalue : value base output
      = value base output.dropLast + base ^ denominator.length * output.getLast hne := by
    conv_lhs => rw [← hsplit]
    rw [value_append, hdropLen, value_cons, value_nil, Nat.mul_zero, Nat.add_zero]
  have hzero : output.getLast hne = 0 := by
    by_contra hpos
    have hle : base ^ denominator.length * 1 ≤ base ^ denominator.length * output.getLast hne :=
      Nat.mul_le_mul_left _ (Nat.one_le_iff_ne_zero.mpr hpos)
    have hbound := h.value_lt
    omega
  rw [hzero] at hsplit hvalue
  refine ⟨output.dropLast, hsplit.symm, fun d hd => houtput d (List.mem_of_mem_dropLast hd),
    hdropLen, ?_⟩
  rw [hvalue, Nat.mul_zero, Nat.add_zero]

variable (rest) in
/-- The window after a guess that was one too large: adding back makes a carry past it. -/
lemma addBack_spec {output : List ℕ} (remainder : ℕ) (h : Leading denominator vr v₂ v₁)
    (houtput : Words output) (hlen : output.length = denominator.length + 1)
    (hremainder : remainder < value base denominator)
    (hvalue : value base output + value base denominator
      = remainder + base ^ (denominator.length + 1)) :
    ∃ sum, Words sum ∧ sum.length = denominator.length ∧ value base sum = remainder ∧
      addAtLoop denominator (output ++ rest) 0
        = (do pure (sum ++ 0 :: (← carryUp rest 1))) := by
  have hne : output ≠ [] := by
    rintro rfl
    simp at hlen
  have hsplit := List.dropLast_append_getLast hne
  have hdropLen : output.dropLast.length = denominator.length := by
    rw [List.length_dropLast, hlen, Nat.add_sub_cancel]
  have hdropWords : Words output.dropLast := fun d hd => houtput d (List.mem_of_mem_dropLast hd)
  have htop : output.getLast hne < base := houtput _ (List.getLast_mem hne)
  have houtputValue : value base output
      = value base output.dropLast + base ^ denominator.length * output.getLast hne := by
    conv_lhs => rw [← hsplit]
    rw [value_append, hdropLen, value_cons, value_nil, Nat.mul_zero, Nat.add_zero]
  obtain ⟨sum, last, hrun, hwords, hlast, hsumLen, hsumValue⟩ :=
    addAtLoop_spec (output.getLast hne :: rest) h.words hdropWords hdropLen (Nat.zero_le 1)
  rw [hdropLen] at hsumLen hsumValue
  -- the two parts of the sum are the remainder and the carry past the window
  have htotal : value base sum + base ^ denominator.length * (last + output.getLast hne)
      = remainder + base ^ denominator.length * base := by
    rw [← pow_succ]
    linear_combination hsumValue + hvalue + houtputValue.symm
  have hsumLt := Digits.value_lt one_lt_base hwords
  rw [hsumLen] at hsumLt
  have hremainderLt := hremainder.trans h.value_lt
  have hparts : value base sum = remainder ∧ last + output.getLast hne = base := by
    have hmod := congrArg (· % base ^ denominator.length) htotal
    simp only [Nat.add_mul_mod_self_left, Nat.mod_eq_of_lt hsumLt,
      Nat.mod_eq_of_lt hremainderLt] at hmod
    refine ⟨hmod, ?_⟩
    rw [hmod] at htotal
    exact Nat.eq_of_mul_eq_mul_left
      (Nat.pow_pos base_pos : 0 < base ^ denominator.length) (by omega)
  obtain ⟨hsum, hcarry⟩ := hparts
  obtain rfl : last = 1 := by omega
  refine ⟨sum, hwords, hsumLen, hsum, ?_⟩
  have hwhole : output ++ rest = output.dropLast ++ output.getLast hne :: rest := by
    conv_lhs => rw [← hsplit]
    simp
  have hfull : output.getLast hne + (0 + 1) = base := by omega
  have hwide : wide (output.getLast hne + (0 + 1)) = .ok base := by
    rw [hfull]
    exact wide_eq (by decide)
  rw [hwhole, hrun]
  simp only [carryUp, hwide, ok_bind, Nat.div_self base_pos, Nat.mod_self]
  cases carryUp rest 1 <;> rfl

variable (low rest) in
/-- One turn divides its window, and fails when the guess was one too large and no limb is left
above the window. -/
lemma divisionStep_spec (h : Leading denominator vr v₂ v₁)
    (hwindow : Window denominator (wr ++ [w₂, w₁, w₀])) :
    ∃ guess, guess < base ∧ guess * (v₁ * base + v₂) ≤ (w₀ * base + w₁) * base + w₂ ∧
      (guess = base - 1 ∨ (w₀ * base + w₁) * base + w₂ < (guess + 1) * (v₁ * base + v₂)) ∧
      (∃ remainder, Words remainder ∧ remainder.length = denominator.length ∧
        value base remainder
          = value base (wr ++ [w₂, w₁, w₀]) % value base denominator ∧
        divisionStep (low ++ (wr ++ [w₂, w₁, w₀]) ++ rest) denominator low.length
          = if value base (wr ++ [w₂, w₁, w₀]) < guess * value base denominator then
              do pure (value base (wr ++ [w₂, w₁, w₀]) / value base denominator,
                low ++ remainder ++ 0 :: (← carryUp rest 1))
            else .ok (value base (wr ++ [w₂, w₁, w₀]) / value base denominator,
              low ++ remainder ++ 0 :: rest)) := by
  obtain ⟨guess, hrun, hguess, hfits, hmax⟩ := guessQuotient_spec low rest h hwindow
  obtain ⟨hlow, hhigh⟩ := guess_bounds h hwindow hguess hfits hmax
  refine ⟨guess, hguess, hfits, hmax, ?_⟩
  have hV := h.value_pos
  generalize hW : value base (wr ++ [w₂, w₁, w₀]) = W at *
  have hwords := hwindow.words
  have hwindowLen := hwindow.length
  generalize hlist : wr ++ [w₂, w₁, w₀] = window at *
  generalize hden : value base denominator = V at *
  have hdropLow : (low ++ window ++ rest).drop low.length = window ++ rest := by simp
  have htakeLow : (low ++ window ++ rest).take low.length = low := by simp
  by_cases hzero : guess = 0
  · -- nothing is subtracted: the window is the remainder
    subst hzero
    rw [Nat.zero_add, Nat.one_mul] at hlow
    obtain ⟨remainder, hsplit, hrem, hremLen, hremValue⟩ :=
      exists_remainder h hwords hwindowLen (by rw [hW, hden]; exact hlow)
    refine ⟨remainder, hrem, hremLen, ?_, ?_⟩
    · rw [hremValue, hW, Nat.mod_eq_of_lt hlow]
    · rw [if_neg (by omega)]
      have hstep : divisionStep (low ++ window ++ rest) denominator low.length
          = .ok (0, low ++ window ++ rest) := by
        simp only [divisionStep, hrun, ok_bind, subMulAt, if_true, pure_eq, Bool.false_eq_true,
          if_false]
      rw [hstep, Nat.div_eq_of_lt hlow, hsplit]
      simp only [List.append_assoc, List.singleton_append]
  · obtain ⟨output, borrowed, hsub, houtput, houtputLen, hvalue⟩ :=
      subMulLoop_spec rest hguess h.words hwords hwindowLen (Nat.zero_le base)
    rw [hden, hW, Nat.add_zero, hwindowLen] at hvalue
    have houtputLt := Digits.value_lt one_lt_base houtput
    rw [houtputLen, hwindowLen] at houtputLt
    have hstep : subMulAt (low ++ window ++ rest) denominator guess low.length
        = .ok (low ++ (output ++ rest), borrowed) := by
      simp only [subMulAt, if_neg hzero, hdropLow, htakeLow, hsub, ok_bind, pure_eq]
    cases borrowed with
    | false =>
      -- the guess is the quotient
      rw [Bool.toNat_false, Nat.mul_zero, Nat.add_zero] at hvalue
      have hquot : W / V = guess := by
        apply Nat.div_eq_of_lt_le
        · omega
        · exact hlow
      have hmod : value base output = W % V := by
        have hdm := Nat.div_add_mod W V
        rw [hquot, Nat.mul_comm] at hdm
        omega
      obtain ⟨remainder, hsplit, hrem, hremLen, hremValue⟩ := exists_remainder h houtput
        (by rw [houtputLen, hwindowLen]) (by rw [hmod, hden]; exact Nat.mod_lt _ hV)
      refine ⟨remainder, hrem, hremLen, by rw [hremValue, hmod], ?_⟩
      rw [if_neg (by omega), hquot]
      have hturn : divisionStep (low ++ window ++ rest) denominator low.length
          = .ok (guess, low ++ (output ++ rest)) := by
        simp only [divisionStep, hrun, ok_bind, hstep, Bool.false_eq_true, if_false, pure_eq]
      rw [hturn, hsplit]
      simp only [List.append_assoc, List.singleton_append]
    | true =>
      -- the guess is one more: its multiple is larger than the window, and is added back once
      rw [Bool.toNat_true, Nat.mul_one] at hvalue
      have hlarger : W < guess * V := by omega
      obtain ⟨quotient, rfl⟩ := Nat.exists_eq_succ_of_ne_zero hzero
      rw [Nat.succ_eq_add_one] at *
      rw [Nat.add_mul, Nat.one_mul] at hhigh hlarger hvalue
      have hquot : W / V = quotient := by
        apply Nat.div_eq_of_lt_le
        · omega
        · rw [Nat.add_mul, Nat.one_mul]
          exact hlarger
      have hmod : W % V = W - quotient * V := by
        have hdm := Nat.div_add_mod W V
        rw [hquot, Nat.mul_comm] at hdm
        omega
      obtain ⟨sum, hsum, hsumLen, hsumValue, hadd⟩ := addBack_spec rest
        (W % V) h houtput (by rw [houtputLen, hwindowLen])
        (by rw [hden]; exact Nat.mod_lt _ hV) (by rw [hden, hmod]; omega)
      refine ⟨sum, hsum, hsumLen, hsumValue, ?_⟩
      have hdropAgain : (low ++ (output ++ rest)).drop low.length = output ++ rest := by simp
      have htakeAgain : (low ++ (output ++ rest)).take low.length = low := by simp
      rw [if_pos (by rw [Nat.add_mul, Nat.one_mul]; exact hlarger), hquot]
      simp only [divisionStep, hrun, ok_bind, hstep, if_true, Outcome.bailIf, if_neg hzero, addAt,
        hdropAgain, htakeAgain, hadd, Nat.add_sub_cancel]
      cases carryUp rest 1 with
      | error e => rfl
      | ok upper => simp only [pure_eq, ok_bind, List.append_assoc]

/-- The limbs of a list of three or more, the three highest apart. -/
lemma exists_leading {window : List ℕ} {count : ℕ} (h : window.length = count + 3) :
    ∃ wr w₂ w₁ w₀, window = wr ++ [w₂, w₁, w₀] := by
  obtain ⟨w₂, w₁, w₀, hlast⟩ := List.length_eq_three.mp
    (show (window.drop count).length = 3 by rw [List.length_drop]; omega)
  exact ⟨window.take count, w₂, w₁, w₀, by rw [← hlast, List.take_append_drop]⟩

/-- The turns below the first: each has a zero limb above its window, so none fails. -/
lemma divisionLoop_spec (h : Leading denominator vr v₂ v₁) {low remainder : List ℕ} (rest : List ℕ)
    (hlow : Words low) (hremainder : Words remainder)
    (hlen : remainder.length = denominator.length)
    (hlt : value base remainder < value base denominator) :
    ∃ quotient final upper, divisionLoop denominator low.length (low ++ remainder ++ 0 :: rest)
        = .ok (quotient, final ++ upper) ∧ Words quotient ∧ Words final ∧
      final.length = denominator.length ∧ value base final < value base denominator ∧
      value base (low ++ remainder)
        = value base quotient * value base denominator + value base final ∧
      quotient.length = low.length := by
  induction low using List.reverseRecOn generalizing remainder rest with
  | nil =>
    exact ⟨[], remainder, 0 :: rest, by simp [divisionLoop, pure_eq], by simp, hremainder, hlen,
      hlt, by simp, rfl⟩
  | append_singleton low limb ih =>
    obtain ⟨hlow', hlimb⟩ : Words low ∧ limb < base := by simpa using hlow
    have hwindow : Window denominator (limb :: remainder) := by
      refine ⟨digits_cons.mpr ⟨hlimb, hremainder⟩, by simp [hlen], ?_⟩
      have hmul := Nat.mul_le_mul_left base hlt
      rw [value_cons]
      rw [Nat.mul_succ] at hmul
      omega
    obtain ⟨wr, w₂, w₁, w₀, hleading⟩ := exists_leading
      (show (limb :: remainder).length = vr.length + 3 by rw [List.length_cons, hlen, h.length])
    rw [hleading] at hwindow
    obtain ⟨guess, -, -, -, next, hnext, hnextLen, hnextValue, hstep⟩ :=
      divisionStep_spec low (0 :: rest) h hwindow
    rw [← hleading] at hnextValue hstep hwindow
    have hcarry : carryUp (0 :: rest) 1 = .ok (1 :: rest) := by
      simp [carryUp, wide, base_eq, pure_eq]
    obtain ⟨rest', hturn⟩ : ∃ rest', divisionStep (low ++ (limb :: remainder) ++ 0 :: rest)
        denominator low.length = .ok (value base (limb :: remainder) / value base denominator,
          low ++ next ++ 0 :: rest') := by
      rw [hstep, hcarry]
      split
      · exact ⟨1 :: rest, rfl⟩
      · exact ⟨0 :: rest, rfl⟩
    obtain ⟨quotient, final, upper, hrun, hquotient, hfinal, hfinalLen, hfinalLt, hvalue,
      hquotLen⟩ :=
      ih rest' hlow' hnext hnextLen
        (by rw [hnextValue]; exact Nat.mod_lt _ h.value_pos)
    have hdigit : value base (limb :: remainder) / value base denominator < base :=
      Nat.div_lt_of_lt_mul (by rw [Nat.mul_comm]; exact hwindow.lt)
    refine ⟨quotient ++ [value base (limb :: remainder) / value base denominator], final, upper, ?_,
      digits_append.mpr ⟨hquotient, by simpa using hdigit⟩, hfinal, hfinalLen, hfinalLt, ?_,
      by simp [hquotLen]⟩
    · have hassoc : low ++ [limb] ++ remainder ++ 0 :: rest
          = low ++ (limb :: remainder) ++ 0 :: rest := by simp
      rw [hassoc, List.length_append, List.length_singleton]
      simp only [divisionLoop, hturn, ok_bind, hrun, pure_eq]
    · have hdm := Nat.div_add_mod (value base (limb :: remainder)) (value base denominator)
      have hassoc : low ++ [limb] ++ remainder = low ++ (limb :: remainder) := by simp
      rw [value_append, hnextValue] at hvalue
      rw [hassoc, value_append, value_append, hquotLen, value_singleton]
      linear_combination hvalue + base ^ low.length * hdm.symm

end Turn

/-! ## The whole division -/

/-- The first guess is one too large: the normalized numerator is longer than the normalized
denominator, agrees with it in the two leading limbs and is below it in the limbs under them. -/
def firstGuessTooLarge (numerator denominator : List ℕ) : Bool :=
  let shift := leadingZeros (denominator.getLastD 0)
  let numerator := shlAbsLimbs numerator shift
  let denominator := shlAbsLimbs denominator shift
  let window := numerator.drop (numerator.length - denominator.length)
  decide (denominator.length < numerator.length) &&
    decide (window.drop (denominator.length - 2) = denominator.drop (denominator.length - 2)) &&
    decide (cmpAbsLimbs window denominator = .lt)

section Whole

variable {denominator vr : List ℕ} {v₂ v₁ : ℕ}

/-- The first turn has nothing above its window. -/
lemma divisionLoop_first (h : Leading denominator vr v₂ v₁) (hnormal : base ≤ 2 * v₁)
    {low window : List ℕ} (hlow : Words low) (hwindow : Words window)
    (hlen : window.length = denominator.length) :
    if window.drop (denominator.length - 2) = denominator.drop (denominator.length - 2) ∧
        value base window < value base denominator then
      divisionLoop denominator (low.length + 1) (low ++ window ++ [0]) = .error .indexOutOfRange
    else ∃ quotient final upper,
      divisionLoop denominator (low.length + 1) (low ++ window ++ [0])
        = .ok (quotient, final ++ upper) ∧ Words quotient ∧ Words final ∧
      final.length = denominator.length ∧ value base final < value base denominator ∧
      value base (low ++ window)
        = value base quotient * value base denominator + value base final := by
  obtain ⟨wr, w₂, w₁, rfl⟩ : ∃ wr w₂ w₁, window = wr ++ [w₂, w₁] := by
    obtain ⟨w₂, w₁, hlast⟩ := List.length_eq_two.mp
      (show (window.drop vr.length).length = 2 by rw [List.length_drop, hlen, h.length]; omega)
    exact ⟨window.take vr.length, w₂, w₁, by rw [← hlast, List.take_append_drop]⟩
  have hwrLen : wr.length = vr.length := by
    rw [h.length] at hlen
    simpa using hlen
  obtain ⟨hvr, hv₂, hv₁⟩ := h.limbs
  obtain ⟨hwr, hw₂, hw₁⟩ : Words wr ∧ w₂ < base ∧ w₁ < base := by simpa using hwindow
  have hvr' := Digits.value_lt one_lt_base hvr
  have hwr' := Digits.value_lt one_lt_base hwr
  rw [hwrLen] at hwr'
  -- the window of the first turn has a zero limb on top
  have hsame : value base (wr ++ [w₂, w₁, 0]) = value base (wr ++ [w₂, w₁]) := by simp
  have hW : value base (wr ++ [w₂, w₁]) = (w₁ * base + w₂) * base ^ vr.length + value base wr := by
    rw [value_leading_two, hwrLen]
  have hV : value base denominator = (v₁ * base + v₂) * base ^ vr.length + value base vr := by
    rw [h.eq, value_leading_two]
  have hwin : Window denominator (wr ++ [w₂, w₁, 0]) := by
    refine ⟨by simpa using ⟨hwr, hw₂, hw₁, base_pos⟩, by simp [h.length, hwrLen], ?_⟩
    have hlt : value base (wr ++ [w₂, w₁]) < base ^ (vr.length + 2) := by
      have hlt := Digits.value_lt one_lt_base hwindow
      rwa [hlen, h.length] at hlt
    have hle : base ^ (vr.length + 2) ≤ base * value base denominator := by
      have hlead : base ≤ v₁ * base + v₂ := by
        have hmul := Nat.mul_le_mul_right base h.top
        omega
      rw [hV]
      calc base ^ (vr.length + 2) = base * (base * base ^ vr.length) := by ring
        _ ≤ base * ((v₁ * base + v₂) * base ^ vr.length) :=
          Nat.mul_le_mul_left _ (Nat.mul_le_mul_right _ hlead)
        _ ≤ _ := Nat.mul_le_mul_left _ (Nat.le_add_right _ _)
    rw [hsame]
    omega
  obtain ⟨guess, hguess, hfits, hmax, remainder, hremainder, hremLen, hremValue, hstep⟩ :=
    divisionStep_spec low [] h hwin
  rw [hsame] at hremValue hstep
  have hlist : low ++ (wr ++ [w₂, w₁, 0]) ++ [] = low ++ (wr ++ [w₂, w₁]) ++ [0] := by simp
  rw [hlist] at hstep
  rw [Nat.zero_mul, Nat.zero_add] at hfits hmax
  -- the guess of a normalized denominator is at most one
  have hone : guess ≤ 1 := by
    by_contra hgt
    have hlead : base * base ≤ 2 * (v₁ * base + v₂) := by
      have hmul := Nat.mul_le_mul_right base hnormal
      rw [Nat.mul_assoc] at hmul
      omega
    have htop : w₁ * base + w₂ < base * base := by
      have hmul := Nat.mul_le_mul_right base (Nat.succ_le_of_lt hw₁)
      rw [Nat.succ_mul] at hmul
      omega
    have htwo : 2 * (v₁ * base + v₂) ≤ guess * (v₁ * base + v₂) :=
      Nat.mul_le_mul_right _ (by omega)
    omega
  have htail : 0 < base ^ vr.length := Nat.pow_pos base_pos
  have hdropW : (wr ++ [w₂, w₁]).drop (denominator.length - 2) = [w₂, w₁] := by
    have hindex : denominator.length - 2 = wr.length := by rw [h.length, hwrLen]; omega
    rw [hindex, List.drop_left]
  have hdropV : denominator.drop (denominator.length - 2) = [v₂, v₁] := by
    have hindex : denominator.length - 2 = vr.length := by rw [h.length]; omega
    rw [hindex]
    conv_lhs => rw [h.eq]
    rw [List.drop_left]
  rw [hdropW, hdropV]
  split
  · next hbad =>
    obtain ⟨hleading, hless⟩ := hbad
    obtain ⟨rfl, rfl⟩ : w₂ = v₂ ∧ w₁ = v₁ := by simpa using hleading
    have hpos : 1 ≤ guess := by
      by_contra hzero
      obtain rfl : guess = 0 := by omega
      rcases hmax with hlast | hlarge
      · have hbase : 1 < base := one_lt_base
        omega
      · omega
    have hlarger : value base (wr ++ [w₂, w₁]) < guess * value base denominator :=
      lt_of_lt_of_le hless (Nat.le_mul_of_pos_left _ hpos)
    rw [if_pos hlarger] at hstep
    simp only [divisionLoop, hstep, carryUp]
    rfl
  · next hgood =>
    have hfair : ¬value base (wr ++ [w₂, w₁]) < guess * value base denominator := by
      intro hlarger
      apply hgood
      rcases Nat.le_one_iff_eq_zero_or_eq_one.mp hone with rfl | rfl
      · omega
      · rw [Nat.one_mul] at hfits hlarger
        refine ⟨?_, hlarger⟩
        -- a window below the denominator has no larger leading limbs
        have hle : w₁ * base + w₂ ≤ v₁ * base + v₂ := by
          by_contra hgt
          have hmul : (v₁ * base + v₂ + 1) * base ^ vr.length
              ≤ (w₁ * base + w₂) * base ^ vr.length := Nat.mul_le_mul_right _ (by omega)
          rw [Nat.add_mul _ 1] at hmul
          omega
        have heq : w₁ * base + w₂ = v₁ * base + v₂ := Nat.le_antisymm hle hfits
        have hdigits := digits_inj one_lt_base (show [w₂, w₁].length = [v₂, v₁].length from rfl)
          (by simpa using ⟨hw₂, hw₁⟩) (by simpa using ⟨hv₂, hv₁⟩) (by simp; linarith)
        exact hdigits
    rw [if_neg hfair] at hstep
    obtain ⟨quotient, final, upper, hrun, hquotient, hfinal, hfinalLen, hfinalLt, hvalue,
      hquotLen⟩ :=
      divisionLoop_spec h [] hlow hremainder hremLen
        (by rw [hremValue]; exact Nat.mod_lt _ h.value_pos)
    have hdigit : value base (wr ++ [w₂, w₁]) / value base denominator < base := by
      apply Nat.div_lt_of_lt_mul
      rw [Nat.mul_comm, ← hsame]
      exact hwin.lt
    refine ⟨quotient ++ [value base (wr ++ [w₂, w₁]) / value base denominator], final, upper, ?_,
      digits_append.mpr ⟨hquotient, by simpa using hdigit⟩, hfinal, hfinalLen, hfinalLt, ?_⟩
    · simp only [divisionLoop, hstep, ok_bind, hrun, pure_eq]
    · have hdm := Nat.div_add_mod (value base (wr ++ [w₂, w₁])) (value base denominator)
      rw [value_append, hremValue] at hvalue
      rw [value_append low, value_append quotient, hquotLen, value_singleton]
      linear_combination hvalue + base ^ low.length * hdm.symm

end Whole

/-! ## Normalization -/

lemma leadingZeros_spec {limb : ℕ} (hpos : limb ≠ 0) (h : limb < base) :
    2 ^ 63 ≤ limb * 2 ^ leadingZeros limb ∧ (limb + 1) * 2 ^ leadingZeros limb ≤ base := by
  have hlow := Nat.log2_self_le hpos
  have hhigh := Nat.lt_log2_self (n := limb)
  have hlog : limb.log2 < 64 := (Nat.log2_lt hpos).mpr h
  unfold leadingZeros
  rw [if_neg hpos]
  constructor
  · calc 2 ^ 63 = 2 ^ limb.log2 * 2 ^ (63 - limb.log2) := by
          rw [← pow_add, Nat.add_sub_cancel' (by omega)]
      _ ≤ limb * 2 ^ (63 - limb.log2) := Nat.mul_le_mul_right _ hlow
  · calc (limb + 1) * 2 ^ (63 - limb.log2) ≤ 2 ^ (limb.log2 + 1) * 2 ^ (63 - limb.log2) :=
          Nat.mul_le_mul_right _ hhigh
      _ = base := by
          rw [← pow_add, show limb.log2 + 1 + (63 - limb.log2) = 64 by omega]
          rfl

/-- The normalized denominator keeps its length and has the top bit set. -/
lemma normalized_spec {n : ℕ} (hn : n ≠ 0) :
    (magnitude (n * 2 ^ leadingZeros ((magnitude n).getLastD 0))).length = (magnitude n).length ∧
      ∀ h : magnitude (n * 2 ^ leadingZeros ((magnitude n).getLastD 0)) ≠ [],
        base ≤ 2 * (magnitude (n * 2 ^ leadingZeros ((magnitude n).getLastD 0))).getLast h := by
  have hne : magnitude n ≠ [] := by simpa using hn
  obtain ⟨k, hk⟩ : ∃ k, (magnitude n).length = k + 1 :=
    Nat.exists_eq_add_one.mpr (List.length_pos_iff.mpr hne)
  have htop := getLast_magnitude hne
  rw [hk, Nat.add_sub_cancel] at htop
  have hlast : (magnitude n).getLast hne < base := words_magnitude n _ (List.getLast_mem hne)
  obtain ⟨hlow, hhigh⟩ := leadingZeros_spec (getLast_magnitude_ne_zero n hne) hlast
  rw [getLastD_eq hne]
  generalize leadingZeros ((magnitude n).getLast hne) = shift at *
  generalize (magnitude n).getLast hne = top at *
  have hsplit := Nat.div_add_mod n (base ^ k)
  have hmod : n % base ^ k < base ^ k := Nat.mod_lt _ (Nat.pow_pos base_pos)
  rw [← htop] at hsplit
  have hlower : 2 ^ 63 * base ^ k ≤ n * 2 ^ shift := by
    calc 2 ^ 63 * base ^ k ≤ top * 2 ^ shift * base ^ k := Nat.mul_le_mul_right _ hlow
      _ = base ^ k * top * 2 ^ shift := by ring
      _ ≤ n * 2 ^ shift := Nat.mul_le_mul_right _ (Nat.le.intro hsplit)
  have hnext : n < (top + 1) * base ^ k := by
    calc n = base ^ k * top + n % base ^ k := hsplit.symm
      _ < base ^ k * top + base ^ k := Nat.add_lt_add_left hmod _
      _ = (top + 1) * base ^ k := by ring
  have hupper : n * 2 ^ shift < base ^ (k + 1) := by
    calc n * 2 ^ shift < (top + 1) * base ^ k * 2 ^ shift :=
          Nat.mul_lt_mul_of_pos_right hnext (Nat.two_pow_pos shift)
      _ = (top + 1) * 2 ^ shift * base ^ k := by ring
      _ ≤ base * base ^ k := Nat.mul_le_mul_right _ hhigh
      _ = base ^ (k + 1) := (pow_succ' base k).symm
  have hpow : base ^ k ≤ 2 ^ 63 * base ^ k := Nat.le_mul_of_pos_left _ (by norm_num)
  have hlen := length_magnitude (hpow.trans hlower) hupper
  refine ⟨hlen.trans hk.symm, fun h => ?_⟩
  rw [getLast_magnitude h, hlen, Nat.add_sub_cancel]
  have hdiv : 2 ^ 63 ≤ n * 2 ^ shift / base ^ k := (Nat.le_div_iff_mul_le
    (Nat.pow_pos base_pos)).mpr hlower
  calc base = 2 * 2 ^ 63 := rfl
    _ ≤ _ := Nat.mul_le_mul_left 2 hdiv

lemma magnitude_length_mono {m n : ℕ} (h : m ≤ n) : (magnitude m).length ≤ (magnitude n).length :=
  Nat.le_length_digits_le base m n h

lemma cmpAbsLimbs_eq_lt_iff {left right : List ℕ} (hlen : left.length = right.length)
    (hleft : Words left) (hright : Words right) :
    cmpAbsLimbs left right = .lt ↔ value base left < value base right := by
  have hcmp := cmpLimbs_eq (show left.reverse.length = right.reverse.length by simpa using hlen)
    (fun d hd => hleft d (List.mem_reverse.mp hd)) (fun d hd => hright d (List.mem_reverse.mp hd))
  rw [List.reverse_reverse, List.reverse_reverse] at hcmp
  unfold cmpAbsLimbs
  rw [Nat.compare_eq_eq.mpr hlen]
  exact (by rw [hcmp]; exact Nat.compare_eq_lt :
    cmpLimbs left.reverse right.reverse = .lt ↔ value base left < value base right)

/-- The first guess is never too large for a numerator below the denominator. -/
lemma firstGuessTooLarge_of_lt {m n : ℕ} (h : m < n) :
    firstGuessTooLarge (magnitude m) (magnitude n) = false := by
  have hlen : ∀ shift, (magnitude (m * 2 ^ shift)).length ≤ (magnitude (n * 2 ^ shift)).length :=
    fun shift => magnitude_length_mono (Nat.mul_le_mul_right _ h.le)
  simp only [firstGuessTooLarge, shlAbsLimbs_magnitude]
  rw [decide_eq_false (by have hle := hlen (leadingZeros ((magnitude n).getLastD 0)); omega)]
  rfl

/-- The first guess is never too large for a denominator of one limb. -/
lemma firstGuessTooLarge_of_one_limb {m n : ℕ} (h : (magnitude n).length = 1) :
    firstGuessTooLarge (magnitude m) (magnitude n) = false := by
  have hn : n ≠ 0 := by
    rintro rfl
    simp at h
  obtain ⟨hlen, -⟩ := normalized_spec hn
  simp only [firstGuessTooLarge, shlAbsLimbs_magnitude, hlen, h, Nat.reduceSub, List.drop_zero]
  by_contra htrue
  simp only [Bool.not_eq_false, Bool.and_eq_true, decide_eq_true_eq] at htrue
  obtain ⟨⟨-, heq⟩, hless⟩ := htrue
  rw [heq, cmpAbsLimbs_magnitude, Nat.compare_eq_lt] at hless
  omega

lemma divOneLimbLoop_spec {denominator : ℕ} {limbs : List ℕ} (hpos : 0 < denominator)
    (hlimbs : Words limbs) :
    Words (divOneLimbLoop denominator limbs).1 ∧
      (divOneLimbLoop denominator limbs).2 < denominator ∧
      value base limbs = value base (divOneLimbLoop denominator limbs).1 * denominator
        + (divOneLimbLoop denominator limbs).2 := by
  induction limbs with
  | nil => simpa [divOneLimbLoop] using hpos
  | cons l ls ih =>
    obtain ⟨hl, hls⟩ := digits_cons.mp hlimbs
    obtain ⟨hwords, hrem, hvalue⟩ := ih hls
    have hquot : ((divOneLimbLoop denominator ls).2 * base + l) / denominator < base := by
      apply Nat.div_lt_of_lt_mul
      have hmul := Nat.mul_le_mul_right base (Nat.succ_le_of_lt hrem)
      rw [Nat.succ_mul] at hmul
      omega
    have hdm := Nat.div_add_mod ((divOneLimbLoop denominator ls).2 * base + l) denominator
    simp only [divOneLimbLoop, Nat.mod_eq_of_lt hquot, value_cons, digits_cons]
    refine ⟨⟨hquot, hwords⟩, Nat.mod_lt _ hpos, ?_⟩
    linear_combination base * hvalue + hdm.symm

lemma quotient_unique {m n q r : ℕ} (hvalue : m = q * n + r) (hlt : r < n) :
    q = m / n ∧ r = m % n := by
  have hsum : r + n * q = m := by
    rw [hvalue]
    ring
  obtain ⟨hq, hr⟩ := (Nat.div_mod_unique (Nat.zero_lt_of_lt hlt)).mpr ⟨hsum, hlt⟩
  exact ⟨hq.symm, hr.symm⟩

/-- The denominator of a long division, with its two leading limbs. -/
lemma exists_leading_denominator {n : ℕ} (hn : n ≠ 0) (hlong : (magnitude n).length ≠ 1) :
    ∃ vr v₂ v₁, Leading (magnitude (n * 2 ^ leadingZeros ((magnitude n).getLastD 0))) vr v₂ v₁ ∧
      base ≤ 2 * v₁ := by
  have hne : magnitude n ≠ [] := by simpa using hn
  have hpos : 0 < (magnitude n).length := List.length_pos_iff.mpr hne
  obtain ⟨hlen, hnormal⟩ := normalized_spec hn
  generalize hv : magnitude (n * 2 ^ leadingZeros ((magnitude n).getLastD 0)) = v at *
  obtain ⟨v₂, v₁, hlast⟩ := List.length_eq_two.mp
    (show (v.drop (v.length - 2)).length = 2 by rw [List.length_drop]; omega)
  have hsplit : v = v.take (v.length - 2) ++ [v₂, v₁] := by rw [← hlast, List.take_append_drop]
  have hvne : v ≠ [] := by
    rw [← List.length_pos_iff]
    omega
  have htop : v.getLast hvne = v₁ := by
    conv_lhs => rw [List.getLast_congr _ (by simp) hsplit]
    simp
  have hbig := hnormal hvne
  rw [htop] at hbig
  refine ⟨_, v₂, v₁, ⟨hsplit, ?_, ?_⟩, hbig⟩
  · rw [← hv]
    exact words_magnitude _
  · have hbase := one_lt_base
    omega

/-- The branch of `div_rem_abs_limbs_into_scratch` for a denominator of two limbs or more. -/
lemma longDivision {m n : ℕ} (hn : n ≠ 0) (hle : n ≤ m) (hlong : (magnitude n).length ≠ 1)
    (scratch : DivisionScratch) (keepQuotient keepRemainder : Bool) :
    let shift := leadingZeros ((magnitude n).getLastD 0)
    let normalizedNumerator :=
      shlAbsLimbsInto (magnitude m) shift scratch.normalizedNumerator ++ [0]
    let normalizedDenominator := shlAbsLimbsInto (magnitude n) shift scratch.normalizedDenominator
    let run : Run DivisionScratch := do
      let (quotient, normalizedNumerator) ← divisionLoop normalizedDenominator
        (normalizedNumerator.length - normalizedDenominator.length) normalizedNumerator
      pure {
        normalizedNumerator := normalizedNumerator
        normalizedDenominator := normalizedDenominator
        quotient := if keepQuotient then trimLeadingZeroLimbs quotient else []
        remainder := if keepRemainder then trimLeadingZeroLimbs
            (shrAbsLimbsInto (normalizedNumerator.take normalizedDenominator.length) shift [])
          else [] }
    if firstGuessTooLarge (magnitude m) (magnitude n) then run = .error .indexOutOfRange
    else ∃ after, run = .ok after ∧
      after.quotient = (if keepQuotient then magnitude (m / n) else []) ∧
      after.remainder = (if keepRemainder then magnitude (m % n) else []) := by
  obtain ⟨vr, v₂, v₁, hleading, hnormal⟩ := exists_leading_denominator hn hlong
  simp only [shlAbsLimbsInto_magnitude, firstGuessTooLarge, shlAbsLimbs_magnitude]
  generalize hshift : leadingZeros ((magnitude n).getLastD 0) = shift at *
  have hlen := magnitude_length_mono (Nat.mul_le_mul_right (2 ^ shift) hle)
  have hu := words_magnitude (m * 2 ^ shift)
  have huValue := value_magnitude (m * 2 ^ shift)
  have hvValue := value_magnitude (n * 2 ^ shift)
  generalize magnitude (m * 2 ^ shift) = u at *
  generalize magnitude (n * 2 ^ shift) = v at *
  -- the window of the first turn, and the limbs below it
  have hwindowLen : (u.drop (u.length - v.length)).length = v.length := by
    rw [List.length_drop]
    omega
  have hfirst := divisionLoop_first hleading hnormal (hu.take (u.length - v.length))
    (hu.drop (u.length - v.length)) hwindowLen
  rw [List.take_append_drop] at hfirst
  have hcount : (u.take (u.length - v.length)).length + 1 = (u ++ [0]).length - v.length := by
    rw [List.length_take, List.length_append, List.length_singleton]
    omega
  rw [hcount] at hfirst
  have hcmp := cmpAbsLimbs_eq_lt_iff hwindowLen (hu.drop (u.length - v.length)) hleading.words
  -- a numerator of the denominator's length is not below it
  have hguard : (u.drop (u.length - v.length)).drop (v.length - 2) = v.drop (v.length - 2) ∧
        value base (u.drop (u.length - v.length)) < value base v ↔
      (decide (v.length < u.length) &&
        decide ((u.drop (u.length - v.length)).drop (v.length - 2) = v.drop (v.length - 2)) &&
        decide (cmpAbsLimbs (u.drop (u.length - v.length)) v = .lt)) = true := by
    simp only [Bool.and_eq_true, decide_eq_true_eq, hcmp, and_assoc]
    refine ⟨fun h => ⟨?_, h⟩, fun h => h.2⟩
    by_contra hshort
    have hzero : u.length - v.length = 0 := by omega
    have hless := h.2
    rw [hzero, List.drop_zero, huValue, hvValue] at hless
    exact absurd (Nat.mul_le_mul_right (2 ^ shift) hle) (Nat.not_le.mpr hless)
  by_cases hbad : (decide (v.length < u.length) &&
      decide ((u.drop (u.length - v.length)).drop (v.length - 2) = v.drop (v.length - 2)) &&
      decide (cmpAbsLimbs (u.drop (u.length - v.length)) v = .lt)) = true
  · rw [if_pos (hguard.mpr hbad)] at hfirst
    rw [if_pos hbad, hfirst]
    rfl
  · rw [if_neg (fun h => hbad (hguard.mp h))] at hfirst
    obtain ⟨quotient, final, upper, hrun, hquotient, hfinal, hfinalLen, hfinalLt, hvalue⟩ := hfirst
    rw [huValue, hvValue] at hvalue
    rw [hvValue] at hfinalLt
    obtain ⟨hq, hr⟩ := quotient_unique hvalue hfinalLt
    have hpow := Nat.two_pow_pos shift
    have htake : (final ++ upper).take v.length = final := by rw [← hfinalLen, List.take_left]
    have htrimQ : trimLeadingZeroLimbs quotient = magnitude (m / n) :=
      trim_eq_magnitude hquotient (by rw [hq, Nat.mul_div_mul_right _ _ hpow])
    have htrimR : trimLeadingZeroLimbs (shrAbsLimbsInto final shift []) = magnitude (m % n) := by
      rw [shrAbsLimbsInto_eq hfinal, trim_magnitude, hr, Nat.mul_mod_mul_right,
        Nat.mul_div_cancel _ hpow]
    rw [if_neg hbad, hrun]
    refine ⟨_, rfl, ?_, ?_⟩
    · simp only [htrimQ]
    · simp only [htake, htrimR]

/-- `div_rem_abs_limbs_into_scratch`: the quotient and the remainder, or a panic when the first
guess is one too large. -/
theorem divRemAbsLimbsIntoScratch_magnitude (m : ℕ) {n : ℕ} (hn : n ≠ 0)
    (scratch : DivisionScratch) (keepQuotient keepRemainder : Bool) :
    if firstGuessTooLarge (magnitude m) (magnitude n) then
      divRemAbsLimbsIntoScratch (magnitude m) (magnitude n) scratch keepQuotient keepRemainder
        = .error .indexOutOfRange
    else ∃ after,
      divRemAbsLimbsIntoScratch (magnitude m) (magnitude n) scratch keepQuotient keepRemainder
        = .ok after ∧
      after.quotient = (if keepQuotient then magnitude (m / n) else []) ∧
      after.remainder = (if keepRemainder then magnitude (m % n) else []) := by
  unfold divRemAbsLimbsIntoScratch
  simp only [Outcome.bailIf, if_neg hn, ok_bind, magnitude_eq_nil,
    cmpAbsLimbs_magnitude, Nat.compare_eq_lt]
  by_cases hm : m = 0
  · rw [firstGuessTooLarge_of_lt (by omega), if_neg Bool.false_ne_true]
    exact ⟨_, by rw [if_pos hm]; rfl, by simp [hm], by simp [hm]⟩
  · by_cases hless : m < n
    · rw [firstGuessTooLarge_of_lt hless, if_neg Bool.false_ne_true]
      exact ⟨_, by rw [if_neg hm, if_pos hless]; rfl, by simp [Nat.div_eq_of_lt hless],
        by simp [Nat.mod_eq_of_lt hless]⟩
    · by_cases hone : magnitude n = [1]
      · rw [firstGuessTooLarge_of_one_limb (by simp [hone]), if_neg Bool.false_ne_true]
        have hn1 : n = 1 := by
          have hvalue := value_magnitude n
          rw [hone] at hvalue
          simpa using hvalue.symm
        exact ⟨_, by rw [if_neg hm, if_neg hless, if_pos hone]; rfl, by simp [hn1],
          by simp [hn1, Nat.mod_one]⟩
      · by_cases hshort : (magnitude n).length = 1
        · rw [firstGuessTooLarge_of_one_limb hshort, if_neg Bool.false_ne_true]
          have hbase : n < base := by
            have hlt : n < base ^ (magnitude n).length := Nat.lt_base_pow_length_digits one_lt_base
            rwa [hshort, pow_one] at hlt
          have hlimb : magnitude n = [n] := magnitude_of_lt hn hbase
          obtain ⟨hwords, hrem, hvalue⟩ :=
            divOneLimbLoop_spec (Nat.pos_of_ne_zero hn) (words_magnitude m)
          rw [value_magnitude] at hvalue
          obtain ⟨hquot, hmod⟩ := quotient_unique hvalue hrem
          refine ⟨{ scratch with
            quotient := if keepQuotient then magnitude (m / n) else []
            remainder := if keepRemainder then magnitude (m % n) else [] }, ?_, rfl, rfl⟩
          have htrim : trimLeadingZeroLimbs (divOneLimbLoop n (magnitude m)).1
              = magnitude (m / n) := trim_eq_magnitude hwords hquot
          have hremLimbs : (if (keepRemainder && decide ((divOneLimbLoop n (magnitude m)).2 ≠ 0))
                = true then [(divOneLimbLoop n (magnitude m)).2 % base] else [])
              = if keepRemainder = true then magnitude (m % n) else [] := by
            rw [hmod, Nat.mod_eq_of_lt ((Nat.mod_lt m (Nat.pos_of_ne_zero hn)).trans hbase)]
            by_cases hzero : m % n = 0
            · simp [hzero]
            · rw [magnitude_of_lt hzero ((Nat.mod_lt m (Nat.pos_of_ne_zero hn)).trans hbase)]
              simp [hzero]
          have hlimbAt : limbAt (magnitude n) 0 = .ok n := by
            rw [hlimb]
            rfl
          rw [if_neg hm, if_neg hless, if_neg hone, if_pos hshort, hlimbAt]
          simp only [ok_bind, divRemAbsOneLimbInto, Outcome.bailIf, if_neg hn, pure_eq, htrim,
            hremLimbs]
        · rw [if_neg hm, if_neg hless, if_neg hone, if_neg hshort]
          exact longDivision hn (Nat.le_of_not_lt hless) hshort scratch keepQuotient keepRemainder

end Vdf

end Iuna
