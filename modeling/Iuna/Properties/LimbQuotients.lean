import Iuna.Properties.LimbIntegers

/-!
# Quotients and remainders of signed limb integers are exact

The divisions answer by the sign rules of the truncated quotient and remainder, the floor by one
less than the truncation, and the positive remainder by adding the modulus; each panics exactly
when the long division of the magnitudes does.
-/

namespace Iuna

namespace Vdf

open Positional

/-- A first guess is too large only for a quotient of at least half a limb. -/
lemma mul_le_of_firstGuessTooLarge {m n : ℕ} (hn : n ≠ 0)
    (h : firstGuessTooLarge (magnitude m) (magnitude n) = true) : base / 2 * n ≤ m := by
  have hlong : (magnitude n).length ≠ 1 := by
    intro hone
    rw [firstGuessTooLarge_of_one_limb hone] at h
    exact Bool.false_ne_true h
  obtain ⟨vr, v₂, v₁, hleading, hnormal⟩ := exists_leading_denominator hn hlong
  simp only [firstGuessTooLarge, shlAbsLimbs_magnitude, Bool.and_eq_true, decide_eq_true_eq] at h
  generalize leadingZeros ((magnitude n).getLastD 0) = shift at *
  obtain ⟨⟨hlen, hdrop⟩, -⟩ := h
  have hu := words_magnitude (m * 2 ^ shift)
  have huValue := value_magnitude (m * 2 ^ shift)
  have hvValue := value_magnitude (n * 2 ^ shift)
  generalize magnitude (m * 2 ^ shift) = u at *
  generalize magnitude (n * 2 ^ shift) = v at *
  have hvr : v.drop (v.length - 2) = [v₂, v₁] := by
    have hindex : v.length - 2 = vr.length := by rw [hleading.length]; omega
    rw [hindex, hleading.eq, List.drop_left]
  rw [hvr, List.drop_drop] at hdrop
  have hindex : u.length - v.length + (v.length - 2) = u.length - 2 := by
    have hlead := hleading.length
    omega
  rw [hindex] at hdrop
  -- the leading limb alone is more than the denominator by half a limb
  have hsplit := value_take_add_drop (b := base) u (Nat.sub_le u.length 2)
  rw [hdrop, huValue] at hsplit
  have hlower : base ^ (u.length - 2) * (base * v₁) ≤ m * 2 ^ shift := by
    rw [hsplit]
    have hle : base * v₁ ≤ value base [v₂, v₁] := by
      rw [value_cons, value_singleton]
      exact Nat.le_add_left _ _
    exact (Nat.mul_le_mul_left _ hle).trans (Nat.le_add_left _ _)
  have hv := hleading.value_lt
  rw [hvValue] at hv
  have hgrow : base ^ v.length * (base / 2) ≤ base ^ (u.length - 2) * (base * v₁) := by
    have hlead := hleading.length
    have hpow : base ^ v.length ≤ base ^ (u.length - 2 + 1) :=
      Nat.pow_le_pow_right base_pos (by omega)
    have hv₁ : base / 2 ≤ v₁ := by omega
    calc base ^ v.length * (base / 2) ≤ base ^ (u.length - 2 + 1) * v₁ := Nat.mul_le_mul hpow hv₁
      _ = base ^ (u.length - 2) * (base * v₁) := by rw [pow_succ]; ring
  have hmul : base / 2 * n * 2 ^ shift ≤ m * 2 ^ shift := by
    calc base / 2 * n * 2 ^ shift = n * 2 ^ shift * (base / 2) := by ring
      _ ≤ base ^ v.length * (base / 2) := Nat.mul_le_mul_right (base / 2) hv.le
      _ ≤ m * 2 ^ shift := hgrow.trans hlower
  exact Nat.le_of_mul_le_mul_right hmul (Nat.two_pow_pos shift)

namespace LimbInt

/-! ## Quotients and remainders of signed magnitudes -/

lemma apply_tmod {s t : Sign} (ht : t ≠ .zero) (m n : ℕ) :
    (s.apply m).tmod (t.apply n) = s.apply (m % n) := by
  cases s <;> cases t <;> simp [Sign.apply, Int.tmod_eq_emod_of_nonneg] at ht ⊢

lemma apply_tdiv {s t : Sign} (hs : s ≠ .zero) (ht : t ≠ .zero) (m n : ℕ) :
    (s.apply m).tdiv (t.apply n) = (productSign s t).apply (m / n) := by
  cases s <;> cases t <;> simp [Sign.apply, productSign] at hs ht ⊢

/-- The first guess of the division of the magnitudes is one too large. -/
abbrev GuessTooLarge (x y : ℤ) : Prop :=
  firstGuessTooLarge (magnitude x.natAbs) (magnitude y.natAbs) = true

lemma natAbs_apply {s : Sign} {n : ℕ} (h : Fits s n) : (s.apply n).natAbs = n := by
  cases s with
  | zero =>
    have hn := h.mp rfl
    subst hn
    rfl
  | positive => rfl
  | negative => simp [Sign.apply]

lemma limbs_ofInt (x : ℤ) : (ofInt x).limbs = magnitude x.natAbs := rfl

lemma guessTooLarge_le {x y : ℤ} (hy : y ≠ 0) (h : GuessTooLarge x y) :
    2 * y.natAbs ≤ x.natAbs :=
  (Nat.mul_le_mul_right y.natAbs (by decide)).trans
    (mul_le_of_firstGuessTooLarge (Int.natAbs_ne_zero.mpr hy) h)

/-- `div_rem_with_scratch`. -/
lemma divRemWithScratch_ofInt (x : ℤ) {y : ℤ} (hy : y ≠ 0) (scratch : LimbScratch) :
    if GuessTooLarge x y then
      (ofInt x).divRemWithScratch (ofInt y) scratch = .error .indexOutOfRange
    else ∃ after, (ofInt x).divRemWithScratch (ofInt y) scratch
      = .ok ((ofInt (x.tdiv y), ofInt (x.tmod y)), after) := by
  unfold divRemWithScratch
  simp only [isZero_ofInt, Outcome.bailIf, decide_eq_true_eq, if_neg hy, ok_bind]
  have hdivision := divRemAbsLimbsIntoScratch_magnitude x.natAbs (Int.natAbs_ne_zero.mpr hy)
    scratch.division true true
  by_cases hx : x = 0
  · have hfair : ¬GuessTooLarge x y := by
      intro h
      have hle := guessTooLarge_le hy h
      omega
    rw [if_neg hfair, if_pos hx, hx]
    exact ⟨scratch, by rw [Int.zero_tdiv, Int.zero_tmod, ofInt_zero, pure_eq]⟩
  · rw [if_neg hx]
    by_cases hbad : GuessTooLarge x y
    · rw [if_pos hbad] at hdivision ⊢
      simp only [divRemAbsLimbsWithScratch, limbs_ofInt, hdivision]
      rfl
    · rw [if_neg hbad] at hdivision ⊢
      obtain ⟨after, hrun, hquot, hrem⟩ := hdivision
      obtain ⟨s, m, hs, rfl⟩ := exists_fits x
      obtain ⟨t, n, ht, rfl⟩ := exists_fits y
      rw [apply_ne_zero hs] at hx
      rw [Ne, apply_ne_zero ht] at hy
      rw [natAbs_apply hs, natAbs_apply ht] at hrun hquot hrem
      refine ⟨{ scratch with division := after }, ?_⟩
      rw [ofInt_apply hs, ofInt_apply ht, apply_tmod hy, apply_tdiv hx hy]
      simp only [divRemAbsLimbsWithScratch, hrun, ok_bind, pure_eq, hquot, hrem, if_true,
        quotientSign, remainderSign, magnitude_eq_nil]
      rw [fromParts_magnitude (by split <;> simp [*, productSign_ne_zero]),
        fromParts_magnitude (by split <;> simp [*])]
      congr 4
      · by_cases hzero : m / n = 0
        · rw [if_pos hzero, hzero]
          cases productSign s t <;> rfl
        · rw [if_neg hzero]
      · by_cases hzero : m % n = 0
        · rw [if_pos hzero, hzero]
          cases s <;> rfl
        · rw [if_neg hzero]

/-- `div_rem`. -/
lemma divRem_ofInt (x : ℤ) {y : ℤ} (hy : y ≠ 0) :
    (ofInt x).divRem (ofInt y) = if GuessTooLarge x y then .error .indexOutOfRange
      else .ok (ofInt (x.tdiv y), ofInt (x.tmod y)) := by
  have hrun := divRemWithScratch_ofInt x hy .default
  unfold divRem
  by_cases hbad : GuessTooLarge x y
  · rw [if_pos hbad] at hrun ⊢
    rw [hrun]
    rfl
  · rw [if_neg hbad] at hrun ⊢
    obtain ⟨after, hrun⟩ := hrun
    rw [hrun]
    rfl

lemma fromParts_remainder (x y : ℤ) (hy : y ≠ 0) :
    fromParts (remainderSign (ofInt x) (magnitude (x.natAbs % y.natAbs)))
      (magnitude (x.natAbs % y.natAbs)) = ofInt (x.tmod y) := by
  obtain ⟨s, m, hs, rfl⟩ := exists_fits x
  obtain ⟨t, n, ht, rfl⟩ := exists_fits y
  rw [Ne, apply_ne_zero ht] at hy
  rw [natAbs_apply hs, natAbs_apply ht, ofInt_apply hs, apply_tmod hy]
  simp only [remainderSign, magnitude_eq_nil]
  by_cases hzero : m % n = 0
  · rw [if_pos hzero, hzero, fromParts_magnitude (fun _ => rfl)]
    cases s <;> rfl
  · rw [if_neg hzero, fromParts_magnitude]
    intro hs0
    rw [hs.mp hs0, Nat.zero_mod] at hzero
    exact absurd rfl hzero

lemma fromParts_quotient (x y : ℤ) (hx : x ≠ 0) (hy : y ≠ 0) :
    fromParts (quotientSign (ofInt x) (ofInt y) (magnitude (x.natAbs / y.natAbs)))
      (magnitude (x.natAbs / y.natAbs)) = ofInt (x.tdiv y) := by
  obtain ⟨s, m, hs, rfl⟩ := exists_fits x
  obtain ⟨t, n, ht, rfl⟩ := exists_fits y
  rw [Ne, apply_ne_zero hs] at hx
  rw [Ne, apply_ne_zero ht] at hy
  rw [natAbs_apply hs, natAbs_apply ht, ofInt_apply hs, ofInt_apply ht, apply_tdiv hx hy]
  simp only [quotientSign, magnitude_eq_nil]
  by_cases hzero : m / n = 0
  · rw [if_pos hzero, hzero, fromParts_magnitude (fun _ => rfl)]
    cases productSign s t <;> rfl
  · rw [if_neg hzero, fromParts_magnitude (fun h => absurd h (productSign_ne_zero s t))]

/-- `rem_with_scratch`. -/
lemma remWithScratch_ofInt (x : ℤ) {y : ℤ} (hy : y ≠ 0) (scratch : LimbScratch) :
    if GuessTooLarge x y then
      (ofInt x).remWithScratch (ofInt y) scratch = .error .indexOutOfRange
    else ∃ after, (ofInt x).remWithScratch (ofInt y) scratch = .ok (ofInt (x.tmod y), after) := by
  unfold remWithScratch
  simp only [isZero_ofInt, Outcome.bailIf, decide_eq_true_eq, if_neg hy, ok_bind]
  have hdivision := divRemAbsLimbsIntoScratch_magnitude x.natAbs (Int.natAbs_ne_zero.mpr hy)
    scratch.division false true
  by_cases hx : x = 0
  · have hfair : ¬GuessTooLarge x y := by
      intro h
      have hle := guessTooLarge_le hy h
      omega
    rw [if_neg hfair, if_pos hx, hx]
    exact ⟨scratch, by rw [Int.zero_tmod, ofInt_zero, pure_eq]⟩
  · rw [if_neg hx]
    by_cases hbad : GuessTooLarge x y
    · rw [if_pos hbad] at hdivision ⊢
      simp only [remAbsLimbsWithScratch, limbs_ofInt, hdivision]
      rfl
    · rw [if_neg hbad] at hdivision ⊢
      obtain ⟨after, hrun, -, hrem⟩ := hdivision
      refine ⟨{ scratch with division := after }, ?_⟩
      simp only [remAbsLimbsWithScratch, limbs_ofInt, hrun, ok_bind, pure_eq, hrem, if_true]
      rw [fromParts_remainder x y hy]

/-- The long division of `div_with_scratch` and `div_floor_with_scratch`. -/
lemma divAbsLimbsWithScratch_ofInt (x : ℤ) {y : ℤ} (hy : y ≠ 0) (scratch : DivisionScratch) :
    if GuessTooLarge x y then
      divAbsLimbsWithScratch (ofInt x).limbs (ofInt y).limbs scratch = .error .indexOutOfRange
    else ∃ after, divAbsLimbsWithScratch (ofInt x).limbs (ofInt y).limbs scratch
      = .ok (magnitude (x.natAbs / y.natAbs), after) := by
  have hdivision := divRemAbsLimbsIntoScratch_magnitude x.natAbs (Int.natAbs_ne_zero.mpr hy)
    scratch true false
  by_cases hbad : GuessTooLarge x y
  · rw [if_pos hbad] at hdivision ⊢
    simp only [divAbsLimbsWithScratch, limbs_ofInt, hdivision]
    rfl
  · rw [if_neg hbad] at hdivision ⊢
    obtain ⟨after, hrun, hquot, -⟩ := hdivision
    exact ⟨after, by simp only [divAbsLimbsWithScratch, limbs_ofInt, hrun, ok_bind, pure_eq, hquot,
      if_true]⟩

/-- The signs of two numbers that are not zero are the same. -/
lemma sign_ofInt_eq_iff {x y : ℤ} (hx : x ≠ 0) (hy : y ≠ 0) :
    (ofInt x).sign = (ofInt y).sign ↔ (0 ≤ x ↔ 0 ≤ y) := by
  unfold ofInt
  by_cases hxneg : x < 0 <;> by_cases hyneg : y < 0 <;>
    simp [hxneg, hyneg, hx, hy] <;> omega

lemma fromI128_neg_one : fromI128 (-1) = ofInt (-1) := by
  rw [show (-1 : ℤ) = Sign.negative.apply 1 from rfl, ofInt_apply (by simp [Fits]),
    magnitude_of_lt one_ne_zero one_lt_base]
  decide

lemma fromI128_neg_two : fromI128 (-2) = ofInt (-2) := by
  rw [show (-2 : ℤ) = Sign.negative.apply 2 from rfl, ofInt_apply (by simp [Fits]),
    magnitude_of_lt two_ne_zero (by decide)]
  decide

/-- The truncated quotient of numbers with one quotient limb `1`. -/
lemma tdiv_eq_unit {x y : ℤ} (hx : x ≠ 0) (hy : y ≠ 0) (hle : y.natAbs ≤ x.natAbs)
    (hlt : x.natAbs < 2 * y.natAbs) :
    x.tdiv y = if 0 ≤ x ↔ 0 ≤ y then 1 else -1 := by
  obtain ⟨s, m, hs, rfl⟩ := exists_fits x
  obtain ⟨t, n, ht, rfl⟩ := exists_fits y
  have hsign := sign_ofInt_eq_iff hx hy
  rw [natAbs_apply hs, natAbs_apply ht] at *
  rw [ofInt_apply hs, ofInt_apply ht] at hsign
  rw [Ne, apply_ne_zero hs] at hx
  rw [Ne, apply_ne_zero ht] at hy
  have hquot : m / n = 1 := by
    apply Nat.div_eq_of_lt_le <;> omega
  rw [apply_tdiv hx hy, hquot, productSign]
  by_cases hst : s = t
  · rw [if_pos hst, if_pos (hsign.mp hst)]
    rfl
  · rw [if_neg hst, if_neg (fun h => hst (hsign.mpr h))]
    rfl

lemma tdiv_eq_zero {x y : ℤ} (h : x.natAbs < y.natAbs) : x.tdiv y = 0 := by
  apply Int.natAbs_eq_zero.mp
  rw [Int.natAbs_tdiv]
  exact Nat.div_eq_of_lt h

/-- `div_with_scratch`. -/
lemma divWithScratch_ofInt (x : ℤ) {y : ℤ} (hy : y ≠ 0) (scratch : LimbScratch) :
    if GuessTooLarge x y then
      (ofInt x).divWithScratch (ofInt y) scratch = .error .indexOutOfRange
    else ∃ after, (ofInt x).divWithScratch (ofInt y) scratch = .ok (ofInt (x.tdiv y), after) := by
  have hy' : y.natAbs ≠ 0 := Int.natAbs_ne_zero.mpr hy
  have hle := fun h => guessTooLarge_le (x := x) hy h
  have hdivision := divAbsLimbsWithScratch_ofInt x hy scratch.division
  unfold divWithScratch
  simp only [isZero_ofInt, Outcome.bailIf, decide_eq_true_eq, if_neg hy, ok_bind]
  by_cases hx : x = 0
  · rw [if_neg (fun h => by have hle := hle h; omega), if_pos hx, hx, Int.zero_tdiv, ofInt_zero]
    exact ⟨scratch, rfl⟩
  · rw [if_neg hx]
    have hunit : ∀ z, z.natAbs < 2 * y.natAbs → y.natAbs ≤ z.natAbs → z ≠ 0 →
        (if (ofInt z).sign = (ofInt y).sign then one else fromI128 (-1)) = ofInt (z.tdiv y) := by
      intro z hlt hge hz
      rw [tdiv_eq_unit hz hy hge hlt, ← ofInt_one, fromI128_neg_one]
      by_cases hsign : (ofInt z).sign = (ofInt y).sign
      · rw [if_pos hsign, if_pos ((sign_ofInt_eq_iff hz hy).mp hsign)]
      · rw [if_neg hsign, if_neg (fun h => hsign ((sign_ofInt_eq_iff hz hy).mpr h))]
    rw [absCmp_ofInt]
    rcases Nat.lt_trichotomy x.natAbs y.natAbs with h | h | h
    · rw [if_neg (fun hbad => by have hle := hle hbad; omega), Nat.compare_eq_lt.mpr h,
        tdiv_eq_zero h, ofInt_zero]
      exact ⟨scratch, rfl⟩
    · rw [if_neg (fun hbad => by have hle := hle hbad; omega), Nat.compare_eq_eq.mpr h,
        ← hunit x (by omega) (by omega) hx]
      exact ⟨scratch, rfl⟩
    · rw [Nat.compare_eq_gt.mpr h]
      simp only [limbs_ofInt, cmpAbsToDouble_magnitude _ hy', ok_bind, Nat.compare_eq_lt]
      by_cases hshort : x.natAbs < 2 * y.natAbs
      · rw [if_neg (fun hbad => by have hle := hle hbad; omega), if_pos hshort,
          hunit x hshort h.le hx]
        exact ⟨scratch, rfl⟩
      · rw [if_neg hshort]
        by_cases hbad : GuessTooLarge x y
        · rw [if_pos hbad] at hdivision ⊢
          rw [limbs_ofInt, limbs_ofInt] at hdivision
          rw [hdivision]
          rfl
        · rw [if_neg hbad] at hdivision ⊢
          obtain ⟨after, hrun⟩ := hdivision
          rw [limbs_ofInt, limbs_ofInt] at hrun
          refine ⟨{ scratch with division := after }, ?_⟩
          simp only [hrun, ok_bind, pure_eq]
          rw [fromParts_quotient x y hx hy]

/-! ## Floor division -/

/-- The floor is one below the truncation of a quotient that is negative and not exact. -/
lemma fdiv_eq_tdiv_sub (x : ℤ) {y : ℤ} (hy : y ≠ 0) :
    x.fdiv y = x.tdiv y - if y ∣ x ∨ (0 ≤ x ↔ 0 ≤ y) then 0 else 1 := by
  rw [Int.fdiv_eq_tdiv]
  congr 1
  by_cases hdvd : y ∣ x
  · rw [if_pos hdvd, if_pos (.inl hdvd)]
  · rw [if_neg hdvd]
    by_cases hpos : 0 ≤ x <;> by_cases hnonneg : 0 ≤ y <;> simp only [hpos, hnonneg, hdvd, if_true,
      if_false, false_or, iff_true, iff_false, not_true_eq_false]
    · exact Int.sign_eq_one_of_pos (by omega)
    · rw [Int.sign_eq_neg_one_of_neg (by omega)]
      simp

/-- The floor of a quotient from its truncation. -/
lemma finishDivFloor_ofInt (x : ℤ) {y : ℤ} (hy : y ≠ 0) :
    finishDivFloor (ofInt x) (ofInt y) (ofInt (x.tdiv y)) (ofInt (x.tmod y))
      = .ok (ofInt (x.fdiv y)) := by
  unfold finishDivFloor
  by_cases hx : x = 0
  · rw [hx, Int.zero_tdiv, Int.zero_tmod, Int.zero_fdiv, isZero_ofInt]
    rfl
  · rw [fdiv_eq_tdiv_sub x hy, isZero_ofInt]
    simp only [Bool.or_eq_true, decide_eq_true_eq, ← Int.dvd_iff_tmod_eq_zero,
      sign_ofInt_eq_iff hx hy]
    by_cases hexact : y ∣ x ∨ (0 ≤ x ↔ 0 ≤ y)
    · rw [if_pos hexact, if_pos hexact, sub_zero, pure_eq]
    · rw [if_neg hexact, if_neg hexact, ← ofInt_one, LimbInt.sub, subAssign_ofInt]

/-- `div_floor`. -/
lemma divFloor_ofInt (x : ℤ) {y : ℤ} (hy : y ≠ 0) :
    (ofInt x).divFloor (ofInt y) = if GuessTooLarge x y then .error .indexOutOfRange
      else .ok (ofInt (x.fdiv y)) := by
  unfold divFloor
  rw [divRem_ofInt x hy]
  by_cases hbad : GuessTooLarge x y
  · rw [if_pos hbad, if_pos hbad]
    rfl
  · rw [if_neg hbad, if_neg hbad, ok_bind]
    exact finishDivFloor_ofInt x hy

/-- The floor of the quotient of numbers with one sign. -/
lemma fdiv_eq_natAbs_div {x y : ℤ} (hx : x ≠ 0) (hy : y ≠ 0) (hsign : 0 ≤ x ↔ 0 ≤ y) :
    x.fdiv y = (x.natAbs / y.natAbs : ℕ) := by
  have htdiv : x.tdiv y = (x.natAbs / y.natAbs : ℕ) := by
    have hsign' := (sign_ofInt_eq_iff hx hy).mpr hsign
    obtain ⟨s, m, hs, rfl⟩ := exists_fits x
    obtain ⟨t, n, ht, rfl⟩ := exists_fits y
    rw [natAbs_apply hs, natAbs_apply ht]
    rw [ofInt_apply hs, ofInt_apply ht] at hsign'
    rw [Ne, apply_ne_zero hs] at hx
    rw [Ne, apply_ne_zero ht] at hy
    rw [apply_tdiv hx hy, productSign, if_pos hsign']
    rfl
  rw [fdiv_eq_tdiv_sub x hy, if_pos (.inr hsign), sub_zero, htdiv]

/-- The floor of the quotient of numbers with different signs that is less than two in size. -/
lemma fdiv_eq_of_lt_two_mul {x y : ℤ} (hx : x ≠ 0) (hy : y ≠ 0) (hsign : ¬(0 ≤ x ↔ 0 ≤ y))
    (hle : x.natAbs < 2 * y.natAbs) :
    x.fdiv y = if y.natAbs < x.natAbs then -2 else -1 := by
  rw [fdiv_eq_tdiv_sub x hy]
  have hdvd : y ∣ x ↔ x.natAbs = y.natAbs := by
    rw [← Int.natAbs_dvd_natAbs]
    constructor
    · rintro ⟨k, hk⟩
      have hx' := Int.natAbs_pos.mpr hx
      have hk1 : k = 1 := by
        have hkpos : k ≠ 0 := by
          rintro rfl
          omega
        have hk2 : ¬2 ≤ k := by
          intro htwo
          have hmul := Nat.mul_le_mul_left y.natAbs htwo
          omega
        omega
      rw [hk, hk1, Nat.mul_one]
    · exact fun h => h ▸ dvd_rfl
  rcases Nat.lt_trichotomy x.natAbs y.natAbs with h | h | h
  · rw [tdiv_eq_zero h, if_neg (fun hd => ?_), if_neg (by omega)]
    · rfl
    · rcases hd with hd | hd
      · have heq := hdvd.mp hd
        omega
      · exact hsign hd
  · rw [tdiv_eq_unit hx hy h.ge hle, if_neg hsign, if_pos (.inl (hdvd.mpr h)), if_neg (by omega)]
    rfl
  · rw [tdiv_eq_unit hx hy h.le hle, if_neg hsign, if_neg (fun hd => ?_), if_pos h]
    · rfl
    · rcases hd with hd | hd
      · have heq := hdvd.mp hd
        omega
      · exact hsign hd

/-- `div_floor_with_scratch`. -/
lemma divFloorWithScratch_ofInt (x : ℤ) {y : ℤ} (hy : y ≠ 0) (scratch : LimbScratch) :
    if GuessTooLarge x y then
      (ofInt x).divFloorWithScratch (ofInt y) scratch = .error .indexOutOfRange
    else ∃ after, (ofInt x).divFloorWithScratch (ofInt y) scratch
      = .ok (ofInt (x.fdiv y), after) := by
  have hy' : y.natAbs ≠ 0 := Int.natAbs_ne_zero.mpr hy
  have hle := fun h => guessTooLarge_le (x := x) hy h
  have hdivision := divAbsLimbsWithScratch_ofInt x hy scratch.division
  have hdivRem := divRemWithScratch_ofInt x hy scratch
  unfold divFloorWithScratch
  simp only [isZero_ofInt, Outcome.bailIf, decide_eq_true_eq, if_neg hy, ok_bind]
  by_cases hx : x = 0
  · rw [if_neg (fun h => by have hle := hle h; omega), if_pos hx, hx, Int.zero_fdiv, ofInt_zero]
    exact ⟨scratch, rfl⟩
  · rw [if_neg hx, absCmp_ofInt]
    simp only [sign_ofInt_eq_iff hx hy]
    rcases Nat.lt_trichotomy x.natAbs y.natAbs with h | h | h
    · rw [if_neg (fun hbad => by have hle := hle hbad; omega), Nat.compare_eq_lt.mpr h]
      refine ⟨scratch, ?_⟩
      by_cases hsign : 0 ≤ x ↔ 0 ≤ y
      · simp only [if_pos hsign, pure_eq]
        rw [fdiv_eq_natAbs_div hx hy hsign, Nat.div_eq_of_lt h]
        simp [ofInt_zero]
      · simp only [if_neg hsign, pure_eq, fromI128_neg_one]
        rw [fdiv_eq_of_lt_two_mul hx hy hsign (by omega), if_neg (by omega)]
    · rw [if_neg (fun hbad => by have hle := hle hbad; omega), Nat.compare_eq_eq.mpr h]
      refine ⟨scratch, ?_⟩
      by_cases hsign : 0 ≤ x ↔ 0 ≤ y
      · simp only [if_pos hsign, pure_eq]
        rw [fdiv_eq_natAbs_div hx hy hsign, h, Nat.div_self (Nat.pos_of_ne_zero hy')]
        simp [ofInt_one]
      · simp only [if_neg hsign, pure_eq, fromI128_neg_one]
        rw [fdiv_eq_of_lt_two_mul hx hy hsign (by omega), if_neg (by omega)]
    · rw [Nat.compare_eq_gt.mpr h]
      simp only [limbs_ofInt, cmpAbsToDouble_magnitude _ hy', ok_bind, Nat.compare_eq_lt]
      by_cases hshort : x.natAbs < 2 * y.natAbs
      · rw [if_neg (fun hbad => by have hle := hle hbad; omega), if_pos hshort]
        refine ⟨scratch, ?_⟩
        by_cases hsign : 0 ≤ x ↔ 0 ≤ y
        · simp only [if_pos hsign, pure_eq]
          have hone : x.natAbs / y.natAbs = 1 := by
            apply Nat.div_eq_of_lt_le <;> omega
          rw [fdiv_eq_natAbs_div hx hy hsign, hone]
          simp [ofInt_one]
        · simp only [if_neg hsign, pure_eq, fromI128_neg_two]
          rw [fdiv_eq_of_lt_two_mul hx hy hsign hshort, if_pos h]
      · rw [if_neg hshort]
        rw [limbs_ofInt, limbs_ofInt] at hdivision
        by_cases hbad : GuessTooLarge x y
        · rw [if_pos hbad] at hdivision hdivRem ⊢
          rw [hdivision, hdivRem]
          by_cases hsign : 0 ≤ x ↔ 0 ≤ y
          · rw [if_pos hsign]
            rfl
          · rw [if_neg hsign]
            rfl
        · rw [if_neg hbad] at hdivision hdivRem ⊢
          obtain ⟨after, hrun⟩ := hdivision
          obtain ⟨afterRem, hrunRem⟩ := hdivRem
          by_cases hsign : 0 ≤ x ↔ 0 ≤ y
          · refine ⟨{ scratch with division := after }, ?_⟩
            simp only [if_pos hsign, hrun, ok_bind, pure_eq, magnitude_eq_nil]
            rw [fdiv_eq_natAbs_div hx hy hsign,
              if_neg (Nat.div_pos h.le (Nat.pos_of_ne_zero hy')).ne',
              fromParts_magnitude (by simp)]
            rfl
          · refine ⟨afterRem, ?_⟩
            simp only [if_neg hsign, hrunRem, ok_bind, finishDivFloor_ofInt x hy, pure_eq]

/-! ## The positive remainder -/

/-- The remainder that `mod_positive` returns: the truncated one, and the modulus more when that
is negative. -/
def positiveRemainder (x y : ℤ) : ℤ := if x.tmod y < 0 then x.tmod y + y else x.tmod y

/-- It is the positive remainder, but for a negative remainder to a negative modulus. -/
lemma positiveRemainder_eq_iff {x y : ℤ} (hy : y ≠ 0) :
    positiveRemainder x y = x % y ↔ 0 ≤ x.tmod y ∨ 0 < y := by
  unfold positiveRemainder
  rw [Int.emod_eq_tmod]
  by_cases hneg : x.tmod y < 0
  · have hx : ¬0 ≤ x := by
      intro hx
      exact absurd (Int.tmod_nonneg y hx) (not_le.mpr hneg)
    have hdvd : ¬y ∣ x := by
      intro hdvd
      rw [Int.tmod_eq_zero_of_dvd hdvd] at hneg
      exact lt_irrefl 0 hneg
    rw [if_pos hneg, if_neg (by simp [hx, hdvd])]
    omega
  · rw [if_neg hneg]
    have hor : 0 ≤ x ∨ y ∣ x := by
      by_contra hnone
      obtain ⟨hx, hdvd⟩ := not_or.mp hnone
      have hnonpos : 0 ≤ (-x).tmod y := Int.tmod_nonneg y (by omega)
      rw [Int.neg_tmod] at hnonpos
      exact hdvd (Int.dvd_of_tmod_eq_zero (by omega))
    rw [if_pos hor]
    exact ⟨fun _ => .inl (not_lt.mp hneg), fun _ => by simp⟩

lemma tmod_eq_self {x y : ℤ} (h : x.natAbs < y.natAbs) : x.tmod y = x := by
  have hsplit := Int.tmod_add_mul_tdiv x y
  rw [tdiv_eq_zero h, mul_zero, add_zero] at hsplit
  exact hsplit

/-- `mod_positive_with_scratch`. -/
lemma modPositiveWithScratch_ofInt (x : ℤ) {y : ℤ} (hy : y ≠ 0) (scratch : LimbScratch) :
    if GuessTooLarge x y then
      (ofInt x).modPositiveWithScratch (ofInt y) scratch = .error .indexOutOfRange
    else ∃ after, (ofInt x).modPositiveWithScratch (ofInt y) scratch
      = .ok (ofInt (positiveRemainder x y), after) := by
  have hle := fun h => guessTooLarge_le (x := x) hy h
  have hdivision := divRemAbsLimbsIntoScratch_magnitude x.natAbs (Int.natAbs_ne_zero.mpr hy)
    scratch.division false true
  unfold modPositiveWithScratch positiveRemainder
  simp only [isZero_ofInt, isNegative_ofInt, Outcome.bailIf, decide_eq_true_eq, if_neg hy, ok_bind]
  by_cases hx : x = 0
  · rw [if_neg (fun h => by have hle := hle h; have hy' := Int.natAbs_pos.mpr hy; omega),
      if_pos hx, hx, Int.zero_tmod, if_neg (lt_irrefl 0), ofInt_zero]
    exact ⟨scratch, rfl⟩
  · rw [if_neg hx, absCmp_ofInt]
    simp only [Nat.compare_eq_lt]
    by_cases hshort : x.natAbs < y.natAbs
    · rw [if_neg (fun h => by have hle := hle h; omega), if_pos hshort, tmod_eq_self hshort]
      refine ⟨scratch, ?_⟩
      by_cases hneg : x < 0
      · simp only [if_pos hneg, add_ofInt, ok_bind, pure_eq]
      · simp only [if_neg hneg, pure_eq]
    · rw [if_neg hshort]
      by_cases hbad : GuessTooLarge x y
      · rw [if_pos hbad] at hdivision ⊢
        simp only [remAbsLimbsWithScratch, limbs_ofInt, hdivision]
        rfl
      · rw [if_neg hbad] at hdivision ⊢
        obtain ⟨after, hrun, -, hrem⟩ := hdivision
        refine ⟨{ scratch with division := after }, ?_⟩
        simp only [remAbsLimbsWithScratch, limbs_ofInt, hrun, ok_bind, pure_eq, hrem, if_true,
          fromParts_remainder x y hy, isNegative_ofInt, decide_eq_true_eq]
        by_cases hneg : x.tmod y < 0
        · simp only [if_pos hneg, add_ofInt, ok_bind]
        · simp only [if_neg hneg]

end LimbInt

end Vdf

end Iuna
