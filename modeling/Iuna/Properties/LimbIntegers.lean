import Iuna.Domain.LimbInt
import Iuna.Properties.LimbDivision

/-!
# Signed limb integers are the integers

`LimbInt.ofInt` is the canonical form of an integer: no leading zero limb, and the sign `Zero`
exactly without limbs.  Every operation takes canonical operands to the canonical form of the
exact result.
-/

namespace Iuna

namespace Vdf

open Positional

/-- The integer of a sign and a magnitude. -/
def Sign.apply : Sign → ℕ → ℤ
  | .negative, n => -n
  | .zero, _ => 0
  | .positive, n => n

namespace LimbInt

/-- The integer that a number stands for. -/
def toInt (a : LimbInt) : ℤ := a.sign.apply (value base a.limbs)

/-- The canonical form of an integer. -/
def ofInt (z : ℤ) : LimbInt :=
  ⟨if z < 0 then .negative else if z = 0 then .zero else .positive, magnitude z.natAbs⟩

/-- A number in canonical form. -/
structure Canonical (a : LimbInt) : Prop where
  words : Words a.limbs
  top : ∀ h : a.limbs ≠ [], a.limbs.getLast h ≠ 0
  sign : a.sign = .zero ↔ a.limbs = []

/-- The sign fits the magnitude. -/
def Fits (s : Sign) (n : ℕ) : Prop := s = .zero ↔ n = 0

lemma ofInt_apply {s : Sign} {n : ℕ} (h : Fits s n) : ofInt (s.apply n) = ⟨s, magnitude n⟩ := by
  cases s with
  | zero => simp [Fits] at h; subst h; rfl
  | positive =>
    have hn : n ≠ 0 := by simpa [Fits] using h
    simp [ofInt, Sign.apply, hn]
  | negative =>
    have hn : n ≠ 0 := by simpa [Fits] using h
    simp [ofInt, Sign.apply, hn]

lemma exists_fits (z : ℤ) : ∃ s n, Fits s n ∧ z = s.apply n := by
  rcases lt_trichotomy z 0 with hz | rfl | hz
  · exact ⟨.negative, z.natAbs, by simp [Fits]; omega, by simp only [Sign.apply]; omega⟩
  · exact ⟨.zero, 0, by simp [Fits], rfl⟩
  · exact ⟨.positive, z.natAbs, by simp [Fits]; omega, by simp only [Sign.apply]; omega⟩

@[simp] lemma toInt_ofInt (z : ℤ) : (ofInt z).toInt = z := by
  obtain ⟨s, n, h, rfl⟩ := exists_fits z
  rw [ofInt_apply h, toInt, value_magnitude]

lemma ofInt_inj {x y : ℤ} : ofInt x = ofInt y ↔ x = y := by
  constructor
  · intro h
    rw [← toInt_ofInt x, h, toInt_ofInt]
  · exact fun h => congrArg ofInt h

/-- A number in canonical form is the form of its integer. -/
lemma Canonical.eq_ofInt {a : LimbInt} (h : a.Canonical) : a = ofInt a.toInt := by
  have hlimbs : a.limbs = magnitude (value base a.limbs) :=
    eq_digits one_lt_base h.words rfl h.top
  have hfits : Fits a.sign (value base a.limbs) := by
    rw [Fits, h.sign, hlimbs, value_magnitude, magnitude_eq_nil]
  rw [toInt, ofInt_apply hfits, ← hlimbs]

lemma canonical_ofInt (z : ℤ) : (ofInt z).Canonical := by
  obtain ⟨s, n, h, rfl⟩ := exists_fits z
  rw [ofInt_apply h]
  exact ⟨words_magnitude n, getLast_magnitude_ne_zero n, by rw [magnitude_eq_nil]; exact h⟩

lemma ofInt_zero : ofInt 0 = zero := by simp [ofInt, zero]

lemma ofInt_one : ofInt 1 = one := by
  simp only [ofInt, one]
  rw [show (1 : ℤ).natAbs = 1 from rfl, magnitude_of_lt one_ne_zero one_lt_base]
  rfl

lemma fromParts_magnitude {s : Sign} {n : ℕ} (h : s = .zero → n = 0) :
    fromParts s (magnitude n) = ofInt (s.apply n) := by
  unfold fromParts
  simp only [trim_magnitude, magnitude_eq_nil]
  by_cases hn : n = 0
  · subst hn
    cases s <;> simp [Sign.apply, ofInt_zero, zero]
  · rw [if_neg hn, ofInt_apply]
    exact ⟨h, fun hzero => absurd hzero hn⟩

lemma output_magnitude {s : Sign} {n : ℕ} (h : s = .zero → n = 0) :
    output s (magnitude n) = ofInt (s.apply n) := by
  rw [← fromParts_magnitude h]
  simp [output, fromParts]

/-! ## Tests and comparison -/

lemma isZero_ofInt (z : ℤ) : (ofInt z).isZero = decide (z = 0) := by
  unfold isZero ofInt
  by_cases hneg : z < 0
  · simp [hneg, hneg.ne]
  · by_cases hz : z = 0 <;> simp [hneg, hz]

lemma isNegative_ofInt (z : ℤ) : (ofInt z).isNegative = decide (z < 0) := by
  unfold isNegative ofInt
  by_cases hneg : z < 0
  · simp [hneg]
  · by_cases hz : z = 0 <;> simp [hneg, hz]

lemma absCmp_ofInt (x y : ℤ) : (ofInt x).absCmp (ofInt y) = compare x.natAbs y.natAbs :=
  cmpAbsLimbs_magnitude x.natAbs y.natAbs

lemma compare_neg_cast (m n : ℕ) : compare (-(m : ℤ)) (-(n : ℤ)) = compare n m := by
  rcases Nat.lt_trichotomy n m with h | h | h
  · rw [Nat.compare_eq_lt.mpr h]
    exact compare_lt_iff_lt.mpr (by omega)
  · rw [Nat.compare_eq_eq.mpr h]
    exact compare_eq_iff_eq.mpr (by omega)
  · rw [Nat.compare_eq_gt.mpr h]
    exact compare_gt_iff_gt.mpr (by omega)

lemma compare_cast (m n : ℕ) : compare (m : ℤ) (n : ℤ) = compare m n := by
  rcases Nat.lt_trichotomy m n with h | h | h
  · rw [Nat.compare_eq_lt.mpr h]
    exact compare_lt_iff_lt.mpr (by omega)
  · rw [Nat.compare_eq_eq.mpr h]
    exact compare_eq_iff_eq.mpr (by omega)
  · rw [Nat.compare_eq_gt.mpr h]
    exact compare_gt_iff_gt.mpr (by omega)

/-- `cmp` compares the integers. -/
lemma cmp_ofInt (x y : ℤ) : (ofInt x).cmp (ofInt y) = compare x y := by
  obtain ⟨s, m, hs, rfl⟩ := exists_fits x
  obtain ⟨t, n, ht, rfl⟩ := exists_fits y
  rw [ofInt_apply hs, ofInt_apply ht]
  cases s <;> cases t <;>
    simp only [Fits, reduceCtorEq, false_iff, true_iff] at hs ht <;>
    simp only [cmp, Sign.apply, cmpAbsLimbs_magnitude, compare_neg_cast, compare_cast]
  · exact (compare_lt_iff_lt.mpr (by omega)).symm
  · exact (compare_lt_iff_lt.mpr (by omega)).symm
  · exact (compare_gt_iff_gt.mpr (by omega)).symm
  · exact (compare_eq_iff_eq.mpr rfl).symm
  · exact (compare_lt_iff_lt.mpr (by omega)).symm
  · exact (compare_gt_iff_gt.mpr (by omega)).symm
  · exact (compare_gt_iff_gt.mpr (by omega)).symm

/-! ## Addition and subtraction -/

lemma apply_flip (s : Sign) (n : ℕ) : s.flip.apply n = -s.apply n := by
  cases s <;> simp [Sign.flip, Sign.apply]

lemma Fits.flip {s : Sign} {n : ℕ} (h : Fits s n) : Fits s.flip n := by
  cases s <;> simpa [Fits, Sign.flip] using h

lemma negated_ofInt (x : ℤ) : (ofInt x).negated = ofInt (-x) := by
  obtain ⟨s, n, h, rfl⟩ := exists_fits x
  rw [ofInt_apply h, ← apply_flip, ofInt_apply h.flip, negated]

lemma abs_ofInt (x : ℤ) : (ofInt x).abs = ofInt |x| := by
  obtain ⟨s, n, h, rfl⟩ := exists_fits x
  rw [ofInt_apply h]
  cases s with
  | zero =>
    have hn : n = 0 := by simpa [Fits] using h
    simp [LimbInt.abs, isZero, Sign.apply, ofInt_zero]
  | positive =>
    have habs : |Sign.positive.apply n| = Sign.positive.apply n := by simp [Sign.apply]
    rw [habs, ofInt_apply h]
    simp [LimbInt.abs, isZero]
  | negative =>
    have habs : |Sign.negative.apply n| = Sign.positive.apply n := by simp [Sign.apply]
    rw [habs, ofInt_apply (by simpa [Fits] using h)]
    simp [LimbInt.abs, isZero]

/-- A difference of magnitudes under one sign, in place of the first. -/
lemma subMagnitudeAssign_spec {s t : Sign} (hs : s ≠ .zero) (m n : ℕ) :
    subMagnitudeAssign ⟨s, magnitude m⟩ ⟨t, magnitude n⟩ s.flip
      = .ok (ofInt (s.apply m - s.apply n)) := by
  unfold subMagnitudeAssign
  simp only [cmpAbsLimbs_magnitude]
  rcases Nat.lt_trichotomy m n with h | h | h
  · rw [Nat.compare_eq_lt.mpr h]
    have hdiff : s.apply m - s.apply n = s.flip.apply (n - m) := by
      cases s <;> simp only [Sign.apply, Sign.flip] at hs ⊢ <;> omega
    rw [hdiff, ofInt_apply (by cases s <;> simp [Fits, Sign.flip] at hs ⊢ <;> omega)]
    simp only [subAbsLimbs_magnitude h.le, ok_bind, pure_eq]
  · rw [Nat.compare_eq_eq.mpr h, h, sub_self, ofInt_zero, pure_eq]
  · rw [Nat.compare_eq_gt.mpr h]
    have hdiff : s.apply m - s.apply n = s.apply (m - n) := by
      cases s <;> simp only [Sign.apply] at hs ⊢ <;> omega
    rw [hdiff, ofInt_apply (by cases s <;> simp [Fits] at hs ⊢ <;> omega)]
    simp only [subAbsLimbsAssign_magnitude h.le, ok_bind, pure_eq]

/-- A sum of magnitudes under one sign. -/
lemma apply_add (s : Sign) (m n : ℕ) : s.apply (m + n) = s.apply m + s.apply n := by
  cases s <;> simp only [Sign.apply] <;> omega

lemma Fits.add {s : Sign} {m : ℕ} (h : Fits s m) (hs : s ≠ .zero) (n : ℕ) : Fits s (m + n) := by
  have hm : m ≠ 0 := fun hm => hs (h.mpr hm)
  exact ⟨fun hzero => absurd hzero hs, fun hzero => absurd hzero (by omega)⟩

/-- The difference of two magnitudes of opposite signs. -/
lemma differenceOfSigned_spec {p : Sign} (hp : p ≠ .zero) (m n : ℕ) (out : List ℕ) :
    ∃ sign k,
      (match cmpAbsLimbs (magnitude m) (magnitude n) with
        | .gt => do pure (p, ← subAbsLimbsInto (magnitude m) (magnitude n) out)
        | .lt => do pure (p.flip, ← subAbsLimbsInto (magnitude n) (magnitude m) out)
        | .eq => pure (.zero, []) : Run (Sign × List ℕ)) = .ok (sign, magnitude k) ∧
      output sign (magnitude k) = ofInt (p.apply m + p.flip.apply n) := by
  rw [cmpAbsLimbs_magnitude, apply_flip]
  rcases Nat.lt_trichotomy m n with h | h | h
  · refine ⟨p.flip, n - m, ?_, ?_⟩
    · rw [Nat.compare_eq_lt.mpr h, subAbsLimbsInto_magnitude h.le]
      rfl
    · rw [output_magnitude (by cases p <;> simp [Sign.flip] at hp ⊢), apply_flip]
      congr 1
      cases p <;> simp only [Sign.apply] at hp ⊢ <;> omega
  · refine ⟨.zero, 0, ?_, ?_⟩
    · rw [Nat.compare_eq_eq.mpr h, magnitude_zero]
      rfl
    · rw [output_magnitude (fun _ => rfl), h]
      simp [Sign.apply]
  · refine ⟨p, m - n, ?_, ?_⟩
    · rw [Nat.compare_eq_gt.mpr h, subAbsLimbsInto_magnitude h.le]
      rfl
    · rw [output_magnitude (fun hzero => absurd hzero hp)]
      congr 1
      cases p <;> simp only [Sign.apply] at hp ⊢ <;> omega

/-- The sum of two signed magnitudes. -/
lemma combineSignedAbsLimbsInto_spec {s t : Sign} {m n : ℕ} (hs : s = .zero → m = 0)
    (ht : t = .zero → n = 0) (out : List ℕ) :
    ∃ sign k, combineSignedAbsLimbsInto s (magnitude m) t (magnitude n) out
        = .ok (sign, magnitude k) ∧
      output sign (magnitude k) = ofInt (s.apply m + t.apply n) := by
  have hsum : ∀ p : Sign, p ≠ .zero → ∃ sign k,
      (pure (p, addAbsLimbsInto (magnitude m) (magnitude n) out) : Run (Sign × List ℕ))
        = .ok (sign, magnitude k) ∧
      output sign (magnitude k) = ofInt (p.apply m + p.apply n) := by
    intro p hp
    refine ⟨p, m + n, by rw [addAbsLimbsInto_magnitude, pure_eq], ?_⟩
    rw [output_magnitude (fun hzero => absurd hzero hp), apply_add]
  cases s with
  | zero =>
    have hm := hs rfl
    subst hm
    cases t with
    | zero =>
      have hn := ht rfl
      subst hn
      exact ⟨.zero, 0, by simp [combineSignedAbsLimbsInto, pure_eq],
        by rw [output_magnitude (fun _ => rfl)]; rfl⟩
    | positive | negative =>
      refine ⟨_, n, rfl, ?_⟩
      rw [output_magnitude ht]
      simp [Sign.apply]
  | positive =>
    cases t with
    | zero =>
      refine ⟨_, m, rfl, ?_⟩
      rw [output_magnitude hs]
      simp [Sign.apply]
    | positive => exact hsum .positive (by simp)
    | negative => exact differenceOfSigned_spec (show Sign.positive ≠ .zero by simp) m n out
  | negative =>
    cases t with
    | zero =>
      refine ⟨_, m, rfl, ?_⟩
      rw [output_magnitude hs]
      simp [Sign.apply]
    | positive => exact differenceOfSigned_spec (show Sign.negative ≠ .zero by simp) m n out
    | negative => exact hsum .negative (by simp)

/-- `subtract_signed_abs`. -/
lemma subtractSignedAbs_spec (m n : ℕ) :
    subtractSignedAbs (magnitude m) .positive (magnitude n) .negative
      = .ok (ofInt ((m : ℤ) - n)) := by
  unfold subtractSignedAbs
  simp only [cmpAbsLimbs_magnitude]
  rcases Nat.lt_trichotomy m n with h | h | h
  · rw [Nat.compare_eq_lt.mpr h]
    simp only [subAbsLimbs_magnitude h.le, ok_bind, pure_eq]
    rw [fromParts_magnitude (by simp)]
    simp only [Sign.apply]
    congr 2
    omega
  · rw [Nat.compare_eq_eq.mpr h, h, sub_self, ofInt_zero, pure_eq]
  · rw [Nat.compare_eq_gt.mpr h]
    simp only [subAbsLimbs_magnitude h.le, ok_bind, pure_eq]
    rw [fromParts_magnitude (by simp)]
    simp only [Sign.apply]
    congr 2
    omega

/-- `add`. -/
lemma add_ofInt (x y : ℤ) : (ofInt x).add (ofInt y) = .ok (ofInt (x + y)) := by
  obtain ⟨s, m, hs, rfl⟩ := exists_fits x
  obtain ⟨t, n, ht, rfl⟩ := exists_fits y
  rw [ofInt_apply hs, ofInt_apply ht]
  cases s with
  | zero =>
    rw [show Sign.zero.apply m + t.apply n = t.apply n by simp [Sign.apply], ofInt_apply ht]
    cases t <;> rfl
  | positive =>
    cases t with
    | zero =>
      rw [show Sign.positive.apply m + Sign.zero.apply n = Sign.positive.apply m by
        simp [Sign.apply], ofInt_apply hs]
      rfl
    | positive =>
      simp only [LimbInt.add, addAbsLimbs, addAbsLimbsInto_magnitude, pure_eq]
      rw [fromParts_magnitude (by simp), apply_add]
    | negative =>
      simp only [LimbInt.add, subtractSignedAbs_spec]
      congr 2
  | negative =>
    cases t with
    | zero =>
      rw [show Sign.negative.apply m + Sign.zero.apply n = Sign.negative.apply m by
        simp [Sign.apply], ofInt_apply hs]
      rfl
    | positive =>
      simp only [LimbInt.add, subtractSignedAbs_spec, Sign.apply]
      congr 2
      omega
    | negative =>
      simp only [LimbInt.add, addAbsLimbs, addAbsLimbsInto_magnitude, pure_eq]
      rw [fromParts_magnitude (by simp), apply_add]

/-- `add_into`. -/
lemma addInto_ofInt (x y : ℤ) (out : LimbInt) :
    (ofInt x).addInto (ofInt y) out = .ok (ofInt (x + y)) := by
  obtain ⟨s, m, hs, rfl⟩ := exists_fits x
  obtain ⟨t, n, ht, rfl⟩ := exists_fits y
  rw [ofInt_apply hs, ofInt_apply ht]
  obtain ⟨sign, k, hrun, hresult⟩ := combineSignedAbsLimbsInto_spec hs.mp ht.mp out.limbs
  have hsum : ∀ p : Sign, p ≠ .zero →
      output p (addAbsLimbsInto (magnitude m) (magnitude n) out.limbs)
        = ofInt (p.apply m + p.apply n) := by
    intro p hp
    rw [addAbsLimbsInto_magnitude, output_magnitude (fun hzero => absurd hzero hp), apply_add]
  cases s with
  | zero =>
    rw [show Sign.zero.apply m + t.apply n = t.apply n by simp [Sign.apply], ofInt_apply ht]
    cases t <;> rfl
  | positive =>
    cases t with
    | zero =>
      rw [show Sign.positive.apply m + Sign.zero.apply n = Sign.positive.apply m by
        simp [Sign.apply], ofInt_apply hs]
      rfl
    | positive => simp only [addInto, hsum .positive (by simp), pure_eq]
    | negative => simp only [addInto, hrun, ok_bind, hresult, pure_eq]
  | negative =>
    cases t with
    | zero =>
      rw [show Sign.negative.apply m + Sign.zero.apply n = Sign.negative.apply m by
        simp [Sign.apply], ofInt_apply hs]
      rfl
    | positive => simp only [addInto, hrun, ok_bind, hresult, pure_eq]
    | negative => simp only [addInto, hsum .negative (by simp), pure_eq]

/-- `add_assign`. -/
lemma addAssign_ofInt (x y : ℤ) : (ofInt x).addAssign (ofInt y) = .ok (ofInt (x + y)) := by
  obtain ⟨s, m, hs, rfl⟩ := exists_fits x
  obtain ⟨t, n, ht, rfl⟩ := exists_fits y
  rw [ofInt_apply hs, ofInt_apply ht]
  cases s with
  | zero =>
    rw [show Sign.zero.apply m + t.apply n = t.apply n by simp [Sign.apply], ofInt_apply ht]
    cases t <;> rfl
  | positive =>
    cases t with
    | zero =>
      rw [show Sign.positive.apply m + Sign.zero.apply n = Sign.positive.apply m by
        simp [Sign.apply], ofInt_apply hs]
      rfl
    | positive =>
      rw [← apply_add, ofInt_apply (hs.add (by simp) n)]
      simp only [addAssign, addAbsLimbsAssign_magnitude, pure_eq]
    | negative =>
      have hrun := subMagnitudeAssign_spec (s := .positive) (t := .negative) (by simp) m n
      simp only [addAssign]
      exact hrun
  | negative =>
    cases t with
    | zero =>
      rw [show Sign.negative.apply m + Sign.zero.apply n = Sign.negative.apply m by
        simp [Sign.apply], ofInt_apply hs]
      rfl
    | positive =>
      have hrun := subMagnitudeAssign_spec (s := .negative) (t := .positive) (by simp) m n
      rw [show Sign.negative.apply m + Sign.positive.apply n
        = Sign.negative.apply m - Sign.negative.apply n by simp [Sign.apply]]
      exact hrun
    | negative =>
      rw [← apply_add, ofInt_apply (hs.add (by simp) n)]
      simp only [addAssign, addAbsLimbsAssign_magnitude, pure_eq]

/-- `sub_assign`. -/
lemma subAssign_ofInt (x y : ℤ) : (ofInt x).subAssign (ofInt y) = .ok (ofInt (x - y)) := by
  obtain ⟨s, m, hs, rfl⟩ := exists_fits x
  obtain ⟨t, n, ht, rfl⟩ := exists_fits y
  rw [ofInt_apply hs, ofInt_apply ht]
  cases t with
  | zero =>
    rw [show s.apply m - Sign.zero.apply n = s.apply m by simp [Sign.apply], ofInt_apply hs]
    cases s <;> rfl
  | positive =>
    cases s with
    | zero =>
      rw [show Sign.zero.apply m - Sign.positive.apply n = Sign.negative.apply n by
        simp [Sign.apply], ofInt_apply (by simpa [Fits] using ht)]
      rfl
    | positive => exact subMagnitudeAssign_spec (s := .positive) (by simp) m n
    | negative =>
      rw [show Sign.negative.apply m - Sign.positive.apply n = Sign.negative.apply (m + n) by
        simp only [Sign.apply]; omega, ofInt_apply (hs.add (by simp) n)]
      simp only [subAssign, addAbsLimbsAssign_magnitude, pure_eq]
  | negative =>
    cases s with
    | zero =>
      rw [show Sign.zero.apply m - Sign.negative.apply n = Sign.positive.apply n by
        simp [Sign.apply], ofInt_apply (by simpa [Fits] using ht)]
      rfl
    | positive =>
      rw [show Sign.positive.apply m - Sign.negative.apply n = Sign.positive.apply (m + n) by
        simp only [Sign.apply]; omega, ofInt_apply (hs.add (by simp) n)]
      simp only [subAssign, addAbsLimbsAssign_magnitude, pure_eq]
    | negative => exact subMagnitudeAssign_spec (s := .negative) (by simp) m n

/-- The difference of two magnitudes of one sign. -/
lemma subMagnitudesInto_spec {p : Sign} (hp : p ≠ .zero) (m n : ℕ) (out : LimbInt) :
    (match cmpAbsLimbs (magnitude m) (magnitude n) with
      | .gt => do pure ⟨p, ← subAbsLimbsInto (magnitude m) (magnitude n) out.limbs⟩
      | .lt => do pure ⟨p.flip, ← subAbsLimbsInto (magnitude n) (magnitude m) out.limbs⟩
      | .eq => pure zero : Run LimbInt) = .ok (ofInt (p.apply m - p.apply n)) := by
  rw [cmpAbsLimbs_magnitude]
  rcases Nat.lt_trichotomy m n with h | h | h
  · rw [Nat.compare_eq_lt.mpr h, subAbsLimbsInto_magnitude h.le]
    have hdiff : p.apply m - p.apply n = p.flip.apply (n - m) := by
      cases p <;> simp only [Sign.apply, Sign.flip] at hp ⊢ <;> omega
    rw [hdiff, ofInt_apply (by cases p <;> simp [Fits, Sign.flip] at hp ⊢ <;> omega)]
    rfl
  · rw [Nat.compare_eq_eq.mpr h, h, sub_self, ofInt_zero]
    rfl
  · rw [Nat.compare_eq_gt.mpr h, subAbsLimbsInto_magnitude h.le]
    have hdiff : p.apply m - p.apply n = p.apply (m - n) := by
      cases p <;> simp only [Sign.apply] at hp ⊢ <;> omega
    rw [hdiff, ofInt_apply (by cases p <;> simp [Fits] at hp ⊢ <;> omega)]
    rfl

/-- `sub_into`. -/
lemma subInto_ofInt (x y : ℤ) (out : LimbInt) :
    (ofInt x).subInto (ofInt y) out = .ok (ofInt (x - y)) := by
  obtain ⟨s, m, hs, rfl⟩ := exists_fits x
  obtain ⟨t, n, ht, rfl⟩ := exists_fits y
  rw [ofInt_apply hs, ofInt_apply ht]
  cases t with
  | zero =>
    rw [show s.apply m - Sign.zero.apply n = s.apply m by simp [Sign.apply], ofInt_apply hs]
    cases s <;> rfl
  | positive =>
    cases s with
    | zero =>
      rw [show Sign.zero.apply m - Sign.positive.apply n = Sign.negative.apply n by
        simp [Sign.apply], ofInt_apply (by simpa [Fits] using ht)]
      rfl
    | positive => exact subMagnitudesInto_spec (show Sign.positive ≠ .zero by simp) m n out
    | negative =>
      rw [show Sign.negative.apply m - Sign.positive.apply n = Sign.negative.apply (m + n) by
        simp only [Sign.apply]; omega]
      simp only [subInto, addAbsLimbsInto_magnitude, pure_eq]
      rw [output_magnitude (by simp)]
  | negative =>
    cases s with
    | zero =>
      rw [show Sign.zero.apply m - Sign.negative.apply n = Sign.positive.apply n by
        simp [Sign.apply], ofInt_apply (by simpa [Fits] using ht)]
      rfl
    | positive =>
      rw [show Sign.positive.apply m - Sign.negative.apply n = Sign.positive.apply (m + n) by
        simp only [Sign.apply]; omega]
      simp only [subInto, addAbsLimbsInto_magnitude, pure_eq]
      rw [output_magnitude (by simp)]
    | negative => exact subMagnitudesInto_spec (show Sign.negative ≠ .zero by simp) m n out

/-! ## Multiplication -/

lemma apply_ne_zero {s : Sign} {n : ℕ} (h : Fits s n) : s.apply n = 0 ↔ s = .zero := by
  cases s <;> simp only [Fits, Sign.apply, reduceCtorEq, false_iff] at h ⊢ <;> simpa using h

lemma apply_mul_apply {s t : Sign} (hs : s ≠ .zero) (ht : t ≠ .zero) (m n : ℕ) :
    s.apply m * t.apply n = (productSign s t).apply (m * n) := by
  cases s <;> cases t <;> simp [Sign.apply, productSign] at hs ht ⊢

lemma productSign_ne_zero (s t : Sign) : productSign s t ≠ .zero := by
  unfold productSign
  split <;> simp

lemma eq_of_magnitude_eq_singleton {n scalar : ℕ} (h : magnitude n = [scalar]) :
    n = scalar ∧ scalar < base := by
  have hvalue := value_magnitude n
  have hwords := words_magnitude n
  rw [h] at hvalue hwords
  exact ⟨by simpa using hvalue.symm, by simpa using hwords⟩

/-- The product of two magnitudes, by the branch for their lengths. -/
lemma mulMagnitudesInto_magnitude (m n : ℕ) (out : List ℕ) :
    mulMagnitudesInto (magnitude m) (magnitude n) out = .ok (magnitude (m * n)) := by
  unfold mulMagnitudesInto
  split
  · next scalar limbs hm =>
    obtain ⟨rfl, hscalar⟩ := eq_of_magnitude_eq_singleton hm
    rw [mulAbsOneLimbInto_magnitude n hscalar, Nat.mul_comm]
  · next scalar hn _ =>
    obtain ⟨rfl, hscalar⟩ := eq_of_magnitude_eq_singleton hn
    rw [mulAbsOneLimbInto_magnitude m hscalar]
  · exact mulAbsLimbsInto_magnitude m n out

lemma mul_zero_cases {x y : ℤ} :
    ((ofInt x).isZero || (ofInt y).isZero) = true ↔ x = 0 ∨ y = 0 := by
  simp [isZero_ofInt]

/-- `mul_into`. -/
lemma mulInto_ofInt (x y : ℤ) (out : LimbInt) :
    (ofInt x).mulInto (ofInt y) out = .ok (ofInt (x * y)) := by
  unfold mulInto
  by_cases hzero : x = 0 ∨ y = 0
  · rw [if_pos (mul_zero_cases.mpr hzero), mul_eq_zero.mpr hzero, ofInt_zero, pure_eq]
  · rw [if_neg (fun h => hzero (mul_zero_cases.mp h))]
    obtain ⟨hx, hy⟩ := not_or.mp hzero
    obtain ⟨s, m, hs, rfl⟩ := exists_fits x
    obtain ⟨t, n, ht, rfl⟩ := exists_fits y
    rw [apply_ne_zero hs] at hx
    rw [apply_ne_zero ht] at hy
    rw [ofInt_apply hs, ofInt_apply ht, apply_mul_apply hx hy]
    simp only [mulMagnitudesInto_magnitude, ok_bind, pure_eq]
    rw [output_magnitude (fun h => absurd h (productSign_ne_zero s t))]

/-- `mul`. -/
lemma mul_ofInt (x y : ℤ) : (ofInt x).mul (ofInt y) = .ok (ofInt (x * y)) := by
  unfold LimbInt.mul
  by_cases hzero : x = 0 ∨ y = 0
  · rw [if_pos (mul_zero_cases.mpr hzero), mul_eq_zero.mpr hzero, ofInt_zero, pure_eq]
  · rw [if_neg (fun h => hzero (mul_zero_cases.mp h))]
    obtain ⟨hx, hy⟩ := not_or.mp hzero
    obtain ⟨s, m, hs, rfl⟩ := exists_fits x
    obtain ⟨t, n, ht, rfl⟩ := exists_fits y
    rw [apply_ne_zero hs] at hx
    rw [apply_ne_zero ht] at hy
    rw [ofInt_apply hs, ofInt_apply ht, apply_mul_apply hx hy]
    simp only [mulMagnitudesInto_magnitude, ok_bind, pure_eq]
    rw [fromParts_magnitude (fun h => absurd h (productSign_ne_zero s t))]

/-- The values of an `i128`. -/
def IsI128 (k : ℤ) : Prop := -2 ^ 127 ≤ k ∧ k < 2 ^ 127

lemma IsI128.natAbs_lt {k : ℤ} (h : IsI128 k) : k.natAbs < base * base := by
  obtain ⟨hlow, hhigh⟩ := h
  rw [base_eq]
  omega

/-- The sign of a product with a scalar. -/
lemma apply_mul_scalar (s : Sign) (n : ℕ) {k : ℤ} (hk : k ≠ 0) :
    (if k < 0 then s.flip else s).apply (n * k.natAbs) = s.apply n * k := by
  rcases lt_or_gt_of_ne hk with hneg | hpos
  · rw [if_pos hneg, apply_flip]
    have habs : (k.natAbs : ℤ) = -k := by omega
    cases s <;> simp only [Sign.apply, Nat.cast_mul, habs] <;> ring
  · rw [if_neg (by omega)]
    have habs : (k.natAbs : ℤ) = k := by omega
    cases s <;> simp only [Sign.apply, Nat.cast_mul, habs] <;> ring

lemma scaled_ne_zero {s : Sign} (hs : s ≠ .zero) (k : ℤ) :
    (if k < 0 then s.flip else s) ≠ .zero := by
  cases s <;> simp [Sign.flip] at hs ⊢ <;> split <;> simp

lemma mul_scalar_zero_cases {x k : ℤ} :
    ((ofInt x).isZero || decide (k = 0)) = true ↔ x = 0 ∨ k = 0 := by
  simp [isZero_ofInt]

/-- `mul_i128_into`. -/
lemma mulI128Into_ofInt (x : ℤ) {k : ℤ} (hk : IsI128 k) (out : LimbInt) :
    (ofInt x).mulI128Into k out = .ok (ofInt (x * k)) := by
  unfold mulI128Into
  by_cases hzero : x = 0 ∨ k = 0
  · rw [if_pos (mul_scalar_zero_cases.mpr hzero), mul_eq_zero.mpr hzero, ofInt_zero, pure_eq]
  · rw [if_neg (fun h => hzero (mul_scalar_zero_cases.mp h))]
    obtain ⟨hx, hk0⟩ := not_or.mp hzero
    obtain ⟨s, n, hs, rfl⟩ := exists_fits x
    rw [apply_ne_zero hs] at hx
    rw [ofInt_apply hs]
    simp only [mulAbsSmallInto_magnitude n hk.natAbs_lt, ok_bind, pure_eq]
    rw [output_magnitude (fun h => absurd h (scaled_ne_zero hx k)), apply_mul_scalar s n hk0]

/-- `mul_i128`. -/
lemma mulI128_ofInt (x : ℤ) {k : ℤ} (hk : IsI128 k) :
    (ofInt x).mulI128 k = .ok (ofInt (x * k)) := by
  unfold mulI128
  by_cases hzero : x = 0 ∨ k = 0
  · rw [if_pos (mul_scalar_zero_cases.mpr hzero), mul_eq_zero.mpr hzero, ofInt_zero, pure_eq]
  · rw [if_neg (fun h => hzero (mul_scalar_zero_cases.mp h))]
    obtain ⟨hx, hk0⟩ := not_or.mp hzero
    by_cases hone : k = 1
    · rw [if_pos hone, hone, mul_one, pure_eq]
    · by_cases hneg : k = -1
      · rw [if_neg hone, if_pos hneg, hneg, mul_neg_one, negated_ofInt, pure_eq]
      · obtain ⟨s, n, hs, rfl⟩ := exists_fits x
        rw [apply_ne_zero hs] at hx
        rw [if_neg hone, if_neg hneg, ofInt_apply hs]
        simp only [mulAbsSmall_magnitude n hk.natAbs_lt, ok_bind, pure_eq]
        rw [fromParts_magnitude (fun h => absurd h (scaled_ne_zero hx k)),
          apply_mul_scalar s n hk0]

lemma apply_signedScalarSign (s : Sign) (n : ℕ) {k : ℤ} (hk : k ≠ 0) :
    (signedScalarSign s k).apply (n * k.natAbs) = s.apply n * k := by
  rw [← apply_mul_scalar s n hk]
  unfold signedScalarSign
  by_cases hs : s = .zero
  · subst hs
    simp [Sign.apply, Sign.flip]
  · rw [if_neg (by simp [hk, hs])]

lemma signedScalarSign_zero {s : Sign} {n : ℕ} (h : Fits s n) (k : ℤ) (hk : k ≠ 0) :
    signedScalarSign s k = .zero → n = 0 := by
  intro hzero
  apply h.mp
  by_contra hs
  unfold signedScalarSign at hzero
  rw [if_neg (by simp [hk, hs])] at hzero
  exact scaled_ne_zero hs k hzero

/-- `linear_combination_i128_into`. -/
lemma linearCombinationI128Into_ofInt (x y : ℤ) {j k : ℤ} (hj : IsI128 j) (hk : IsI128 k)
    (out : LimbInt) (scratch : LimbScratch) :
    ∃ after, linearCombinationI128Into (ofInt x) j (ofInt y) k out scratch
      = .ok (ofInt (x * j + y * k), after) := by
  unfold linearCombinationI128Into
  by_cases hboth : j = 0 ∧ k = 0
  · exact ⟨scratch, by rw [if_pos hboth]; simp [hboth, ofInt_zero, pure_eq]⟩
  · rw [if_neg hboth]
    by_cases hj0 : j = 0
    · exact ⟨scratch, by
        rw [if_pos hj0, mulI128Into_ofInt y hk, hj0, mul_zero, zero_add]
        rfl⟩
    · rw [if_neg hj0]
      by_cases hk0 : k = 0
      · exact ⟨scratch, by
          rw [if_pos hk0, mulI128Into_ofInt x hj, hk0, mul_zero, add_zero]
          rfl⟩
      · rw [if_neg hk0]
        obtain ⟨s, m, hs, rfl⟩ := exists_fits x
        obtain ⟨t, n, ht, rfl⟩ := exists_fits y
        rw [ofInt_apply hs, ofInt_apply ht]
        -- the signed sum of the scaled magnitudes
        have hcombine : ∀ p q, p = m * j.natAbs → q = n * k.natAbs → ∃ sign r,
            combineSignedAbsLimbsInto (signedScalarSign s j) (magnitude p) (signedScalarSign t k)
                (magnitude q) out.limbs = .ok (sign, magnitude r) ∧
              output sign (magnitude r) = ofInt (s.apply m * j + t.apply n * k) := by
          rintro p q rfl rfl
          obtain ⟨sign, r, hrun, hresult⟩ := combineSignedAbsLimbsInto_spec
            (s := signedScalarSign s j) (t := signedScalarSign t k) (m := m * j.natAbs)
            (n := n * k.natAbs)
            (fun h => by rw [signedScalarSign_zero hs j hj0 h, Nat.zero_mul])
            (fun h => by rw [signedScalarSign_zero ht k hk0 h, Nat.zero_mul]) out.limbs
          rw [apply_signedScalarSign s m hj0, apply_signedScalarSign t n hk0] at hresult
          exact ⟨sign, r, hrun, hresult⟩
        have hjone : j.natAbs = 1 → m = m * j.natAbs := fun h => by rw [h, Nat.mul_one]
        have hkone : k.natAbs = 1 → n = n * k.natAbs := fun h => by rw [h, Nat.mul_one]
        by_cases hones : j.natAbs = 1 ∧ k.natAbs = 1
        · obtain ⟨sign, r, hrun, hresult⟩ := hcombine m n (hjone hones.1) (hkone hones.2)
          exact ⟨_, by simp only [if_pos hones, hrun, ok_bind, hresult, pure_eq]; rfl⟩
        · by_cases hleft : j.natAbs = 1
          · obtain ⟨sign, r, hrun, hresult⟩ := hcombine m _ (hjone hleft) rfl
            exact ⟨_, by simp only [if_neg hones, if_pos hleft,
              mulAbsSmallInto_magnitude n hk.natAbs_lt, hrun, ok_bind, hresult, pure_eq]; rfl⟩
          · by_cases hright : k.natAbs = 1
            · obtain ⟨sign, r, hrun, hresult⟩ := hcombine _ n rfl (hkone hright)
              exact ⟨_, by simp only [if_neg hones, if_neg hleft, if_pos hright,
                mulAbsSmallInto_magnitude m hj.natAbs_lt, hrun, ok_bind, hresult, pure_eq]; rfl⟩
            · obtain ⟨sign, r, hrun, hresult⟩ := hcombine _ _ rfl rfl
              exact ⟨_, by simp only [if_neg hones, if_neg hleft, if_neg hright,
                mulAbsSmallInto_magnitude m hj.natAbs_lt, mulAbsSmallInto_magnitude n hk.natAbs_lt,
                hrun, ok_bind, hresult, pure_eq]; rfl⟩

/-- `square`. -/
lemma square_ofInt (x : ℤ) : (ofInt x).square = .ok (ofInt (x * x)) := by
  unfold square
  rw [isZero_ofInt]
  by_cases hx : x = 0
  · simp [hx, ofInt_zero, pure_eq]
  · rw [if_neg (by simpa using hx)]
    have habs : x * x = Sign.positive.apply (x.natAbs * x.natAbs) := by
      simp only [Sign.apply]
      exact Int.natAbs_mul_self.symm
    simp only [ofInt, squareAbsLimbs_magnitude, ok_bind, pure_eq]
    rw [fromParts_magnitude (by simp), ← habs]
    rfl

/-- `square_into`. -/
lemma squareInto_ofInt (x : ℤ) (out : LimbInt) :
    (ofInt x).squareInto out = .ok (ofInt (x * x)) := by
  unfold squareInto
  rw [isZero_ofInt]
  by_cases hx : x = 0
  · simp [hx, ofInt_zero, pure_eq]
  · rw [if_neg (by simpa using hx)]
    have habs : x * x = Sign.positive.apply (x.natAbs * x.natAbs) := by
      simp only [Sign.apply]
      exact Int.natAbs_mul_self.symm
    simp only [ofInt, mulAbsLimbsInto_magnitude, ok_bind, pure_eq]
    rw [output_magnitude (by simp), ← habs]
    rfl

/-! ## Shifts -/

lemma apply_mul_pow (s : Sign) (n bits : ℕ) : s.apply (n * 2 ^ bits) = s.apply n * 2 ^ bits := by
  cases s <;> simp [Sign.apply]

lemma Fits.mul_pow {s : Sign} {n : ℕ} (h : Fits s n) (bits : ℕ) : Fits s (n * 2 ^ bits) := by
  unfold Fits at *
  rw [h]
  simp

/-- `shl_bits`. -/
lemma shlBits_ofInt (x : ℤ) (bits : ℕ) : (ofInt x).shlBits bits = ofInt (x * 2 ^ bits) := by
  unfold shlBits
  obtain ⟨s, n, hs, rfl⟩ := exists_fits x
  rw [← apply_mul_pow, ofInt_apply (hs.mul_pow bits), ofInt_apply hs]
  split
  · next h =>
    rcases Bool.or_eq_true_iff.mp h with hzero | hbits
    · have hzero : s = .zero := by simpa [isZero] using hzero
      rw [hs.mp hzero, Nat.zero_mul]
    · rw [decide_eq_true_iff.mp hbits, pow_zero, Nat.mul_one]
  · rw [shlAbsLimbs_magnitude, fromParts_magnitude (hs.mul_pow bits).mp,
      ofInt_apply (hs.mul_pow bits)]

/-- `shl_bits_into`. -/
lemma shlBitsInto_ofInt (x : ℤ) (bits : ℕ) (out : LimbInt) :
    (ofInt x).shlBitsInto bits out = ofInt (x * 2 ^ bits) := by
  unfold shlBitsInto
  rw [isZero_ofInt]
  by_cases hx : x = 0
  · simp [hx, ofInt_zero]
  · rw [if_neg (by simpa using hx)]
    obtain ⟨s, n, hs, rfl⟩ := exists_fits x
    by_cases hbits : bits = 0
    · rw [if_pos hbits, hbits, pow_zero, mul_one]
    · rw [if_neg hbits, ← apply_mul_pow, ofInt_apply hs]
      simp only [shlAbsLimbsInto_magnitude]
      rw [output_magnitude (hs.mul_pow bits).mp]

/-- `shl_bits_assign`. -/
lemma shlBitsAssign_ofInt (x : ℤ) (bits : ℕ) :
    (ofInt x).shlBitsAssign bits = .ok (ofInt (x * 2 ^ bits)) := by
  unfold shlBitsAssign
  obtain ⟨s, n, hs, rfl⟩ := exists_fits x
  rw [← apply_mul_pow, ofInt_apply (hs.mul_pow bits), ofInt_apply hs]
  split
  · next h =>
    rcases Bool.or_eq_true_iff.mp h with hzero | hbits
    · have hzero : s = .zero := by simpa [isZero] using hzero
      rw [hs.mp hzero, Nat.zero_mul, pure_eq]
    · rw [decide_eq_true_iff.mp hbits, pow_zero, Nat.mul_one, pure_eq]
  · simp only [shlAbsLimbsAssign_magnitude, ok_bind, pure_eq]

/-- `shl_bits_owned`. -/
lemma shlBitsOwned_ofInt (x : ℤ) (bits : ℕ) :
    (ofInt x).shlBitsOwned bits = .ok (ofInt (x * 2 ^ bits)) := shlBitsAssign_ofInt x bits

/-- `shr_abs_bits`. -/
lemma shrAbsBits_ofInt (x : ℤ) (bits : ℕ) :
    (ofInt x).shrAbsBits bits = ofInt (x.natAbs / 2 ^ bits : ℕ) := by
  unfold shrAbsBits
  rw [isZero_ofInt, abs_ofInt]
  split
  · next h =>
    rcases Bool.or_eq_true_iff.mp h with hzero | hbits
    · rw [decide_eq_true_iff.mp hzero]
      simp
    · rw [decide_eq_true_iff.mp hbits, pow_zero, Nat.div_one, Int.natCast_natAbs]
  · simp only [ofInt, shrAbsLimbs_magnitude]
    rw [fromParts_magnitude (by simp)]
    rfl

/-- `div2_exact`, whose operand is even. -/
lemma div2Exact_ofInt (x : ℤ) :
    (ofInt x).div2Exact = if x % 2 = 0 then .ok (ofInt (x / 2)) else .error .assertion := by
  obtain ⟨s, n, hs, rfl⟩ := exists_fits x
  have hparity : s.apply n % 2 = 0 ↔ n % 2 = 0 := by
    cases s with
    | zero =>
      have hn := hs.mp rfl
      subst hn
      simp [Sign.apply]
    | positive =>
      simp only [Sign.apply]
      omega
    | negative =>
      simp only [Sign.apply]
      omega
  have hlow : (magnitude n).headD 0 % 2 = n % 2 := by
    rw [headD_eq_value_mod (words_magnitude n), value_magnitude, base_eq]
    omega
  rw [ofInt_apply hs]
  simp only [div2Exact, hlow, Outcome.bailIf, shrAbsLimbs_magnitude, pow_one]
  by_cases heven : n % 2 = 0
  · have hhalf : s.apply (n / 2) = s.apply n / 2 := by
      cases s <;> simp only [Sign.apply] <;> omega
    rw [if_neg (not_not.mpr heven), if_pos (hparity.mpr heven), ok_bind, ← hhalf]
    by_cases hzero : s = .zero
    · have hn := hs.mp hzero
      subst hn hzero
      simp [isZero, Sign.apply, ofInt_zero, pure_eq]
    · rw [if_neg (by simpa [isZero] using hzero), pure_eq,
        fromParts_magnitude (fun h => absurd h hzero)]
  · rw [if_pos heven, if_neg (fun h => heven (hparity.mp h))]
    rfl

end LimbInt

end Vdf

end Iuna
