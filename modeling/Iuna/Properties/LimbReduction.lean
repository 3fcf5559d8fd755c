import Iuna.Properties.Composition
import Iuna.Properties.FormReduction

/-!
# Reduction in limbs

A turn of the reducer on limbs is a turn on integers, or the fault of its division by `2 c`.  In
terms of the form alone a turn is a step of the classical reduction of Gauss (`GaussStep`).  So the
reducer on limbs ends with the reduced form of the class exactly if no form of that sequence is
skewed where it ends, and none has a division that faults (`limb_reduction_canonical`).
-/

namespace Iuna

namespace Vdf

open LimbInt Fueled Relation

/-! ## Turns -/

/-- A step of the reduction of Gauss: a form with a large middle coefficient is followed by the
form of the same discriminant whose middle coefficient is opposite modulo `2 c` and the least. -/
structure GaussStep (form next : BinaryForm) : Prop where
  unfinished : form.a < |form.b| ∨ form.c < |form.b|
  first : next.a = form.c
  middle : 2 * form.c ∣ next.b + form.b
  low : -form.c < next.b
  high : next.b ≤ form.c
  disc : next.disc = form.disc

lemma gaussStep_reduceOnce {form : BinaryForm} (definite : form.PosDef)
    (unfinished : form.a < |form.b| ∨ form.c < |form.b|) : GaussStep form (reduceOnce form) := by
  have hdisc := (equivalent_reduceOnce definite.last_pos).disc_eq
  obtain ⟨s, hs, hlow, hhigh⟩ := reduceOnce_spec definite.last_pos
  rw [hs] at hdisc ⊢
  exact ⟨unfinished, rfl, ⟨s, by ring⟩, hlow, hhigh, hdisc⟩

/-- There is one such form. -/
lemma GaussStep.unique {form next next' : BinaryForm} (definite : form.PosDef)
    (step : GaussStep form next) (step' : GaussStep form next') : next = next' := by
  have hc := definite.last_pos
  have hmiddle : next.b = next'.b := by
    obtain ⟨k, hk⟩ := step.middle
    obtain ⟨k', hk'⟩ := step'.middle
    exact BinaryForm.middle_eq step'.low step'.high step.low step.high
      (show next.b = next'.b + 2 * form.c * (k - k') by linarith)
  exact BinaryForm.eq_of_disc (by rw [step'.first]; exact hc) (by rw [step.first, step'.first])
    hmiddle (by rw [step.disc, step'.disc])

lemma gaussStep_iff_turn {form next : BinaryForm} (definite : form.PosDef) :
    GaussStep form next ↔ Turn form next := by
  rw [Turn, finishIfReduced_eq_none definite]
  constructor
  · intro step
    exact ⟨step.unfinished,
      step.unique definite (gaussStep_reduceOnce definite step.unfinished)⟩
  · rintro ⟨unfinished, rfl⟩
    exact gaussStep_reduceOnce definite unfinished

/-- The loop passes through the forms of the reduction of Gauss. -/
lemma gaussSteps_iff_turns {form passed : BinaryForm} (definite : form.PosDef) :
    ReflTransGen GaussStep form passed ↔ ReflTransGen Turn form passed := by
  constructor
  · intro steps
    induction steps with
    | refl => exact .refl
    | tail _ step ih =>
      have hlast := definite.of_equivalent (equivalent_of_turns definite ih)
      exact ih.tail ((gaussStep_iff_turn hlast).mp step)
  · intro turns
    induction turns with
    | refl => exact .refl
    | tail turns turn ih =>
      have hlast := definite.of_equivalent (equivalent_of_turns definite turns)
      exact ih.tail ((gaussStep_iff_turn hlast).mpr turn)

/-! ## One turn on limbs -/

lemma absCmp_eq_lt (x y : ℤ) : (ofInt x).absCmp (ofInt y) = .lt ↔ |x| < |y| := by
  rw [absCmp_ofInt, Nat.compare_eq_lt, Int.abs_eq_natAbs, Int.abs_eq_natAbs, Int.ofNat_lt]

lemma absCmp_eq_gt (x y : ℤ) : (ofInt x).absCmp (ofInt y) = .gt ↔ |y| < |x| := by
  rw [absCmp_ofInt, Nat.compare_eq_gt, Int.abs_eq_natAbs, Int.abs_eq_natAbs, Int.ofNat_lt]

lemma absCmpDouble_ofInt (x : ℤ) {y : ℤ} (hy : y ≠ 0) :
    (ofInt x).absCmpDouble (ofInt y) = .ok (compare x.natAbs (2 * y.natAbs)) := by
  rw [absCmpDouble, limbs_ofInt, limbs_ofInt,
    cmpAbsToDouble_magnitude _ (Int.natAbs_ne_zero.mpr hy)]

namespace FormLimbs

lemma finishIfReduced_ofForm (form : BinaryForm) :
    (ofForm form).finishIfReduced = (Vdf.finishIfReduced form).map ofForm := by
  simp only [finishIfReduced, Vdf.finishIfReduced, ofForm, absCmp_eq_lt, cmp_ofInt,
    isNegative_ofInt, negated_ofInt, gt_iff_lt]
  split
  · rfl
  · rcases lt_trichotomy form.a form.c with hlt | heq | hgt
    · rw [compare_lt_iff_lt.mpr hlt]
      simp [hlt.not_gt, hlt.ne, ofForm]
    · rw [compare_eq_iff_eq.mpr heq]
      by_cases hneg : form.b < 0 <;> simp [heq, hneg, ofForm]
    · rw [compare_gt_iff_gt.mpr hgt, if_pos hgt]
      rfl

/-- The division by `2 c` faults. -/
def Faults (form : BinaryForm) : Prop := GuessTooLarge (form.b + form.c) (2 * form.c)

lemma Faults.large {form : BinaryForm} (positive : 0 < form.c) (faults : Faults form) :
    2 * (2 * form.c) ≤ |form.b + form.c| := by
  have hle := guessTooLarge_le (by omega) faults
  rw [Int.abs_eq_natAbs]
  omega

lemma not_faults_of_one_limb {form : BinaryForm} (positive : 0 < form.c)
    (short : 2 * form.c < base) : ¬ Faults form := by
  have hlimb : (magnitude (2 * form.c).natAbs).length = 1 := by
    rw [magnitude_of_lt (by omega) (by omega)]
    rfl
  rw [Faults, GuessTooLarge, firstGuessTooLarge_of_one_limb hlimb]
  exact Bool.false_ne_true

lemma shiftBy_ofForm (form : BinaryForm) (work0 : ℤ) {modulus : ℤ} (hmodulus : modulus ≠ 0)
    (scratch : LimbScratch) :
    (ofForm form).shiftBy (ofInt work0) (ofInt modulus) scratch =
      if GuessTooLarge work0 modulus then .error .indexOutOfRange
      else .ok (ofForm ⟨form.c,
        form.c * work0.fdiv modulus + (form.c * work0.fdiv modulus - form.b),
        form.a + work0.fdiv modulus * (form.c * work0.fdiv modulus - form.b)⟩) := by
  have hdivision := divFloorWithScratch_ofInt work0 hmodulus scratch
  split at hdivision
  · rename_i hlarge
    rw [if_pos hlarge, shiftBy, hdivision]
    rfl
  · rename_i hsmall
    obtain ⟨after, hdivision⟩ := hdivision
    rw [if_neg hsmall, shiftBy, hdivision]
    simp only [ofForm, ok_bind, mulInto_ofInt, subInto_ofInt, addAssign_ofInt]
    rfl

/-- One turn of the loop, branch by branch: only the last one divides. -/
lemma reduceOnce_ofForm {form : BinaryForm} (positive : 0 < form.c) (scratch : LimbScratch) :
    (ofForm form).reduceOnce scratch =
      if GuessTooLarge (form.b + form.c) (2 * form.c) then .error .indexOutOfRange
      else .ok (ofForm (Vdf.reduceOnce form)) := by
  have hmodulus : (2 * form.c) ≠ 0 := by omega
  have hsmall (hless : |form.b + form.c| < 2 * |2 * form.c|) :
      ¬ GuessTooLarge (form.b + form.c) (2 * form.c) := by
    intro hlarge
    have hle := Faults.large positive hlarge
    rw [abs_of_pos (by omega : 0 < 2 * form.c)] at hless
    omega
  have hpositive : 0 < |2 * form.c| := abs_pos.mpr hmodulus
  have hshift : (ofForm form).c.shlBitsInto 1 .zero = ofInt (2 * form.c) := by
    simp only [ofForm, shlBitsInto_ofInt, pow_one, mul_comm]
  have hsum : (ofForm form).b.addInto (ofForm form).c .zero = .ok (ofInt (form.b + form.c)) :=
    addInto_ofInt _ _ _
  simp only [reduceOnce, hshift, hsum, ok_bind, isZero_ofInt, isNegative_ofInt,
    absCmp_eq_lt, absCmp_eq_gt, absCmpDouble_ofInt _ hmodulus, Vdf.reduceOnce, ne_eq,
    decide_eq_true_eq, Bool.not_eq_true', decide_eq_false_iff_not, gt_iff_lt]
  split
  · rename_i hreverse
    have hless : |form.b + form.c| < 2 * |2 * form.c| := by
      rcases hreverse with hzero | ⟨-, hless⟩
      · rw [hzero, abs_zero]
        omega
      · omega
    rw [if_neg (hsmall hless)]
    simp only [reverse, ofForm, negated_ofInt]
    rfl
  · by_cases hneg : form.b + form.c < 0
    · simp only [hneg, true_and, not_true_eq_false, false_and, if_true, if_false]
      split
      · rename_i hbelow
        rw [if_neg (hsmall (by omega))]
        simp only [shiftUp, hshift]
        simp only [ofForm, addAssign_ofInt, addInto_ofInt, negated_ofInt, ok_bind]
        rfl
      · exact shiftBy_ofForm form _ hmodulus scratch
    · have hdouble : compare (form.b + form.c).natAbs (2 * (2 * form.c).natAbs) = .lt ↔
          |form.b + form.c| < 2 * |2 * form.c| := by
        rw [Nat.compare_eq_lt, Int.abs_eq_natAbs, Int.abs_eq_natAbs]
        omega
      simp only [hneg, false_and, not_false_eq_true, true_and, if_false, hdouble]
      split
      · rename_i hless
        rw [if_neg (hsmall hless)]
        simp only [shiftDown, hshift]
        simp only [ofForm, subAssign_ofInt, subInto_ofInt, addAssign_ofInt, ok_bind]
        rfl
      · exact shiftBy_ofForm form _ hmodulus scratch

/-! ## The loop on limbs -/

lemma reduceWithScratch_finished (scratch : LimbScratch) {form result : BinaryForm}
    (finished : Vdf.finishIfReduced form = some result) (fuel : ℕ) :
    (ofForm form).reduceWithScratch scratch (fuel + 1)
      = ExceptT.mk (some (.ok (ofForm result))) := by
  rw [reduceWithScratch, finishIfReduced_ofForm, finished]
  rfl

/-- Without a faulting division the loop on limbs returns what the loop on integers returns. -/
lemma reduceWithScratch_returns (scratch : LimbScratch) {turns : ℕ} {form result : BinaryForm}
    (definite : form.PosDef) (returned : Vdf.reduceWithScratch turns form = some result)
    (smooth : ∀ passed, ReflTransGen Turn form passed → ¬ Faults passed) {fuel : ℕ}
    (enough : turns ≤ fuel) :
    (ofForm form).reduceWithScratch scratch fuel = ExceptT.mk (some (.ok (ofForm result))) := by
  induction turns generalizing form fuel with
  | zero => simp [Vdf.reduceWithScratch] at returned
  | succ turns ih =>
    obtain ⟨fuel, rfl⟩ : ∃ k, fuel = k + 1 := ⟨fuel - 1, by omega⟩
    rw [Vdf.reduceWithScratch] at returned
    cases hfinish : Vdf.finishIfReduced form with
    | some reduced =>
      rw [hfinish] at returned
      rw [reduceWithScratch_finished scratch hfinish, ← Option.some.inj returned]
    | none =>
      rw [hfinish] at returned
      have hnext := definite.of_equivalent (equivalent_reduceOnce definite.last_pos)
      have honce : (ofForm form).reduceOnce scratch = .ok (ofForm (Vdf.reduceOnce form)) := by
        rw [reduceOnce_ofForm definite.last_pos]
        exact if_neg (smooth form .refl)
      rw [← ih hnext returned (fun passed turns => smooth passed (.head ⟨hfinish, rfl⟩ turns))
        (by omega : turns ≤ fuel), reduceWithScratch, finishIfReduced_ofForm, hfinish, honce]
      rfl

/-- The loop on limbs fails at the first form with a faulting division. -/
lemma reduceWithScratch_faults (scratch : LimbScratch) {form passed : BinaryForm}
    (definite : form.PosDef) (turns : ReflTransGen Turn form passed) (faults : Faults passed) :
    ∃ enough, ∀ fuel, enough ≤ fuel →
      (ofForm form).reduceWithScratch scratch fuel
        = ExceptT.mk (some (.error .indexOutOfRange)) := by
  -- a form whose division faults is not finished
  have hnow {form : BinaryForm} (definite : form.PosDef) (faults : Faults form) (fuel : ℕ) :
      (ofForm form).reduceWithScratch scratch (fuel + 1)
        = ExceptT.mk (some (.error .indexOutOfRange)) := by
    have hfinish : Vdf.finishIfReduced form = none := by
      rw [finishIfReduced_eq_none definite]
      have hlarge := Faults.large definite.last_pos faults
      have hsum := abs_add_le form.b form.c
      rw [abs_of_pos definite.last_pos] at hsum
      have hc := definite.last_pos
      omega
    rw [reduceWithScratch, finishIfReduced_ofForm, hfinish]
    simp only [Option.map_none, reduceOnce_ofForm definite.last_pos]
    rw [if_pos (show GuessTooLarge (form.b + form.c) (2 * form.c) from faults)]
    rfl
  induction turns using ReflTransGen.head_induction_on with
  | refl =>
    refine ⟨1, fun fuel hfuel => ?_⟩
    obtain ⟨fuel, rfl⟩ : ∃ k, fuel = k + 1 := ⟨fuel - 1, by omega⟩
    exact hnow definite faults fuel
  | @head form next turn rest ih =>
    by_cases hfaults : Faults form
    · refine ⟨1, fun fuel hfuel => ?_⟩
      obtain ⟨fuel, rfl⟩ : ∃ k, fuel = k + 1 := ⟨fuel - 1, by omega⟩
      exact hnow definite hfaults fuel
    · obtain ⟨hfinish, rfl⟩ := turn
      obtain ⟨enough, hrun⟩ :=
        ih (definite.of_equivalent (equivalent_reduceOnce definite.last_pos))
      refine ⟨enough + 1, fun fuel hfuel => ?_⟩
      obtain ⟨fuel, rfl⟩ : ∃ k, fuel = k + 1 := ⟨fuel - 1, by omega⟩
      have honce : (ofForm form).reduceOnce scratch = .ok (ofForm (Vdf.reduceOnce form)) := by
        rw [reduceOnce_ofForm definite.last_pos]
        exact if_neg hfaults
      rw [← hrun fuel (by omega), reduceWithScratch, finishIfReduced_ofForm, hfinish, honce]
      rfl

/-- The loop on limbs comes to what the loop on integers comes to. -/
lemma reduceWithScratch_settles (scratch : LimbScratch) {turns : ℕ} {form result : BinaryForm}
    (definite : form.PosDef) (returned : Vdf.reduceWithScratch turns form = some result) :
    Settles Overrun (fun reduced => reduced = ofForm result) fun fuel =>
      (ofForm form).reduceWithScratch scratch fuel := by
  by_cases smooth : ∀ passed, ReflTransGen Turn form passed → ¬ Faults passed
  · exact .of_bound (.ok (ofForm result)) rfl turns fun fuel hfuel =>
      reduceWithScratch_returns scratch definite returned smooth hfuel
  · simp only [not_forall, not_not] at smooth
    obtain ⟨passed, hturns, faults⟩ := smooth
    obtain ⟨enough, hrun⟩ := reduceWithScratch_faults scratch definite hturns faults
    exact .of_bound (.error .indexOutOfRange) rfl enough hrun

end FormLimbs

/-! ## The reduced form -/

lemma FormLimbs.ofForm_inj {form other : BinaryForm} :
    FormLimbs.ofForm form = FormLimbs.ofForm other ↔ form = other := by
  simp only [FormLimbs.ofForm, FormLimbs.mk.injEq, ofInt_inj, BinaryForm.ext_iff]

/-- The loop on limbs ends with the one reduced form of the class, of the same discriminant. -/
def LimbsReduceCanonically (scratch : LimbScratch) (form : BinaryForm) : Prop :=
  ∃ result : BinaryForm, result.Reduced ∧ result.disc = form.disc ∧ form.Equivalent result
    ∧ (∀ other : BinaryForm, other.Reduced → form.Equivalent other → other = result)
    ∧ ∃ enough, ∀ fuel, enough ≤ fuel →
      (FormLimbs.ofForm form).reduceWithScratch scratch fuel
        = ExceptT.mk (some (.ok (.ofForm result)))

/-- **Reduction.** The reducer ends with the reduced form of its input's class just when no form of
the reduction of Gauss is skewed or has a faulting division. -/
theorem limb_reduction_canonical (form : BinaryForm) (definite : form.PosDef)
    (scratch : LimbScratch) :
    LimbsReduceCanonically scratch form ↔ ∀ passed, ReflTransGen GaussStep form passed →
      ¬ Skewed passed ∧ ¬ FormLimbs.Faults passed := by
  simp only [gaussSteps_iff_turns definite]
  constructor
  · rintro ⟨result, reduced, hdisc, hequivalent, hunique, enough, hrun⟩
    have smooth : ∀ passed, ReflTransGen Turn form passed → ¬ FormLimbs.Faults passed := by
      intro passed turns faults
      obtain ⟨enough', hfault⟩ :=
        FormLimbs.reduceWithScratch_faults scratch definite turns faults
      have hboth := (hrun _ (le_max_left enough enough')).symm.trans
        (hfault _ (le_max_right enough enough'))
      cases hboth
    obtain ⟨turns, left, returned, -⟩ := reduceWithScratch_terminates definite
    have hleft := FormLimbs.reduceWithScratch_returns scratch definite returned smooth
      (le_max_left turns enough)
    rw [hrun _ (le_max_right turns enough)] at hleft
    have hsame : FormLimbs.ofForm result = .ofForm left := by
      injection hleft with h
      injection h
    rw [FormLimbs.ofForm_inj] at hsame
    subst hsame
    have straight := (reduction_canonical form definite).mp
      ⟨turns, result, returned, reduced, hdisc, hequivalent, hunique⟩
    exact fun passed hturns => ⟨straight passed hturns, smooth passed hturns⟩
  · intro h
    obtain ⟨turns, result, returned, reduced, hdisc, hequivalent, hunique⟩ :=
      (reduction_canonical form definite).mpr fun passed hturns => (h passed hturns).1
    exact ⟨result, reduced, hdisc, hequivalent, hunique, turns, fun fuel hfuel =>
      FormLimbs.reduceWithScratch_returns scratch definite returned
        (fun passed hturns => (h passed hturns).2) hfuel⟩

/-- A form of discriminant `-3` whose one turn divides. -/
theorem limb_reduction_canonical_divides : LimbsReduceCanonically .default ⟨13, 7, 1⟩ := by
  rw [limb_reduction_canonical _ (by decide)]
  intro passed steps
  rw [gaussSteps_iff_turns (by decide)] at steps
  rcases steps.cases_head with rfl | ⟨next, turn, steps⟩
  · exact ⟨by decide, FormLimbs.not_faults_of_one_limb (by decide) (by decide)⟩
  obtain rfl : next = ⟨1, 1, 1⟩ := turn.2.trans (by decide)
  rcases steps.cases_head with rfl | ⟨next, turn, -⟩
  · exact ⟨by decide, FormLimbs.not_faults_of_one_limb (by decide) (by decide)⟩
  · exact absurd turn.1 (by decide)

/-- Two forms of discriminant `-7` in the class of the identity: the loop returns the identity for
one of them, and for the other a form that `is_identity` does not know. -/
theorem limb_reduction_canonical_ne :
    (FormLimbs.ofForm ⟨2, -1, 1⟩).reduceWithScratch .default 1
        = ExceptT.mk (some (.ok (.ofForm ⟨1, 1, 2⟩)))
      ∧ (FormLimbs.ofForm ⟨2, 1, 1⟩).reduceWithScratch .default 1
        = ExceptT.mk (some (.ok (.ofForm ⟨1, -1, 2⟩)))
      ∧ BinaryForm.Equivalent ⟨2, 1, 1⟩ ⟨2, -1, 1⟩
      ∧ (FormLimbs.ofForm ⟨1, 1, 2⟩).isIdentity = true
      ∧ (FormLimbs.ofForm ⟨1, -1, 2⟩).isIdentity = false
      ∧ ¬∀ form : BinaryForm, form.PosDef → form.Primitive →
        LimbsReduceCanonically .default form := by
  have hskewed : finishIfReduced ⟨2, 1, 1⟩ = some ⟨1, -1, 2⟩ := by decide
  refine ⟨FormLimbs.reduceWithScratch_finished _ (by decide) 0,
    FormLimbs.reduceWithScratch_finished _ hskewed 0, ⟨1, 0, -1, 1, by decide, by decide⟩,
    by simp [FormLimbs.isIdentity, FormLimbs.ofForm, isOne_ofInt],
    by simp [FormLimbs.isIdentity, FormLimbs.ofForm, isOne_ofInt], ?_⟩
  intro h
  obtain ⟨result, reduced, -, -, -, enough, hrun⟩ := h ⟨2, 1, 1⟩ (by decide) (by decide)
  have hresult := FormLimbs.reduceWithScratch_finished .default hskewed enough
  rw [hrun (enough + 1) (by omega)] at hresult
  have hsame : FormLimbs.ofForm result = .ofForm ⟨1, -1, 2⟩ := by
    injection hresult with h
    injection h
  rw [FormLimbs.ofForm_inj] at hsame
  subst hsame
  exact absurd reduced (by decide)

end Vdf

end Iuna
