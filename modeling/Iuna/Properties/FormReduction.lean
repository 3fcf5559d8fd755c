import Iuna.Domain.FormReduction
import Mathlib.Algebra.Order.Group.Unbundled.Int
import Mathlib.Logic.Relation

/-!
# The reduced form of a class

Every turn of the reducer's loop is a substitution, and from the second turn on the first
coefficient falls, so the loop on integers ends for every positive definite form and leaves an
equivalent one.  It leaves the reduced form of the class, unless the form before the last step is one
that `finish_if_reduced` leaves with `b = -a`.
-/

namespace Iuna

namespace Vdf

open Relation

/-! ## One turn -/

/-- The branches of `reduce_once` are one formula: the nearest multiple of `2 c` is taken off. -/
lemma reduceOnce_spec {form : LimbForm} (positive : 0 < form.c) :
    ∃ s : ℤ, reduceOnce form
        = ⟨form.c, 2 * form.c * s - form.b, form.a + s * (form.c * s - form.b)⟩
      ∧ -form.c < 2 * form.c * s - form.b ∧ 2 * form.c * s - form.b ≤ form.c := by
  have hmodulus : |2 * form.c| = 2 * form.c := abs_of_pos (by omega)
  simp only [reduceOnce, hmodulus, not_lt, gt_iff_lt]
  split_ifs with hnear hbelow habove
  · refine ⟨0, by simp, ?_, ?_⟩ <;>
      rcases hnear with hzero | ⟨hnonneg, hless⟩
    all_goals first | omega | (rw [abs_of_nonneg hnonneg] at hless; omega)
  · obtain ⟨hneg, hless⟩ := hbelow
    rw [abs_of_neg hneg] at hless
    refine ⟨-1, ?_, by omega, by omega⟩
    rw [BinaryForm.mk.injEq]
    exact ⟨rfl, by ring, by ring⟩
  · obtain ⟨hnonneg, hless⟩ := habove
    rw [abs_of_nonneg hnonneg] at hless
    have hfar : 2 * form.c ≤ form.b + form.c := by
      by_contra hlt
      exact hnear (Or.inr ⟨hnonneg, by rw [abs_of_nonneg hnonneg]; omega⟩)
    refine ⟨1, ?_, by omega, by omega⟩
    rw [BinaryForm.mk.injEq]
    exact ⟨rfl, by ring, by ring⟩
  · have hdiv := Int.mul_fdiv_add_fmod (form.b + form.c) (2 * form.c)
    have hlow := Int.fmod_nonneg_of_pos (form.b + form.c) (show 0 < 2 * form.c by omega)
    have hhigh := Int.fmod_lt_of_pos (form.b + form.c) (show 0 < 2 * form.c by omega)
    refine ⟨(form.b + form.c).fdiv (2 * form.c), ?_, by omega, by omega⟩
    rw [BinaryForm.mk.injEq]
    exact ⟨rfl, by ring, rfl⟩

lemma equivalent_reduceOnce {form : LimbForm} (positive : 0 < form.c) :
    form.Equivalent (reduceOnce form) := by
  obtain ⟨s, hs, -, -⟩ := reduceOnce_spec positive
  rw [hs]
  exact ⟨0, 1, -1, -s, by norm_num,
    by ext <;> simp only [BinaryForm.subst] <;> ring⟩

/-! ## The last step -/

/-- The forms that `finish_if_reduced` answers `true` for and leaves with `b = -a < c`. -/
def Skewed (form : LimbForm) : Prop :=
  (form.b = -form.a ∧ form.a < form.c) ∨ (form.b = form.c ∧ form.c < form.a)

instance (form : LimbForm) : Decidable (Skewed form) := inferInstanceAs (Decidable (_ ∨ _))

lemma finishIfReduced_eq_none {form : LimbForm} (definite : form.PosDef) :
    finishIfReduced form = none ↔ form.a < |form.b| ∨ form.c < |form.b| := by
  rw [finishIfReduced, abs_of_pos definite.pos, abs_of_pos definite.last_pos]
  split_ifs <;> simp_all

lemma Skewed.finishes {form : LimbForm} (definite : form.PosDef) (skewed : Skewed form) :
    ∃ result, finishIfReduced form = some result := by
  rw [← Option.ne_none_iff_exists', Ne, finishIfReduced_eq_none definite]
  have ha := definite.pos
  have hc := definite.last_pos
  rcases skewed with ⟨hb, hac⟩ | ⟨hb, hca⟩
  · rw [hb, abs_neg, abs_of_pos ha]
    omega
  · rw [hb, abs_of_pos hc]
    omega

/-- What the last step leaves is equivalent, and reduced but for the skewed forms. -/
lemma finishIfReduced_eq_some {form result : LimbForm} (definite : form.PosDef)
    (finished : finishIfReduced form = some result) :
    form.Equivalent result ∧ (result.Reduced ↔ ¬Skewed form) := by
  have ha := definite.pos
  have hc := definite.last_pos
  have hbounds : |form.b| ≤ form.a ∧ |form.b| ≤ form.c := by
    have : ¬(form.a < |form.b| ∨ form.c < |form.b|) := by
      rw [← finishIfReduced_eq_none definite, finished]
      simp
    omega
  obtain ⟨⟨hlow, hhigh⟩, hlow', hhigh'⟩ := hbounds.imp abs_le.1 abs_le.1
  rw [finishIfReduced, abs_of_pos ha, abs_of_pos hc, if_neg (by omega)] at finished
  split_ifs at finished with hgreater hequal <;> obtain rfl := Option.some.inj finished
  · refine ⟨form.equivalent_reverse, fun hr => ?_, fun hskewed => ?_⟩
    · have := hr.low
      simp only [Skewed] at *
      omega
    · have : form.b ≠ form.c := fun hb => hskewed (Or.inr ⟨hb, hgreater⟩)
      constructor <;> simp only <;> omega
  · refine ⟨?_, fun hr => ?_, fun hskewed => ?_⟩
    · simpa only [hequal.1] using form.equivalent_reverse
    · simp only [Skewed]
      omega
    · constructor <;> simp only <;> omega
  · refine ⟨BinaryForm.Equivalent.refl form, fun hr => ?_, fun hskewed => ?_⟩
    · have := hr.low
      simp only [Skewed]
      omega
    · have : ¬(form.b = -form.a ∧ form.a < form.c) := fun h => hskewed (Or.inl h)
      constructor <;> omega

/-! ## The loop -/

/-- One turn of the loop. -/
def Turn (form next : LimbForm) : Prop :=
  finishIfReduced form = none ∧ next = reduceOnce form

lemma Turn.equivalent {form next : LimbForm} (definite : form.PosDef) (turn : Turn form next) :
    form.Equivalent next := by
  rw [turn.2]
  exact equivalent_reduceOnce definite.last_pos

/-- Every form the loop passes through is equivalent to the one it starts from. -/
lemma equivalent_of_turns {form passed : LimbForm} (definite : form.PosDef)
    (turns : ReflTransGen Turn form passed) : form.Equivalent passed := by
  induction turns with
  | refl => exact BinaryForm.Equivalent.refl form
  | tail _ turn ih => exact ih.trans (turn.equivalent (definite.of_equivalent ih))

/-- What the loop returns is what the last step makes of a form it passes through. -/
lemma reduceWithScratch_eq_some {fuel : ℕ} {form result : LimbForm}
    (returned : reduceWithScratch fuel form = some result) :
    ∃ last, ReflTransGen Turn form last ∧ finishIfReduced last = some result := by
  induction fuel generalizing form with
  | zero => simp [reduceWithScratch] at returned
  | succ fuel ih =>
    rw [reduceWithScratch] at returned
    split at returned
    next finished => exact ⟨form, ReflTransGen.refl, by rw [finished, ← returned]⟩
    next unfinished =>
      obtain ⟨last, turns, finished⟩ := ih returned
      exact ⟨last, ReflTransGen.head ⟨unfinished, rfl⟩ turns, finished⟩

lemma exists_fuel_of_turns {form last result : LimbForm} (turns : ReflTransGen Turn form last)
    (finished : finishIfReduced last = some result) :
    ∃ fuel, reduceWithScratch fuel form = some result := by
  induction turns using ReflTransGen.head_induction_on with
  | refl => exact ⟨1, by rw [reduceWithScratch, finished]⟩
  | head turn _ ih =>
    obtain ⟨fuel, returned⟩ := ih
    exact ⟨fuel + 1, by rw [reduceWithScratch, turn.1, ← turn.2]; exact returned⟩

/-- More fuel does not change what the loop returns. -/
lemma reduceWithScratch_unique {fuel fuel' : ℕ} {form result result' : LimbForm}
    (returned : reduceWithScratch fuel form = some result)
    (returned' : reduceWithScratch fuel' form = some result') : result = result' := by
  induction fuel generalizing form fuel' with
  | zero => simp [reduceWithScratch] at returned
  | succ fuel ih =>
    cases fuel' with
    | zero => simp [reduceWithScratch] at returned'
    | succ fuel' =>
      rw [reduceWithScratch] at returned returned'
      split at returned
      next finished =>
        rw [finished] at returned'
        exact Option.some.inj (returned.symm.trans returned')
      next unfinished =>
        rw [unfinished] at returned'
        exact ih returned returned'

/-- A turn keeps a form definite, and bounds its middle coefficient by its first. -/
lemma reduceOnce_bounded {form : LimbForm} (definite : form.PosDef) :
    (reduceOnce form).PosDef ∧ (reduceOnce form).a = form.c
      ∧ |(reduceOnce form).b| ≤ (reduceOnce form).a := by
  refine ⟨definite.of_equivalent (equivalent_reduceOnce definite.last_pos), ?_⟩
  obtain ⟨s, hs, hlow, hhigh⟩ := reduceOnce_spec definite.last_pos
  rw [hs]
  exact ⟨rfl, abs_le.2 ⟨hlow.le, hhigh⟩⟩

/-- With a middle coefficient below the first one, a turn makes the first coefficient smaller. -/
lemma exists_last_of_bounded (bound : ℕ) {form : LimbForm} (definite : form.PosDef)
    (middle : |form.b| ≤ form.a) (small : form.a ≤ bound) :
    ∃ last result, ReflTransGen Turn form last ∧ finishIfReduced last = some result := by
  induction bound generalizing form with
  | zero =>
    have := definite.pos
    omega
  | succ bound ih =>
    cases hfinish : finishIfReduced form with
    | some result => exact ⟨form, result, ReflTransGen.refl, hfinish⟩
    | none =>
      have hless := (finishIfReduced_eq_none definite).1 hfinish
      obtain ⟨hnext, hfirst, hmiddle⟩ := reduceOnce_bounded definite
      have hsmall : (reduceOnce form).a ≤ bound := by
        push_cast at small
        omega
      obtain ⟨last, result, turns, finished⟩ := ih hnext hmiddle hsmall
      exact ⟨last, result, ReflTransGen.head ⟨hfinish, rfl⟩ turns, finished⟩

/-- The loop ends: one turn bounds the middle coefficient. -/
lemma exists_last {form : LimbForm} (definite : form.PosDef) :
    ∃ last result, ReflTransGen Turn form last ∧ finishIfReduced last = some result := by
  cases hfinish : finishIfReduced form with
  | some result => exact ⟨form, result, ReflTransGen.refl, hfinish⟩
  | none =>
    obtain ⟨hnext, -, hmiddle⟩ := reduceOnce_bounded definite
    obtain ⟨last, result, turns, finished⟩ :=
      exists_last_of_bounded (reduceOnce form).a.toNat hnext hmiddle (Int.self_le_toNat _)
    exact ⟨last, result, ReflTransGen.head ⟨hfinish, rfl⟩ turns, finished⟩

/-- The loop ends for every positive definite form and stays in its class. -/
theorem reduceWithScratch_terminates {form : LimbForm} (definite : form.PosDef) :
    ∃ fuel result, reduceWithScratch fuel form = some result ∧ form.Equivalent result := by
  obtain ⟨last, result, turns, finished⟩ := exists_last definite
  obtain ⟨fuel, returned⟩ := exists_fuel_of_turns turns finished
  have hlast := equivalent_of_turns definite turns
  exact ⟨fuel, result, returned, hlast.trans
    (finishIfReduced_eq_some (definite.of_equivalent hlast) finished).1⟩

/-! ## The reduced form -/

/-- The loop ends with the one reduced form of the class, of the same discriminant. -/
def ReducesCanonically (form : LimbForm) : Prop :=
  ∃ fuel result, reduceWithScratch fuel form = some result ∧ result.Reduced
    ∧ result.disc = form.disc ∧ form.Equivalent result
    ∧ ∀ other : LimbForm, other.Reduced → form.Equivalent other → other = result

/-- On integers the reducer ends with the reduced form of its input's class just when its loop passes
through no skewed form. -/
theorem reduction_canonical (form : LimbForm) (definite : form.PosDef) :
    ReducesCanonically form ↔ ∀ passed, ReflTransGen Turn form passed → ¬Skewed passed := by
  constructor
  · rintro ⟨fuel, result, returned, reduced, -⟩ passed turns skewed
    have hpassed := definite.of_equivalent (equivalent_of_turns definite turns)
    obtain ⟨left, finished⟩ := skewed.finishes hpassed
    obtain ⟨fuel', returned'⟩ := exists_fuel_of_turns turns finished
    rw [reduceWithScratch_unique returned returned'] at reduced
    exact (finishIfReduced_eq_some hpassed finished).2.1 reduced skewed
  · intro straight
    obtain ⟨fuel, result, returned, equivalent⟩ := reduceWithScratch_terminates definite
    obtain ⟨last, turns, finished⟩ := reduceWithScratch_eq_some returned
    have hlast := definite.of_equivalent (equivalent_of_turns definite turns)
    have reduced := (finishIfReduced_eq_some hlast finished).2.2 (straight last turns)
    refine ⟨fuel, result, returned, reduced, equivalent.disc_eq, equivalent, ?_⟩
    intro other hother hequivalent
    exact hother.eq_of_equivalent reduced (definite.of_equivalent hequivalent)
      (hequivalent.symm.trans equivalent)

end Vdf

end Iuna
