import Iuna.Properties.LimbReduction

/-!
# Reduced products and powers in limbs

The reducer on limbs keeps the class, or fails with the fault of a division.  The operations of the
provers are those of the group of classes: products, squares, powers and the quotient of the
constant-memory prover.
-/

namespace Iuna

namespace Vdf

open LimbInt Fueled

open BinaryForm (Discriminant FormOf FormClass)

variable {D : Discriminant}

/-! ## The reducer -/

/-- The bounds that `finish_if_reduced` leaves. -/
lemma finishIfReduced_bounds {form result : LimbForm} (definite : form.PosDef)
    (finished : finishIfReduced form = some result) :
    |result.b| ≤ result.a ∧ result.a ≤ result.c := by
  have ha := definite.pos
  have hc := definite.last_pos
  have hbounds : ¬(form.a < |form.b| ∨ form.c < |form.b|) := by
    rw [← finishIfReduced_eq_none definite, finished]
    simp
  rw [finishIfReduced, abs_of_pos ha, abs_of_pos hc, if_neg hbounds] at finished
  split_ifs at finished <;> obtain rfl := Option.some.inj finished
  · simp only [abs_neg]
    omega
  · simp only [abs_neg]
    omega
  · omega

/-- Coefficients bounded as those of a reduced form. -/
def Bounded (form : BinaryForm) : Prop := |form.b| ≤ form.a ∧ form.a ≤ form.c

/-- The limbs of a form of a class, with bounded coefficients. -/
def RepresentsReduced (x : FormClass D) (form : FormLimbs) : Prop :=
  ∃ f : FormOf D, form = .ofForm f.form ∧ FormClass.mk f = x ∧ Bounded f.form

lemma RepresentsReduced.represents {x : FormClass D} {form : FormLimbs}
    (h : RepresentsReduced x form) : Represents x form := by
  obtain ⟨f, hf, hx, -⟩ := h
  exact ⟨f, hf, hx⟩

namespace FormLimbs

/-- The reducer ends with a form of the same class. -/
lemma reduceWithScratch_represents {x : FormClass D} {form : FormLimbs}
    (hform : Represents x form) (scratch : LimbScratch) :
    Settles Overrun (RepresentsReduced x) fun fuel => form.reduceWithScratch scratch fuel := by
  obtain ⟨f, rfl, rfl⟩ := hform
  obtain ⟨turns, result, returned, hequivalent⟩ := reduceWithScratch_terminates f.posDef
  obtain ⟨last, hturns, finished⟩ := reduceWithScratch_eq_some returned
  have hlast := f.posDef.of_equivalent (equivalent_of_turns f.posDef hturns)
  refine (reduceWithScratch_settles scratch f.posDef returned).mono fun reduced hreduced => ?_
  refine ⟨⟨result, f.posDef.of_equivalent hequivalent, ?_⟩, hreduced, ?_, ?_⟩
  · rw [hequivalent.disc_eq, f.disc_eq]
  · exact FormClass.mk_eq_iff.mpr hequivalent.symm
  · exact finishIfReduced_bounds hlast finished

/-- **Reduction.** For every positive definite form the reducer on limbs comes to what the reducer
on integers comes to, an equivalent form with the bounds of a reduced one, or fails with the fault
of a division. -/
theorem limbReduction_refines {form : BinaryForm} (definite : form.PosDef)
    (scratch : LimbScratch) :
    ∃ turns result, Vdf.reduceWithScratch turns form = some result ∧ form.Equivalent result ∧
      Bounded result ∧
      Settles Overrun (fun reduced => reduced = ofForm result) fun fuel =>
        (ofForm form).reduceWithScratch scratch fuel := by
  obtain ⟨turns, result, returned, hequivalent⟩ := reduceWithScratch_terminates definite
  obtain ⟨last, hturns, finished⟩ := reduceWithScratch_eq_some returned
  have hlast := definite.of_equivalent (equivalent_of_turns definite hturns)
  exact ⟨turns, result, returned, hequivalent, finishIfReduced_bounds hlast finished,
    reduceWithScratch_settles scratch definite returned⟩

/-! ## Products -/

/-- The form that `is_identity` knows is of the class one. -/
lemma represents_one {x : FormClass D} {form : FormLimbs} (hform : Represents x form)
    (hidentity : form.isIdentity = true) : x = 1 := by
  obtain ⟨f, rfl, rfl⟩ := hform
  simp only [isIdentity, ofForm, isOne_ofInt, Bool.and_eq_true, decide_eq_true_eq] at hidentity
  exact FormClass.mk_eq_one hidentity.1

/-- That form is bounded as a reduced one. -/
lemma representsReduced_one {x : FormClass D} {form : FormLimbs} (hform : Represents x form)
    (hidentity : form.isIdentity = true) : RepresentsReduced (1 : FormClass D) form := by
  rw [← represents_one hform hidentity]
  obtain ⟨f, rfl, rfl⟩ := hform
  simp only [isIdentity, ofForm, isOne_ofInt, Bool.and_eq_true, decide_eq_true_eq] at hidentity
  refine ⟨f, rfl, rfl, ?_, ?_⟩
  · rw [hidentity.1, hidentity.2, abs_one]
  · rw [hidentity.1]
    exact f.posDef.last_pos

section Operations

variable {x y : FormClass D} {self other : FormLimbs} (hself : Represents x self)
  (hother : Represents y other) (threshold : ℕ) (scratch : LimbScratch)

include hself

/-- `nudupl_reduce_with_scratch`. -/
lemma nuduplReduce_represents :
    Settles Overrun (RepresentsReduced (x * x)) fun fuel =>
      nuduplReduceWithScratch fuel (ofInt D.value) (ofInt threshold) scratch self := by
  simp only [nuduplReduceWithScratch]
  by_cases hidentity : self.isIdentity = true
  · simp only [if_pos hidentity]
    rw [represents_one hself hidentity, mul_one]
    exact .pure (representsReduced_one hself hidentity)
  · simp only [if_neg hidentity]
    exact (nuduplOwned_represents hself threshold scratch).bind fun form hform =>
      reduceWithScratch_represents hform scratch

include hother

/-- `compose_unreduced`. -/
lemma composeUnreduced_represents :
    Settles Overrun (Represents (x * y)) fun fuel =>
      composeUnreduced fuel (ofInt D.value) (ofInt threshold) scratch self other := by
  simp only [composeUnreduced]
  by_cases hidentity : self.isIdentity = true
  · simp only [if_pos hidentity]
    exact .pure (by rwa [represents_one hself hidentity, one_mul])
  · simp only [if_neg hidentity]
    by_cases hidentity' : other.isIdentity = true
    · simp only [if_pos hidentity']
      exact .pure (by rwa [represents_one hother hidentity', mul_one])
    · simp only [if_neg hidentity']
      exact nucomp_represents hself hother threshold scratch

/-- `nucomp_reduce_with_scratch`: an operand that it returns as it is may be unreduced. -/
lemma nucompReduce_represents :
    Settles Overrun (fun form => Represents (x * y) form ∧
        (RepresentsReduced x self → RepresentsReduced y other → RepresentsReduced (x * y) form))
      fun fuel =>
        nucompReduceWithScratch fuel (ofInt D.value) (ofInt threshold) scratch self other := by
  simp only [nucompReduceWithScratch]
  by_cases hidentity : self.isIdentity = true
  · simp only [if_pos hidentity]
    rw [represents_one hself hidentity, one_mul]
    exact .pure ⟨hother, fun _ h => h⟩
  · simp only [if_neg hidentity]
    by_cases hidentity' : other.isIdentity = true
    · simp only [if_pos hidentity']
      rw [represents_one hother hidentity', mul_one]
      exact .pure ⟨hself, fun h _ => h⟩
    · simp only [if_neg hidentity']
      refine (nucomp_represents hself hother threshold scratch).bind fun form hform => ?_
      exact (reduceWithScratch_represents hform scratch).mono fun _ h =>
        ⟨h.represents, fun _ _ => h⟩

/-- **Composition.** Without a reduction the composition of two forms and the duplication of one end
with a form of the product of their classes and of the square of its class, or with the fault of a
division. -/
theorem unreducedOperations_represent :
    Settles Overrun (Represents (x * y)) (fun fuel =>
        nucomp fuel self other (ofInt D.value) (ofInt threshold) scratch) ∧
      Settles Overrun (Represents (x * y)) (fun fuel =>
        composeUnreduced fuel (ofInt D.value) (ofInt threshold) scratch self other) ∧
      Settles Overrun (Represents (x * x)) (fun fuel =>
        nuduplOwned fuel self (ofInt D.value) (ofInt threshold) scratch) :=
  ⟨nucomp_represents hself hother threshold scratch,
    composeUnreduced_represents hself hother threshold scratch,
    nuduplOwned_represents hself threshold scratch⟩

end Operations

/-! ## Powers -/

lemma identity_represents (D : Discriminant) :
    Holds Overrun (RepresentsReduced (1 : FormClass D)) (identity (ofInt D.value)) := by
  have hresidue := D.residue
  have hquotient : 1 - D.value = 4 * ((1 - D.value) / 4) := by omega
  have hfour : fromU64 4 = ofInt 4 := by
    have hmagnitude := magnitude_of_lt four_ne_zero (show 4 < base by decide)
    rw [ofInt, if_neg (by decide), if_neg (by decide), show (4 : ℤ).natAbs = 4 from rfl,
      hmagnitude]
    rfl
  rw [identity, ← ofInt_one, LimbInt.sub, subAssign_ofInt, ok_bind, hfour,
    div_ofInt _ four_ne_zero]
  split
  · exact rfl
  · rw [hquotient, Int.mul_tdiv_cancel_left _ four_ne_zero, ok_bind]
    refine .pure ⟨FormOf.principal D, rfl, rfl, abs_one.le, ?_⟩
    exact (FormOf.principal D).posDef.last_pos

lemma shiftRight_bit (exponent bit : ℕ) :
    exponent >>> bit
      = exponent >>> (bit + 1) + exponent >>> (bit + 1) + (exponent >>> bit &&& 1) := by
  rw [Nat.and_one_is_mod, Nat.shiftRight_succ]
  omega

section Powers

variable {x : FormClass D} {self : FormLimbs} (hself : Represents x self) (threshold : ℕ)
  (scratch : LimbScratch)

lemma reduceLong_represents (maxBits : ℕ) (hself : Represents x self) :
    Settles Overrun (Represents x) fun fuel => reduceLong fuel scratch maxBits self := by
  simp only [reduceLong]
  by_cases hbits : self.a.bitLen > maxBits
  · simp only [if_pos hbits]
    exact (reduceWithScratch_represents hself scratch).mono fun _ h => h.represents
  · simp only [if_neg hbits]
    exact .pure hself

include hself

lemma composeBit_represents (exponent bit : ℕ) {result : FormLimbs} {y : FormClass D}
    (hresult : Represents y result) :
    Settles Overrun (Represents (y * x ^ (exponent >>> bit &&& 1))) fun fuel =>
      composeBit fuel (ofInt D.value) (ofInt threshold) scratch exponent bit self result := by
  simp only [composeBit]
  by_cases hone : exponent >>> bit &&& 1 = 1
  · simp only [if_pos hone]
    rw [hone, pow_one]
    exact nucomp_represents hresult hself threshold scratch
  · simp only [if_neg hone]
    have hzero : exponent >>> bit &&& 1 = 0 := by
      rw [Nat.and_one_is_mod] at hone ⊢
      omega
    rw [hzero, pow_zero, mul_one]
    exact .pure hresult

/-- The loop: with the power by the bits from `count` on, it ends with that by all of them. -/
lemma powLoop_represents (exponent maxBits count : ℕ) {result : FormLimbs}
    (hresult : Represents (x ^ (exponent >>> count)) result) :
    Settles Overrun (Represents (x ^ exponent)) fun fuel =>
      powLoop fuel (ofInt D.value) (ofInt threshold) scratch exponent maxBits self count
        result := by
  induction count generalizing result with
  | zero => exact .pure hresult
  | succ bit ih =>
    simp only [powLoop]
    refine (nuduplOwned_represents hresult threshold scratch).bind fun doubled hdoubled => ?_
    refine (reduceLong_represents scratch maxBits hdoubled).bind fun shorter hshorter => ?_
    refine (composeBit_represents hself threshold scratch exponent bit hshorter).bind
      fun next hnext => ih ?_
    rwa [← pow_add, ← pow_add, ← shiftRight_bit] at hnext

/-- `fast_pow_u64_with_scratch`, for an exponent of 64 bits. -/
lemma fastPow_represents {exponent : ℕ} (hword : exponent < base) :
    Settles Overrun (RepresentsReduced (x ^ exponent)) fun fuel =>
      fastPowU64WithScratch fuel (ofInt D.value) (ofInt threshold) scratch self exponent := by
  simp only [fastPowU64WithScratch]
  by_cases hzero : exponent = 0
  · simp only [if_pos hzero]
    rw [hzero, pow_zero]
    exact .lift (identity_represents D)
  · simp only [if_neg hzero]
    by_cases hidentity : self.isIdentity = true
    · simp only [if_pos hidentity]
      rw [represents_one hself hidentity, one_pow]
      exact .pure (representsReduced_one hself hidentity)
    · simp only [if_neg hidentity]
      -- the loop starts below the highest bit of the exponent
      have hbits : 64 - leadingZeros exponent - 1 = exponent.log2 := by
        have hlog : exponent.log2 < 64 := (Nat.log2_lt hzero).mpr hword
        rw [leadingZeros, if_neg hzero]
        omega
      have htop : exponent >>> exponent.log2 = 1 := by
        rw [Nat.shiftRight_eq_div_pow]
        exact Nat.div_eq_of_lt_le (by simpa using Nat.log2_self_le hzero)
          (by simpa [pow_succ, mul_comm] using Nat.lt_log2_self)
      rw [hbits]
      exact (powLoop_represents hself threshold scratch exponent _ exponent.log2
        (by rwa [htop, pow_one])).bind fun result hresult =>
          reduceWithScratch_represents hresult scratch

end Powers

/-- **The operations of the class group.** On bounded forms the duplication, the composition and the
power by an exponent of 64 bits end with a bounded form of the square, of the product and of the
power of the classes, or with the fault of a division. -/
theorem reducedOperations_represent {x y : FormClass D} {self other : FormLimbs}
    (hself : RepresentsReduced x self) (hother : RepresentsReduced y other) {exponent : ℕ}
    (hword : exponent < base) (threshold : ℕ) (scratch : LimbScratch) :
    Settles Overrun (RepresentsReduced (x * x)) (fun fuel =>
        nuduplReduceWithScratch fuel (ofInt D.value) (ofInt threshold) scratch self) ∧
      Settles Overrun (RepresentsReduced (x * y)) (fun fuel =>
        nucompReduceWithScratch fuel (ofInt D.value) (ofInt threshold) scratch self other) ∧
      Settles Overrun (RepresentsReduced (x ^ exponent)) (fun fuel =>
        fastPowU64WithScratch fuel (ofInt D.value) (ofInt threshold) scratch self exponent) := by
  refine ⟨nuduplReduce_represents hself.represents threshold scratch, ?_,
    fastPow_represents hself.represents threshold scratch hword⟩
  exact (nucompReduce_represents hself.represents hother.represents threshold scratch).mono
    fun _ h => h.2 hself hother

end FormLimbs

end Vdf

end Iuna

namespace Iuna.Toy

open Vdf Vdf.LimbInt Fueled

open BinaryForm (Discriminant FormOf FormClass)

lemma squarefree_twentyThree : Squarefree (-23 : ℤ) :=
  (Int.prime_iff_natAbs_prime.mpr (by norm_num)).irreducible.squarefree

/-- The discriminant of least magnitude with three classes. -/
def twentyThree : Discriminant := ⟨-23, by decide, squarefree_twentyThree, by decide⟩

/-- A form of a class other than one. -/
def unequal : FormOf twentyThree := ⟨⟨2, 1, 3⟩, by decide, by decide⟩

lemma unequal_reduced : RepresentsReduced (FormClass.mk unequal) (.ofForm unequal.form) :=
  ⟨unequal, rfl, rfl, by decide, by decide⟩

/-- The limbs of an unreduced form come to those of a reduced one. -/
theorem limbReduction_refines_skewed :
    ∃ turns result, reduceWithScratch turns ⟨6, 13, 8⟩ = some result ∧
      BinaryForm.Equivalent ⟨6, 13, 8⟩ result ∧ Bounded result ∧
      Settles Overrun (fun reduced => reduced = .ofForm result) fun fuel =>
        (FormLimbs.ofForm ⟨6, 13, 8⟩).reduceWithScratch .default fuel :=
  FormLimbs.limbReduction_refines (by decide) .default

/-- The square of the class of order three, three times. -/
theorem unreducedOperations_represent_twentyThree :
    Settles Overrun (Represents (FormClass.mk unequal * FormClass.mk unequal)) (fun fuel =>
        nucomp fuel (.ofForm unequal.form) (.ofForm unequal.form) (ofInt twentyThree.value)
          (ofInt (2 : ℕ)) .default) ∧
      Settles Overrun (Represents (FormClass.mk unequal * FormClass.mk unequal)) (fun fuel =>
        FormLimbs.composeUnreduced fuel (ofInt twentyThree.value) (ofInt (2 : ℕ)) .default
          (.ofForm unequal.form) (.ofForm unequal.form)) ∧
      Settles Overrun (Represents (FormClass.mk unequal * FormClass.mk unequal)) (fun fuel =>
        nuduplOwned fuel (.ofForm unequal.form) (ofInt twentyThree.value) (ofInt (2 : ℕ))
          .default) :=
  FormLimbs.unreducedOperations_represent unequal_reduced.represents unequal_reduced.represents 2
    .default

/-- The operations at the class of order three, and its fifth power. -/
theorem reducedOperations_represent_twentyThree :
    Settles Overrun (RepresentsReduced (FormClass.mk unequal * FormClass.mk unequal)) (fun fuel =>
        FormLimbs.nuduplReduceWithScratch fuel (ofInt twentyThree.value) (ofInt (2 : ℕ)) .default
          (.ofForm unequal.form)) ∧
      Settles Overrun (RepresentsReduced (FormClass.mk unequal * FormClass.mk unequal)) (fun fuel =>
        FormLimbs.nucompReduceWithScratch fuel (ofInt twentyThree.value) (ofInt (2 : ℕ)) .default
          (.ofForm unequal.form) (.ofForm unequal.form)) ∧
      Settles Overrun (RepresentsReduced (FormClass.mk unequal ^ 5)) (fun fuel =>
        FormLimbs.fastPowU64WithScratch fuel (ofInt twentyThree.value) (ofInt (2 : ℕ)) .default
          (.ofForm unequal.form) 5) :=
  FormLimbs.reducedOperations_represent unequal_reduced unequal_reduced (by decide) 2 .default

end Iuna.Toy
