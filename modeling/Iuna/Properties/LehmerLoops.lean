import Iuna.Properties.LehmerTurns

/-!
# The loops of the batched gcds

The loops end, with the greatest common divisor and its cofactors, exactly where no division of
the Euclidean sequence of the operands fails.
-/

namespace Iuna

namespace Vdf

open LimbInt

lemma isOne_ofInt (z : ℤ) : (ofInt z).isOne = decide (z = 1) := by
  by_cases hz : z = 1
  · rw [hz, ofInt_one]
    rfl
  · rw [decide_eq_false hz]
    by_contra hone
    simp only [isOne, Bool.not_eq_false, Bool.and_eq_true, decide_eq_true_eq] at hone
    apply hz
    rw [← toInt_ofInt z, ← toInt_ofInt 1, ofInt_one]
    rw [show ofInt z = LimbInt.one from by
      rcases h : ofInt z with ⟨sign, limbs⟩
      rw [h] at hone
      simp only at hone
      rw [hone.1, hone.2]
      rfl]

/-! ## Sequences that end early -/

lemma not_divisionFails_of_lt {m n : ℕ} (h : m < n) : ¬DivisionFails m n := by
  rw [DivisionFails, firstGuessTooLarge_of_lt h]
  exact Bool.false_ne_true

lemma not_divisionFails_of_lt_base {m n : ℕ} (hn : 0 < n) (h : n < base) :
    ¬DivisionFails m n := by
  rw [DivisionFails, firstGuessTooLarge_of_one_limb (by rw [magnitude_of_lt hn.ne' h]; rfl)]
  exact Bool.false_ne_true

/-- A sequence is fair from its first divisor of one limb on. -/
lemma fairDivisions_of_lt_base {n : ℕ} (h : n < base) (limit m : ℕ) : FairDivisions limit m n := by
  induction n using Nat.strong_induction_on generalizing m with
  | _ n ih =>
    rcases Nat.eq_zero_or_pos n with hzero | hn
    · exact .done (by omega)
    · have hmod := Nat.mod_lt m hn
      exact .step (not_divisionFails_of_lt_base hn h) (ih (m % n) hmod (hmod.trans h) n)

lemma fairDivisions_left_one (n : ℕ) : FairDivisions 0 1 n := by
  rcases Nat.lt_or_ge 1 n with hn | hn
  · refine .step (not_divisionFails_of_lt hn) ?_
    exact fairDivisions_of_lt_base ((Nat.mod_le 1 n).trans_lt one_lt_base) 0 n
  · exact fairDivisions_of_lt_base (hn.trans_lt one_lt_base) 0 1

lemma fairDivisions_swap {limit m n : ℕ} (h : m < n) :
    FairDivisions limit m n ↔ FairDivisions limit n m := by
  have hstep : FairDivisions limit m n ↔ _ :=
    Euclid.Fair.step_iff (Nat.zero_lt_of_lt h) (not_divisionFails_of_lt h)
  rwa [Nat.mod_eq_of_lt h] at hstep

/-! ## What a loop ends with -/

/-- `old_r` is the greatest common divisor up to its sign, a combination of the remainders that
the first cofactors of the columns share. -/
def GcdState.Attains (final : GcdState) (pair : ℤ × ℤ) (columns : List (ℤ × ℤ)) : Prop :=
  ∃ a b : ℤ, (a * pair.1 + b * pair.2).natAbs = Int.gcd pair.1 pair.2 ∧
    final.oldR = ofInt (a * pair.1 + b * pair.2) ∧
    final.columns.map Prod.fst = columns.map fun column => ofInt (a * column.1 + b * column.2)

lemma GcdState.Attains.of_act {final : GcdState} {pair : ℤ × ℤ} {columns : List (ℤ × ℤ)}
    (g : Unimodular) (h : final.Attains (g.act pair) (columns.map g.act)) :
    final.Attains pair columns := by
  obtain ⟨a, b, hgcd, hold, hcolumns⟩ := h
  have hact : ∀ v : ℤ × ℤ, a * (g.act v).1 + b * (g.act v).2
      = (a * g.a + b * g.c) * v.1 + (a * g.b + b * g.d) * v.2 := by
    intro v
    simp only [Unimodular.act]
    ring
  rw [hact, Unimodular.gcd_act] at hgcd
  rw [hact] at hold
  refine ⟨_, _, hgcd, hold, ?_⟩
  rw [hcolumns, List.map_map]
  exact List.map_congr_left fun v _ => by simp only [Function.comp_apply, hact]

/-- A negative `old_r` is corrected at the end. -/
lemma GcdState.Attains.fixOld {final : GcdState} {pair : ℤ × ℤ} {columns : List (ℤ × ℤ)}
    (h : final.Attains pair columns) :
    ∃ a b : ℤ, a * pair.1 + b * pair.2 = Int.gcd pair.1 pair.2 ∧
      final.fixOld.oldR = ofInt (a * pair.1 + b * pair.2) ∧
      final.fixOld.columns.map Prod.fst
        = columns.map fun column => ofInt (a * column.1 + b * column.2) := by
  obtain ⟨a, b, hgcd, hold, hcolumns⟩ := h
  by_cases hneg : a * pair.1 + b * pair.2 < 0
  · rw [GcdState.fixOld, if_pos (by simpa [hold, isNegative_ofInt] using hneg)]
    refine ⟨-a, -b, by rw [neg_mul, neg_mul]; omega, ?_, ?_⟩
    · simp only [hold, negated_ofInt]
      congr 1
      ring
    · have hnegated := congrArg (List.map LimbInt.negated) hcolumns
      simp only [List.map_map, Function.comp_def, negated_ofInt] at hnegated ⊢
      rw [hnegated]
      exact List.map_congr_left fun v _ => by congr 1; ring
  · rw [GcdState.fixOld, if_neg (by simpa [hold, isNegative_ofInt] using hneg)]
    exact ⟨a, b, by omega, hold, hcolumns⟩

/-- A loop attains the greatest common divisor, or fails where a division of its sequence does. -/
def Ends (loop : Option (Run GcdState)) (pair : ℤ × ℤ) (columns : List (ℤ × ℤ)) : Prop :=
  (FairDivisions 0 pair.1.natAbs pair.2.natAbs ∧
      ∃ final, loop = some (.ok final) ∧ final.Attains pair columns) ∨
    (¬FairDivisions 0 pair.1.natAbs pair.2.natAbs ∧ loop = some (.error .indexOutOfRange))

namespace Ends

variable {loop : Option (Run GcdState)} {pair : ℤ × ℤ} {columns : List (ℤ × ℤ)}

lemma of_act (g : Unimodular) (hfair : FairDivisions 0 pair.1.natAbs pair.2.natAbs ↔
      FairDivisions 0 (g.act pair).1.natAbs (g.act pair).2.natAbs)
    (h : Ends loop (g.act pair) (columns.map g.act)) : Ends loop pair columns := by
  rcases h with ⟨h, final, hloop, hattains⟩ | ⟨h, hloop⟩
  · exact .inl ⟨hfair.mpr h, final, hloop, hattains.of_act g⟩
  · exact .inr ⟨fun hcontra => h (hfair.mp hcontra), hloop⟩

lemma fails (hpos : pair.2 ≠ 0) (h : DivisionFails pair.1.natAbs pair.2.natAbs) :
    Ends (some (.error .indexOutOfRange)) pair columns :=
  .inr ⟨fun hfair => hfair.not_bad (Int.natAbs_pos.mpr hpos) h, rfl⟩

/-- `old_r` is the greatest common divisor. -/
lemma old (h : pair.2 = 0 ∨ pair.1 = 1) (scratch : LimbScratch) :
    Ends (some (pure (GcdState.ofInts pair columns scratch))) pair columns := by
  refine .inl ⟨?_, _, rfl, 1, 0, ?_, by simp [GcdState.ofInts], by simp [GcdState.ofInts]⟩
  · rcases h with hzero | hone
    · rw [hzero]
      exact .done le_rfl
    · rw [hone]
      exact fairDivisions_left_one _
  · rcases h with hzero | hone
    · simp [hzero]
    · simp [hone]

/-- `r` is the greatest common divisor. -/
lemma new (h : pair.2 = 1) (scratch : LimbScratch) :
    Ends (some (pure (GcdState.ofInts pair columns scratch).takeNew)) pair columns := by
  refine .inl ⟨?_, _, rfl, 0, 1, ?_, by simp [GcdState.ofInts, GcdState.takeNew],
    by simp [GcdState.ofInts, GcdState.takeNew]⟩
  · rw [h]
    exact fairDivisions_of_lt_base one_lt_base 0 _
  · simp [h]

end Ends

/-! ## The loops -/

lemma GcdState.swap_ofInts (pair : ℤ × ℤ) (columns : List (ℤ × ℤ)) (scratch : LimbScratch) :
    (GcdState.ofInts pair columns scratch).swap
      = GcdState.ofInts (Unimodular.swap.act pair) (columns.map Unimodular.swap.act) scratch := by
  simp [GcdState.ofInts, GcdState.swap]

/-- The loop with operands of any sign. -/
lemma gcdLoop_ends (fuel : ℕ) (pair : ℤ × ℤ) (h : pair.2.natAbs < fuel) (columns : List (ℤ × ℤ))
    (scratch : LimbScratch) :
    Ends (gcdLoop fuel (GcdState.ofInts pair columns scratch)) pair columns := by
  induction fuel generalizing pair columns scratch with
  | zero => omega
  | succ fuel ih =>
    obtain ⟨x, y⟩ := pair
    have hzeroIff : (GcdState.ofInts (x, y) columns scratch).r.isZero = decide (y = 0) :=
      isZero_ofInt y
    have holdOne : (GcdState.ofInts (x, y) columns scratch).oldR.isOne = decide (x = 1) :=
      isOne_ofInt x
    have hnewOne : (GcdState.ofInts (x, y) columns scratch).r.isOne = decide (y = 1) :=
      isOne_ofInt y
    have holdNeg : (GcdState.ofInts (x, y) columns scratch).oldR.isNegative = decide (x < 0) :=
      isNegative_ofInt x
    have hnewNeg : (GcdState.ofInts (x, y) columns scratch).r.isNegative = decide (y < 0) :=
      isNegative_ofInt y
    have hcmp : (GcdState.ofInts (x, y) columns scratch).oldR.absCmp
        (GcdState.ofInts (x, y) columns scratch).r = compare x.natAbs y.natAbs := absCmp_ofInt x y
    simp only [gcdLoop, hzeroIff, holdOne, hnewOne, holdNeg, hnewNeg, hcmp, decide_eq_true_eq]
    by_cases hzero : y = 0
    · rw [if_pos hzero]
      exact .old (.inl hzero) scratch
    rw [if_neg hzero]
    by_cases hx : x = 1
    · rw [if_pos hx]
      exact .old (.inr hx) scratch
    rw [if_neg hx]
    by_cases hy : y = 1
    · rw [if_pos hy]
      exact .new hy scratch
    rw [if_neg hy]
    by_cases hnonneg : 0 ≤ x ∧ 0 ≤ y
    · obtain ⟨m, rfl⟩ := Int.eq_ofNat_of_zero_le hnonneg.1
      obtain ⟨n, rfl⟩ := Int.eq_ofNat_of_zero_le hnonneg.2
      simp only [Int.natAbs_natCast] at h ⊢
      by_cases hlt : m < n
      · rw [if_pos (by simp [Nat.compare_eq_lt.mpr hlt]), GcdState.swap_ofInts]
        refine .of_act Unimodular.swap ?_ (ih _ (by simpa using by omega) _ _)
        simpa using fairDivisions_swap hlt
      · rw [if_neg (by simp [Nat.compare_eq_lt, hlt]), if_pos (by simp)]
        have hturn := GcdState.turn_ofInts (by omega) (Nat.le_of_not_lt hlt) 0 columns scratch
        rw [Nat.cast_zero, ofInt_zero] at hturn
        rcases hturn with ⟨hfails, hturn⟩ | ⟨g, m', n', after, hturn, hact, hless, -, hfair⟩
        · rw [hturn]
          exact .fails hzero (by simpa using hfails)
        · rw [hturn]
          refine .of_act g (by simpa [hact] using hfair 0) ?_
          rw [hact]
          exact ih _ (by simp only [Int.natAbs_natCast]; omega) _ _
    · rw [if_neg (by simp; omega), if_neg (by simp; omega)]
      have hfallback := GcdState.fallback_ofInts (x, y) hzero columns scratch
      by_cases hfails : DivisionFails x.natAbs y.natAbs
      · rw [if_pos hfails] at hfallback
        rw [hfallback]
        exact .fails hzero hfails
      · rw [if_neg hfails] at hfallback
        obtain ⟨after, hfallback⟩ := hfallback
        rw [hfallback]
        have hrest : x - x.tdiv y * y = x.tmod y := by rw [Int.tmod_def, mul_comm]
        have hpos : 0 < y.natAbs := Int.natAbs_pos.mpr hzero
        refine .of_act _ ?_ (ih _ ?_ _ _)
        · simp only [Unimodular.division_act, hrest, Int.natAbs_tmod]
          exact Euclid.Fair.step_iff hpos hfails
        · simp only [Unimodular.division_act, hrest, Int.natAbs_tmod]
          have hmod := Nat.mod_lt x.natAbs hpos
          dsimp only at h
          omega

/-- The loop with natural operands, the first not below the second. -/
lemma positiveGcdLoop_ends (fuel : ℕ) {m n : ℕ} (h : n < fuel) (hle : n ≤ m)
    (columns : List (ℤ × ℤ)) (scratch : LimbScratch) :
    Ends (positiveGcdLoop fuel (GcdState.ofInts (m, n) columns scratch)) (m, n) columns := by
  induction fuel generalizing m n columns scratch with
  | zero => omega
  | succ fuel ih =>
    have hzeroIff : (GcdState.ofInts (m, n) columns scratch).r.isZero = decide ((n : ℤ) = 0) :=
      isZero_ofInt n
    have holdOne : (GcdState.ofInts (m, n) columns scratch).oldR.isOne = decide ((m : ℤ) = 1) :=
      isOne_ofInt m
    have hnewOne : (GcdState.ofInts (m, n) columns scratch).r.isOne = decide ((n : ℤ) = 1) :=
      isOne_ofInt n
    simp only [positiveGcdLoop, hzeroIff, holdOne, hnewOne, decide_eq_true_eq]
    by_cases hzero : (n : ℤ) = 0
    · rw [if_pos hzero]
      exact .old (.inl hzero) scratch
    rw [if_neg hzero]
    by_cases hm : (m : ℤ) = 1
    · rw [if_pos hm]
      exact .old (.inr hm) scratch
    rw [if_neg hm]
    by_cases hn : (n : ℤ) = 1
    · rw [if_pos hn]
      exact .new hn scratch
    rw [if_neg hn]
    have hturn := GcdState.turn_ofInts (by omega) hle 0 columns scratch
    rw [Nat.cast_zero, ofInt_zero] at hturn
    rcases hturn with ⟨hfails, hturn⟩ | ⟨g, m', n', after, hturn, hact, hless, hle', hfair⟩
    · rw [hturn]
      exact .fails hzero (by simpa using hfails)
    · rw [hturn]
      refine .of_act g (by simpa [hact] using hfair 0) ?_
      rw [hact]
      exact ih (by omega) hle' _ _

/-- The loop of the partial gcd, which acts by one matrix until the second remainder is not above
the limit. -/
lemma partialGcdLoop_ends (limit fuel : ℕ) {m n : ℕ} (h : n < fuel) (hle : n ≤ m)
    (columns : List (ℤ × ℤ)) (scratch : LimbScratch) :
    (FairDivisions limit m n ∧ ∃ (g : Unimodular) (m' n' : ℕ) (after : LimbScratch),
        partialGcdLoop (ofInt limit) fuel (GcdState.ofInts (m, n) columns scratch)
          = some (.ok (GcdState.ofInts ((m' : ℤ), (n' : ℤ)) (columns.map g.act) after)) ∧
        g.act (m, n) = ((m' : ℤ), (n' : ℤ)) ∧ n' ≤ limit ∧ n' ≤ m') ∨
      (¬FairDivisions limit m n ∧
        partialGcdLoop (ofInt limit) fuel (GcdState.ofInts (m, n) columns scratch)
          = some (.error .indexOutOfRange)) := by
  induction fuel generalizing m n columns scratch with
  | zero => omega
  | succ fuel ih =>
    have hzeroIff : (GcdState.ofInts (m, n) columns scratch).r.isZero = decide ((n : ℤ) = 0) :=
      isZero_ofInt n
    have hcmp : (GcdState.ofInts (m, n) columns scratch).r.cmp (ofInt limit)
        = compare (n : ℤ) (limit : ℤ) := cmp_ofInt n limit
    simp only [partialGcdLoop, hzeroIff, hcmp]
    by_cases hstop : n ≤ limit
    · have hends : ¬(!decide ((n : ℤ) = 0) &&
          decide (compare (n : ℤ) (limit : ℤ) = .gt)) = true := by
        simp only [compare_gt_iff_gt, Bool.and_eq_true, decide_eq_true_eq, not_and]
        omega
      have hone : columns.map Unimodular.one.act = columns :=
        (List.map_congr_left fun v _ => Unimodular.one_act v).trans (List.map_id' columns)
      rw [if_neg hends]
      exact .inl ⟨.done hstop, .one, m, n, scratch, by rw [hone, pure_eq], by simp, hstop, hle⟩
    · have hgoes : (!decide ((n : ℤ) = 0) &&
          decide (compare (n : ℤ) (limit : ℤ) = .gt)) = true := by
        simp only [compare_gt_iff_gt, Bool.and_eq_true, decide_eq_true_eq, Bool.not_eq_true',
          decide_eq_false_iff_not]
        omega
      rw [if_pos hgoes]
      rcases GcdState.turn_ofInts (by omega) hle limit columns scratch with
        ⟨hfails, hturn⟩ | ⟨g, m', n', after, hturn, hact, hless, hle', hfair⟩
      · rw [hturn]
        exact .inr ⟨fun hfair => hfair.not_bad (by omega) hfails, rfl⟩
      · rw [hturn]
        rcases ih (by omega) hle' (columns.map g.act) after with
          ⟨hrest, g', m'', n'', last, hloop, hact', hlimit, hlast⟩ | ⟨hrest, hloop⟩
        · refine .inl ⟨(hfair limit).mpr hrest, g'.mul g, m'', n'', last, ?_, ?_, hlimit, hlast⟩
          · simp only [hloop, List.map_map]
            congr 4
            exact funext fun v => (Unimodular.mul_act g' g v).symm
          · rw [Unimodular.mul_act, hact, hact']
        · exact .inr ⟨fun hcontra => hrest ((hfair limit).mp hcontra), hloop⟩

end Vdf

end Iuna
