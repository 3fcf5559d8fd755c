import Iuna.Properties.LehmerLoops
import Iuna.Properties.LimbOperations

/-!
# The batched gcds

A call of a batched gcd is checked against the plain notions: the greatest common divisor, the
identity of its cofactors, the congruences and the determinant of the partial gcd.  It meets them
exactly where no division of the Euclidean sequence of its operands fails.
-/

namespace Iuna

namespace Vdf

open LimbInt

/-! ## The calls -/

/-- The batched gcds with their operands. -/
inductive GcdCall where
  | extended (left right : LimbInt)
  | leftExtended (left right : LimbInt)
  | leftExtendedPositive (left right : LimbInt)
  | xgcdPartial (r2 r1 threshold : LimbInt)
  deriving DecidableEq, Repr

namespace GcdCall

/-- What a call answers, in the order of its fields, with at most `fuel` turns. -/
def run (fuel : ℕ) (scratch : LimbScratch) : GcdCall → Option (Run (List LimbInt))
  | .extended left right =>
    (left.extendedGcdWithScratch fuel right scratch).map fun run => do
      let answer ← run
      pure [answer.x, answer.y, answer.gcd]
  | .leftExtended left right =>
    (left.leftExtendedGcdWithScratch fuel right scratch).map fun run => do
      let answer ← run
      pure [answer.x, answer.gcd]
  | .leftExtendedPositive left right =>
    (left.leftExtendedGcdPositiveWithScratch fuel right scratch).map fun run => do
      let answer ← run
      pure [answer.x, answer.gcd]
  | .xgcdPartial r2 r1 threshold =>
    (xgcdPartialWithScratch fuel r2 r1 threshold scratch).map fun run => do
      let (co2, co1, r2, r1) ← run
      pure [co2, co1, r2, r1]

/-- What the callers promise: canonical operands, for the positive variant and the partial gcd
non-negative ones, for the partial gcd the second not above the first. -/
def Admissible : GcdCall → Prop
  | .extended left right | .leftExtended left right => left.Canonical ∧ right.Canonical
  | .leftExtendedPositive left right =>
    left.Canonical ∧ right.Canonical ∧ 0 ≤ left.toInt ∧ 0 ≤ right.toInt
  | .xgcdPartial r2 r1 threshold =>
    r2.Canonical ∧ r1.Canonical ∧ threshold.Canonical ∧
      0 ≤ r1.toInt ∧ r1.toInt ≤ r2.toInt ∧ 0 ≤ threshold.toInt

/-- A bound on the turns of a call. -/
def turns : GcdCall → ℕ
  | .extended _ right | .leftExtended _ right | .leftExtendedPositive _ right => right.toInt.natAbs
  | .xgcdPartial _ r1 _ => r1.toInt.natAbs

/-- The cofactors of the partial gcd against its operands: two congruences and a determinant. -/
def Cofactors (r2 r1 : ℤ) (columns : ℤ × ℤ) (remainders : ℤ × ℤ) : Prop :=
  r2 ∣ remainders.1 + columns.1 * r1 ∧ r2 ∣ remainders.2 + columns.2 * r1 ∧
    (remainders.1 * columns.2 - remainders.2 * columns.1).natAbs = r2.natAbs

/-- The right answers of a call. -/
def Exact : GcdCall → List ℤ → Prop
  | .extended left right, [x, y, gcd] =>
    gcd = Int.gcd left.toInt right.toInt ∧ x * left.toInt + y * right.toInt = gcd
  | .leftExtended left right, [x, gcd] | .leftExtendedPositive left right, [x, gcd] =>
    gcd = Int.gcd left.toInt right.toInt ∧ right.toInt ∣ x * left.toInt - gcd
  | .xgcdPartial r2 r1 threshold, [co2, co1, r2', r1'] =>
    0 ≤ r1' ∧ r1' ≤ r2' ∧ r1' ≤ threshold.toInt ∧
      Int.gcd r2' r1' = Int.gcd r2.toInt r1.toInt ∧
      Cofactors r2.toInt r1.toInt (co2, co1) (r2', r1')
  | _, _ => False

/-- The states that the loop of the partial gcd goes through. -/
inductive Visits (threshold : LimbInt) (start : GcdState) : GcdState → Prop
  | start : Visits threshold start start
  | turn {state next : GcdState} (h : Visits threshold start state) (hzero : state.r.isZero = false)
      (habove : state.r.cmp threshold = .gt) (hnext : state.turn threshold = .ok next) :
      Visits threshold start next

/-- Every turn of the partial gcd preserves the congruences and the determinant. -/
def PreservesCofactors (scratch : LimbScratch) : GcdCall → Prop
  | .xgcdPartial r2 r1 threshold =>
    ∀ state, Visits threshold ⟨r2, r1, [(.zero, fromI128 (-1))], scratch⟩ state →
      ∃ (remainders column : ℤ × ℤ) (after : LimbScratch),
        state = GcdState.ofInts remainders [column] after ∧
        Cofactors r2.toInt r1.toInt column remainders
  | _ => True

/-- The inner loop never fails and ends by its own test, and the cofactors of its batch give the
remainders that Euclid's algorithm has after as many steps. -/
def ExactBatches : Prop :=
  ∀ threshold oldR r : LimbInt, threshold.Canonical → oldR.Canonical → r.Canonical →
    0 ≤ threshold.toInt → 0 ≤ r.toInt → r.toInt ≤ oldR.toInt →
    ∃ batch pair, lehmerBatch threshold oldR r = .ok batch ∧
      Euclid.step^[batch.steps] (oldR.toInt.natAbs, r.toInt.natAbs) = pair ∧
      (pair.1 : ℤ) = oldR.toInt * batch.bb2 + r.toInt * batch.aa2 ∧
      (pair.2 : ℤ) = r.toInt * batch.aa1 + oldR.toInt * batch.bb1 ∧
      ∃ thresholdWord, threshold.shiftedLowWord (oldR.bitLen - 63) = .ok thresholdWord ∧
        batch.next thresholdWord = .ok none

/-- A call meets its specification: it ends with a right answer, every turn preserves the
cofactors, and the batches are exact. -/
def Meets (call : GcdCall) (fuel : ℕ) (scratch : LimbScratch) : Prop :=
  (∃ answer : List ℤ, call.run fuel scratch = some (.ok (answer.map ofInt)) ∧ call.Exact answer) ∧
    call.PreservesCofactors scratch ∧ ExactBatches

/-- No division of the Euclidean sequence of the operands fails. -/
def Fair : GcdCall → Prop
  | .extended left right | .leftExtended left right | .leftExtendedPositive left right =>
    FairDivisions 0 left.toInt.natAbs right.toInt.natAbs
  | .xgcdPartial r2 r1 threshold =>
    FairDivisions threshold.toInt.natAbs r2.toInt.natAbs r1.toInt.natAbs

end GcdCall

/-! ## The answers -/

lemma GcdState.column_fst (state : GcdState) (index : ℕ) :
    (state.column index).1 = (state.columns.map Prod.fst).getD index .zero := by
  simp only [GcdState.column, List.getD_eq_getElem?_getD, List.getElem?_map]
  cases state.columns[index]? <;> rfl

/-- What the caller of a loop reads off its last state. -/
lemma Ends.answer {loop : Option (Run GcdState)} {pair : ℤ × ℤ} {columns : List (ℤ × ℤ)}
    (h : Ends loop pair columns) :
    (FairDivisions 0 pair.1.natAbs pair.2.natAbs ∧ ∃ (a b : ℤ) (final : GcdState),
        loop = some (.ok final) ∧ a * pair.1 + b * pair.2 = Int.gcd pair.1 pair.2 ∧
        final.fixOld.oldR = ofInt (Int.gcd pair.1 pair.2) ∧
        ∀ index, (final.fixOld.column index).1
          = (columns.map fun column => ofInt (a * column.1 + b * column.2)).getD index .zero) ∨
      (¬FairDivisions 0 pair.1.natAbs pair.2.natAbs ∧ loop = some (.error .indexOutOfRange)) := by
  rcases h with ⟨hfair, final, hloop, hattains⟩ | h
  · obtain ⟨a, b, hgcd, hold, hcolumns⟩ := hattains.fixOld
    rw [hgcd] at hold
    refine .inl ⟨hfair, a, b, final, hloop, hgcd, hold, fun index => ?_⟩
    rw [GcdState.column_fst, hcolumns]
  · exact .inr h

namespace GcdCall

variable {fuel : ℕ} (scratch : LimbScratch)

/-- `extended_gcd_with_scratch`. -/
lemma extended_iff {a b : ℤ} (h : b.natAbs < fuel) :
    (∃ answer : List ℤ, (GcdCall.extended (ofInt a) (ofInt b)).run fuel scratch
        = some (.ok (answer.map ofInt)) ∧ (GcdCall.extended (ofInt a) (ofInt b)).Exact answer) ↔
      FairDivisions 0 a.natAbs b.natAbs := by
  have hstart : (⟨ofInt a, ofInt b, [(.one, .zero), (.zero, .one)], scratch⟩ : GcdState)
      = GcdState.ofInts (a, b) [(1, 0), (0, 1)] scratch := by
    simp [GcdState.ofInts, ofInt_one, ofInt_zero]
  simp only [run, extendedGcdWithScratch, hstart]
  rcases (gcdLoop_ends fuel (a, b) h [(1, 0), (0, 1)] scratch).answer with
    ⟨hfair, x, y, final, hloop, hgcd, hold, hcolumns⟩ | ⟨hunfair, hloop⟩
  · rw [hloop]
    refine ⟨fun _ => hfair, fun _ => ⟨[x, y, Int.gcd a b], ?_, ?_⟩⟩
    · simp [hold, hcolumns, pure_eq]
    · simpa only [Exact, toInt_ofInt, true_and] using hgcd
  · rw [hloop]
    refine ⟨?_, fun hfair => absurd hfair hunfair⟩
    rintro ⟨answer, hrun, -⟩
    cases Option.some.inj hrun

/-- `left_extended_gcd_with_scratch`. -/
lemma leftExtended_iff {a b : ℤ} (h : b.natAbs < fuel) :
    (∃ answer : List ℤ, (GcdCall.leftExtended (ofInt a) (ofInt b)).run fuel scratch
        = some (.ok (answer.map ofInt)) ∧
        (GcdCall.leftExtended (ofInt a) (ofInt b)).Exact answer) ↔
      FairDivisions 0 a.natAbs b.natAbs := by
  have hstart : (⟨ofInt a, ofInt b, [(.one, .zero)], scratch⟩ : GcdState)
      = GcdState.ofInts (a, b) [(1, 0)] scratch := by
    simp [GcdState.ofInts, ofInt_one, ofInt_zero]
  simp only [run, leftExtendedGcdWithScratch, hstart]
  rcases (gcdLoop_ends fuel (a, b) h [(1, 0)] scratch).answer with
    ⟨hfair, x, y, final, hloop, hgcd, hold, hcolumns⟩ | ⟨hunfair, hloop⟩
  · rw [hloop]
    refine ⟨fun _ => hfair, fun _ => ⟨[x, Int.gcd a b], ?_, ?_⟩⟩
    · simp [hold, hcolumns, pure_eq]
    · simp only [Exact, toInt_ofInt, true_and]
      exact ⟨-y, by linear_combination hgcd⟩
  · rw [hloop]
    refine ⟨?_, fun hfair => absurd hfair hunfair⟩
    rintro ⟨answer, hrun, -⟩
    cases Option.some.inj hrun

/-- `left_extended_gcd_positive_with_scratch`, which exchanges its operands first. -/
lemma leftExtendedPositive_iff {m n : ℕ} (h : n < fuel) :
    (∃ answer : List ℤ, (GcdCall.leftExtendedPositive (ofInt m) (ofInt n)).run fuel scratch
        = some (.ok (answer.map ofInt)) ∧
        (GcdCall.leftExtendedPositive (ofInt m) (ofInt n)).Exact answer) ↔
      FairDivisions 0 m n := by
  simp only [run, leftExtendedGcdPositiveWithScratch, isNegative_ofInt, absCmp_ofInt,
    Int.natAbs_natCast]
  rw [if_neg (by simp)]
  by_cases hlt : m < n
  · have hstart : (⟨ofInt n, ofInt m, [(.zero, .one)], scratch⟩ : GcdState)
        = GcdState.ofInts (n, m) [(0, 1)] scratch := by
      simp [GcdState.ofInts, ofInt_one, ofInt_zero]
    rw [if_pos (Nat.compare_eq_lt.mpr hlt), hstart, fairDivisions_swap hlt]
    rcases (positiveGcdLoop_ends fuel (hlt.trans h) hlt.le [(0, 1)] scratch).answer with
      ⟨hfair, x, y, final, hloop, hgcd, hold, hcolumns⟩ | ⟨hunfair, hloop⟩
    · rw [hloop]
      refine ⟨fun _ => by simpa using hfair, fun _ => ⟨[y, Int.gcd m n], ?_, ?_⟩⟩
      · rw [Int.gcd_comm] at hold
        simp [hold, hcolumns, pure_eq]
      · rw [Int.gcd_comm] at hgcd
        simp only [Exact, toInt_ofInt, true_and]
        exact ⟨-x, by linear_combination hgcd⟩
    · rw [hloop]
      refine ⟨?_, fun hfair => absurd (by simpa using hfair) hunfair⟩
      rintro ⟨answer, hrun, -⟩
      cases Option.some.inj hrun
  · have hstart : (⟨ofInt m, ofInt n, [(.one, .zero)], scratch⟩ : GcdState)
        = GcdState.ofInts (m, n) [(1, 0)] scratch := by
      simp [GcdState.ofInts, ofInt_one, ofInt_zero]
    rw [if_neg (by rw [Nat.compare_eq_lt]; exact hlt), hstart]
    rcases (positiveGcdLoop_ends fuel h (Nat.le_of_not_lt hlt) [(1, 0)] scratch).answer with
      ⟨hfair, x, y, final, hloop, hgcd, hold, hcolumns⟩ | ⟨hunfair, hloop⟩
    · rw [hloop]
      refine ⟨fun _ => by simpa using hfair, fun _ => ⟨[x, Int.gcd m n], ?_, ?_⟩⟩
      · simp [hold, hcolumns, pure_eq]
      · simp only [Exact, toInt_ofInt, true_and]
        exact ⟨-y, by linear_combination hgcd⟩
    · rw [hloop]
      refine ⟨?_, fun hfair => absurd (by simpa using hfair) hunfair⟩
      rintro ⟨answer, hrun, -⟩
      cases Option.some.inj hrun

/-- The cofactors of the partial gcd under any matrix of unit determinant. -/
lemma cofactors_act (g : Unimodular) (r2 r1 : ℤ) :
    Cofactors r2 r1 (g.act (0, -1)) (g.act (r2, r1)) := by
  simp only [Cofactors, Unimodular.act]
  refine ⟨⟨g.a, by ring⟩, ⟨g.c, by ring⟩, ?_⟩
  rw [show (g.a * r2 + g.b * r1) * (g.c * 0 + g.d * -1)
      - (g.c * r2 + g.d * r1) * (g.a * 0 + g.b * -1) = -((g.a * g.d - g.b * g.c) * r2) by ring,
    Int.natAbs_neg, Int.natAbs_mul, Int.isUnit_iff_natAbs_eq.mp g.isUnit, one_mul]

lemma xgcdPartial_start (r2 r1 : ℤ) :
    (⟨ofInt r2, ofInt r1, [(.zero, fromI128 (-1))], scratch⟩ : GcdState)
      = GcdState.ofInts (r2, r1) [(0, -1)] scratch := by
  simp [GcdState.ofInts, ofInt_zero, fromI128_neg_one]

/-- `xgcd_partial_with_scratch`. -/
lemma xgcdPartial_iff {m n limit : ℕ} (h : n < fuel) (hle : n ≤ m) :
    (∃ answer : List ℤ, (GcdCall.xgcdPartial (ofInt m) (ofInt n) (ofInt limit)).run fuel scratch
        = some (.ok (answer.map ofInt)) ∧
        (GcdCall.xgcdPartial (ofInt m) (ofInt n) (ofInt limit)).Exact answer) ↔
      FairDivisions limit m n := by
  simp only [run, xgcdPartialWithScratch, xgcdPartial_start]
  rcases partialGcdLoop_ends limit fuel h hle [(0, -1)] scratch with
    ⟨hfair, g, m', n', after, hloop, hact, hlimit, hle'⟩ | ⟨hunfair, hloop⟩
  · rw [hloop]
    refine ⟨fun _ => hfair, fun _ =>
      ⟨[(g.act (0, -1)).1, (g.act (0, -1)).2, m', n'], ?_, ?_⟩⟩
    · simp [GcdState.ofInts, GcdState.column, isNegative_ofInt, pure_eq]
    · have hgcd := g.gcd_act ((m : ℤ), (n : ℤ))
      have hcofactors := cofactors_act g m n
      rw [hact] at hgcd hcofactors
      simp only [Exact, toInt_ofInt]
      exact ⟨Int.natCast_nonneg n', by omega, by omega, hgcd, hcofactors⟩
  · rw [hloop]
    refine ⟨?_, fun hfair => absurd hfair hunfair⟩
    rintro ⟨answer, hrun, -⟩
    cases Option.some.inj hrun

/-- Every turn acts by a matrix of unit determinant. -/
lemma xgcdPartial_preserves {m n : ℕ} (hle : n ≤ m) (limit : ℕ) :
    (GcdCall.xgcdPartial (ofInt m) (ofInt n) (ofInt limit)).PreservesCofactors scratch := by
  intro state hvisits
  rw [xgcdPartial_start] at hvisits
  simp only [toInt_ofInt]
  have key : ∃ (g : Unimodular) (m' n' : ℕ) (after : LimbScratch),
      state = GcdState.ofInts ((m' : ℤ), (n' : ℤ)) [g.act (0, -1)] after ∧
      g.act (m, n) = ((m' : ℤ), (n' : ℤ)) ∧ n' ≤ m' := by
    induction hvisits with
    | start => exact ⟨.one, m, n, scratch, by simp, by simp, hle⟩
    | @turn state next h hzero habove hnext ih =>
      obtain ⟨g, m', n', after, rfl, hact, hle'⟩ := ih
      have hpos : 0 < n' := by
        have hne : (GcdState.ofInts ((m' : ℤ), (n' : ℤ)) [g.act (0, -1)] after).r.isZero
            = decide ((n' : ℤ) = 0) := isZero_ofInt n'
        rw [hne, decide_eq_false_iff_not] at hzero
        omega
      rcases GcdState.turn_ofInts hpos hle' limit [g.act (0, -1)] after with
        ⟨-, hturn⟩ | ⟨g', m'', n'', last, hturn, hact', -, hle'', -⟩
      · rw [hturn] at hnext
        cases hnext
      · rw [hturn] at hnext
        refine ⟨g'.mul g, m'', n'', last, ?_, ?_, hle''⟩
        · rw [← Except.ok.inj hnext, Unimodular.mul_act]
          rfl
        · rw [Unimodular.mul_act, hact, hact']
  obtain ⟨g, m', n', after, rfl, hact, -⟩ := key
  refine ⟨_, _, after, rfl, ?_⟩
  rw [← hact]
  exact cofactors_act g m n

lemma exactBatches : ExactBatches := by
  intro threshold oldR r hthreshold hold hr hthreshold0 hr0 hle
  rw [hthreshold.eq_ofInt, hold.eq_ofInt, hr.eq_ofInt]
  simp only [toInt_ofInt]
  obtain ⟨limit, hlimit⟩ := Int.eq_ofNat_of_zero_le hthreshold0
  obtain ⟨n, hn⟩ := Int.eq_ofNat_of_zero_le hr0
  obtain ⟨m, hm⟩ := Int.eq_ofNat_of_zero_le (hr0.trans hle)
  rw [hlimit, hn, hm]
  obtain ⟨batch, pair, hbatch, hdescends, -, hm', hn', -, hends⟩ :=
    lehmerBatch_spec (show n ≤ m by omega) limit
  exact ⟨batch, pair, hbatch, hdescends.iterate, hm', hn', hends⟩

/-- A call meets its specification exactly where no division of the Euclidean sequence of its
operands fails. -/
theorem meets_iff (call : GcdCall) (h : call.Admissible) (hfuel : call.turns < fuel) :
    call.Meets fuel scratch ↔ call.Fair := by
  unfold Meets
  cases call with
  | extended left right =>
    obtain ⟨hleft, hright⟩ := h
    rw [and_iff_left ⟨trivial, exactBatches⟩, hleft.eq_ofInt, hright.eq_ofInt]
    simpa only [Fair, toInt_ofInt] using extended_iff scratch hfuel
  | leftExtended left right =>
    obtain ⟨hleft, hright⟩ := h
    rw [and_iff_left ⟨trivial, exactBatches⟩, hleft.eq_ofInt, hright.eq_ofInt]
    simpa only [Fair, toInt_ofInt] using leftExtended_iff scratch hfuel
  | leftExtendedPositive left right =>
    obtain ⟨hleft, hright, hleft0, hright0⟩ := h
    obtain ⟨m, hm⟩ := Int.eq_ofNat_of_zero_le hleft0
    obtain ⟨n, hn⟩ := Int.eq_ofNat_of_zero_le hright0
    simp only [turns, hn] at hfuel
    rw [and_iff_left ⟨trivial, exactBatches⟩, hleft.eq_ofInt, hright.eq_ofInt, hm, hn]
    simpa only [Fair, toInt_ofInt, Int.natAbs_natCast] using leftExtendedPositive_iff scratch hfuel
  | xgcdPartial r2 r1 threshold =>
    obtain ⟨hr2, hr1, hthreshold, hr10, hle, hthreshold0⟩ := h
    obtain ⟨limit, hlimit⟩ := Int.eq_ofNat_of_zero_le hthreshold0
    obtain ⟨n, hn⟩ := Int.eq_ofNat_of_zero_le hr10
    obtain ⟨m, hm⟩ := Int.eq_ofNat_of_zero_le (hr10.trans hle)
    simp only [turns, hn] at hfuel
    have hle' : n ≤ m := by omega
    rw [hr2.eq_ofInt, hr1.eq_ofInt, hthreshold.eq_ofInt, hm, hn, hlimit,
      and_iff_left ⟨xgcdPartial_preserves scratch hle' limit, exactBatches⟩]
    simpa only [Fair, toInt_ofInt, Int.natAbs_natCast] using xgcdPartial_iff scratch hfuel hle'

/-- A call whose operands have two limbs. -/
theorem meets_twoLimbs :
    (GcdCall.extended (ofInt 37580963851001390495662732) (ofInt 17179869189000635655160105)).Meets
      (10 ^ 26) .default := by
  have fair : FairDivisions 0 37580963851001390495662732 17179869189000635655160105 := by
    refine .step (by decide +kernel) (.step (by decide +kernel) (.step (by decide +kernel) ?_))
    exact fairDivisions_of_lt_base (by decide +kernel) 0 _
  refine (meets_iff .default (.extended (ofInt 37580963851001390495662732)
    (ofInt 17179869189000635655160105)) ⟨canonical_ofInt _, canonical_ofInt _⟩ ?_).mpr ?_
  · simp only [turns, toInt_ofInt]
    decide
  · simp only [Fair, toInt_ofInt]
    exact fair

/-- Operands whose first division fails: the first batch takes no step. -/
theorem extended_panics :
    (GcdCall.extended ⟨.positive, [0, 4, 0, 2 ^ 63]⟩ ⟨.positive, [5, 0, 2 ^ 63]⟩).Admissible ∧
      (GcdCall.extended ⟨.positive, [0, 4, 0, 2 ^ 63]⟩ ⟨.positive, [5, 0, 2 ^ 63]⟩).run 1 .default
        = some (.error .indexOutOfRange) ∧
      ∀ fuel scratch,
        (GcdCall.extended ⟨.positive, [0, 4, 0, 2 ^ 63]⟩ ⟨.positive, [5, 0, 2 ^ 63]⟩).turns < fuel →
        ¬(GcdCall.extended ⟨.positive, [0, 4, 0, 2 ^ 63]⟩ ⟨.positive, [5, 0, 2 ^ 63]⟩).Meets fuel
          scratch := by
  have hleft : (⟨.positive, [0, 4, 0, 2 ^ 63]⟩ : LimbInt).Canonical :=
    canonical_positive (by decide) (by decide) (by decide)
  have hright : (⟨.positive, [5, 0, 2 ^ 63]⟩ : LimbInt).Canonical :=
    canonical_positive (by decide) (by decide) (by decide)
  have hfails : firstGuessTooLarge [0, 4, 0, 2 ^ 63] [5, 0, 2 ^ 63] = true := by decide +kernel
  refine ⟨⟨hleft, hright⟩, by decide +kernel, fun fuel scratch hfuel hmeets => ?_⟩
  obtain ⟨hanswer, -⟩ := hmeets
  have hl := congrArg LimbInt.limbs hleft.eq_ofInt
  have hr := congrArg LimbInt.limbs hright.eq_ofInt
  rw [limbs_ofInt] at hl hr
  rw [hleft.eq_ofInt, hright.eq_ofInt] at hanswer
  have hfair := (extended_iff scratch hfuel).mp hanswer
  refine hfair.not_bad (Int.natAbs_pos.mpr fun hzero => ?_) ?_
  · rw [hzero] at hr
    simp at hr
  · rw [DivisionFails, ← hl, ← hr]
    exact hfails

end GcdCall

end Vdf

end Iuna
