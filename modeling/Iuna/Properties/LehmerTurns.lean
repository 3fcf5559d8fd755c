import Iuna.Library.Unimodular
import Iuna.Properties.LehmerBatches

/-!
# The turns of the Euclidean algorithms

A batch and an exact step act on the remainders and on every column of cofactors by one matrix of
unit determinant.
-/

namespace Iuna

namespace Vdf

open LimbInt

/-- The division of two naturals fails on its first guess. -/
abbrev DivisionFails (m n : ℕ) : Prop := firstGuessTooLarge (magnitude m) (magnitude n) = true

/-- No division of the Euclidean sequence of two naturals fails. -/
abbrev FairDivisions (limit m n : ℕ) : Prop := Euclid.Fair DivisionFails limit m n

/-- A quotient that a batch takes is never one that the division fails on. -/
lemma not_divisionFails {m n : ℕ} (hn : 0 < n) (h : m / n < 2 ^ 63) : ¬DivisionFails m n := by
  intro hfails
  have hle := mul_le_of_firstGuessTooLarge hn.ne' hfails
  rw [show base / 2 = 2 ^ 63 by decide] at hle
  have hdiv := (Nat.le_div_iff_mul_le hn).mpr hle
  omega

/-- The state of the remainders, the columns and a scratch. -/
def GcdState.ofInts (pair : ℤ × ℤ) (columns : List (ℤ × ℤ)) (scratch : LimbScratch) : GcdState :=
  ⟨ofInt pair.1, ofInt pair.2, columns.map fun column => (ofInt column.1, ofInt column.2), scratch⟩

/-! ## A batch -/

section Batch

variable {batch : Batch} (hwithin : batch.Within (2 ^ 63)) (g : Unimodular) (ha : batch.bb2 = g.a)
  (hb : batch.aa2 = g.b) (hc : batch.bb1 = g.c) (hd : batch.aa1 = g.d)

include hwithin ha hb hc hd

lemma combinePair_ofInt (v : ℤ × ℤ) (scratch : LimbScratch) :
    ∃ after, combinePair batch (ofInt v.1, ofInt v.2) scratch
      = .ok ((ofInt (g.act v).1, ofInt (g.act v).2), after) := by
  obtain ⟨haa₂, haa₁, hbb₂, hbb₁⟩ := hwithin
  push_cast at haa₂ haa₁ hbb₂ hbb₁
  have hI : ∀ z : ℤ, -2 ^ 63 < z ∧ z < 2 ^ 63 → IsI128 z := by
    intro z hz
    unfold IsI128
    omega
  obtain ⟨after, hold⟩ := linearCombinationI128Into_ofInt v.1 v.2 (hI _ hbb₂) (hI _ haa₂)
    .zero scratch
  obtain ⟨last, hnew⟩ := linearCombinationI128Into_ofInt v.2 v.1 (hI _ haa₁) (hI _ hbb₁)
    .zero after
  refine ⟨last, ?_⟩
  simp only [combinePair, hold, ok_bind, hnew, pure_eq, Unimodular.act, ← ha, ← hb, ← hc, ← hd]
  rw [show batch.bb2 * v.1 + batch.aa2 * v.2 = v.1 * batch.bb2 + v.2 * batch.aa2 by ring,
    show batch.bb1 * v.1 + batch.aa1 * v.2 = v.2 * batch.aa1 + v.1 * batch.bb1 by ring]

lemma combineColumns_ofInt (columns : List (ℤ × ℤ)) (scratch : LimbScratch) :
    ∃ after, combineColumns batch (columns.map fun column => (ofInt column.1, ofInt column.2))
      scratch = .ok ((columns.map g.act).map fun column => (ofInt column.1, ofInt column.2),
        after) := by
  induction columns generalizing scratch with
  | nil => exact ⟨scratch, rfl⟩
  | cons column columns ih =>
    obtain ⟨after, hpair⟩ := combinePair_ofInt hwithin g ha hb hc hd column scratch
    obtain ⟨last, hrest⟩ := ih after
    exact ⟨last, by simp only [List.map_cons, combineColumns, hpair, ok_bind, hrest, pure_eq]⟩

/-- A batch acts by its cofactors, and corrects no sign where the remainders are naturals. -/
lemma GcdState.combine_ofInts (pair : ℤ × ℤ) (columns : List (ℤ × ℤ)) (scratch : LimbScratch)
    (hold : 0 ≤ (g.act pair).1) (hnew : 0 ≤ (g.act pair).2) :
    ∃ after, (GcdState.ofInts pair columns scratch).combine batch
      = .ok (GcdState.ofInts (g.act pair) (columns.map g.act) after) := by
  obtain ⟨after, hpair⟩ := combinePair_ofInt hwithin g ha hb hc hd pair scratch
  obtain ⟨last, hcolumns⟩ := combineColumns_ofInt hwithin g ha hb hc hd columns after
  refine ⟨last, ?_⟩
  simp only [GcdState.combine, GcdState.ofInts, hpair, ok_bind, hcolumns, pure_eq]
  rw [GcdState.fixOld, if_neg (by simp [isNegative_ofInt, hold]), GcdState.fixNew,
    if_neg (by simp [isNegative_ofInt, hnew])]

end Batch

/-! ## An exact step -/

lemma stepColumns_ofInt (q : ℤ) (columns : List (ℤ × ℤ)) :
    stepColumns (ofInt q) (columns.map fun column => (ofInt column.1, ofInt column.2))
      = .ok ((columns.map (Unimodular.division q).act).map
          fun column => (ofInt column.1, ofInt column.2)) := by
  induction columns with
  | nil => rfl
  | cons column columns ih =>
    simp only [List.map_cons, stepColumns, mulInto_ofInt, ok_bind, subAssign_ofInt, ih, pure_eq,
      Unimodular.division_act]

/-- The exact step fails with its division, and acts by its quotient otherwise. -/
lemma GcdState.fallback_ofInts (pair : ℤ × ℤ) (h : pair.2 ≠ 0) (columns : List (ℤ × ℤ))
    (scratch : LimbScratch) :
    if DivisionFails pair.1.natAbs pair.2.natAbs then
      (GcdState.ofInts pair columns scratch).fallback = .error .indexOutOfRange
    else ∃ after, (GcdState.ofInts pair columns scratch).fallback
      = .ok (GcdState.ofInts ((Unimodular.division (pair.1.tdiv pair.2)).act pair)
          (columns.map (Unimodular.division (pair.1.tdiv pair.2)).act) after) := by
  have hdivision := divRemWithScratch_ofInt pair.1 h scratch
  by_cases hfails : DivisionFails pair.1.natAbs pair.2.natAbs
  · rw [if_pos hfails]
    rw [if_pos hfails] at hdivision
    simp only [GcdState.fallback, GcdState.ofInts, hdivision]
    rfl
  · rw [if_neg hfails]
    rw [if_neg hfails] at hdivision
    obtain ⟨after, hdivision⟩ := hdivision
    refine ⟨after, ?_⟩
    have hrest : pair.1.tmod pair.2 = pair.1 - pair.1.tdiv pair.2 * pair.2 := by
      rw [Int.tmod_def, mul_comm]
    simp only [GcdState.fallback, GcdState.ofInts, hdivision, ok_bind, stepColumns_ofInt, pure_eq,
      Unimodular.division_act, hrest]

/-! ## A turn -/

/-- A turn on two naturals fails with the division, and acts by a matrix otherwise: the second
remainder falls, and the rest of the Euclidean sequence is fair as before. -/
lemma GcdState.turn_ofInts {m n : ℕ} (hpos : 0 < n) (hle : n ≤ m) (threshold : ℕ)
    (columns : List (ℤ × ℤ)) (scratch : LimbScratch) :
    (DivisionFails m n ∧ (GcdState.ofInts (m, n) columns scratch).turn (ofInt threshold)
        = .error .indexOutOfRange) ∨
      ∃ (g : Unimodular) (m' n' : ℕ) (after : LimbScratch),
        (GcdState.ofInts (m, n) columns scratch).turn (ofInt threshold)
          = .ok (GcdState.ofInts ((m' : ℤ), (n' : ℤ)) (columns.map g.act) after) ∧
        g.act (m, n) = ((m' : ℤ), (n' : ℤ)) ∧ n' < n ∧ n' ≤ m' ∧
        ∀ limit, FairDivisions limit m n ↔ FairDivisions limit m' n' := by
  obtain ⟨batch, ⟨m', n'⟩, hbatch, hdescends, hwithin, hm', hn', hunit, -⟩ :=
    lehmerBatch_spec hle threshold
  have hturn : ∀ state : GcdState, state.oldR = ofInt m → state.r = ofInt n →
      state.turn (ofInt threshold) = if batch.steps ≠ 0 then state.combine batch
        else state.fallback := by
    intro state hold hr
    rw [GcdState.turn, hold, hr, hbatch, ok_bind]
  rw [hturn _ rfl rfl]
  by_cases hsteps : batch.steps = 0
  · rw [if_neg (by simpa using hsteps)]
    have hfallback := GcdState.fallback_ofInts (m, n) (by simpa using hpos.ne') columns
      scratch
    simp only [Int.natAbs_natCast] at hfallback
    by_cases hfails : DivisionFails m n
    · rw [if_pos hfails] at hfallback
      exact .inl ⟨hfails, hfallback⟩
    · rw [if_neg hfails] at hfallback
      obtain ⟨after, hfallback⟩ := hfallback
      have hact : (Unimodular.division ((m : ℤ).tdiv n)).act (m, n)
          = ((n : ℤ), ((m % n : ℕ) : ℤ)) := by
        rw [Unimodular.division_act, Int.natCast_mod, ← Int.tmod_eq_emod_of_nonneg (by omega),
          Int.tmod_def, mul_comm]
      rw [hact] at hfallback
      exact .inr ⟨_, n, m % n, after, hfallback, hact, Nat.mod_lt m hpos, (Nat.mod_lt m hpos).le,
        fun limit => Euclid.Fair.step_iff hpos hfails⟩
  · rw [if_pos (by simpa using hsteps)]
    let g : Unimodular := ⟨batch.bb2, batch.aa2, batch.bb1, batch.aa1, hunit⟩
    have hact : g.act (m, n) = ((m' : ℤ), (n' : ℤ)) := by
      simp only [Unimodular.act, g, hm', hn']
      ext <;> ring
    obtain ⟨after, hcombine⟩ := GcdState.combine_ofInts hwithin g rfl rfl rfl rfl (m, n) columns
      scratch (by rw [hact]; exact Int.natCast_nonneg m')
      (by rw [hact]; exact Int.natCast_nonneg n')
    rw [hact] at hcombine
    refine .inr ⟨g, m', n', after, hcombine, hact, hdescends.lt hpos hsteps,
      (hdescends.le hpos hle).2, fun limit => ?_⟩
    exact Euclid.Fair.descends_iff hdescends fun m n hn hquot => not_divisionFails hn hquot

end Vdf

end Iuna
