import Iuna.Domain.FormComposition
import Iuna.Library.Fueled
import Iuna.Properties.BatchedGcds

/-!
# The gcds of a composition

What a composition reads off the batched gcds: each settles, on a gcd with its cofactors or on the
fault of a division.  The cofactors of the partial gcd moreover have opposite signs, which orders
its two remainders.
-/

namespace Iuna

namespace Vdf

open LimbInt Fueled

/-- The fault of a long division whose first guess is too large. -/
abbrev Overrun (fault : Fault) : Prop := fault = .indexOutOfRange

/-! ## Divisions -/

lemma divWithScratch_holds (x : ℤ) {y : ℤ} (hy : y ≠ 0) (scratch : LimbScratch) :
    Holds Overrun (fun result => ∃ after, result = (ofInt (x.tdiv y), after))
      ((ofInt x).divWithScratch (ofInt y) scratch) := by
  have hdivision := divWithScratch_ofInt x hy scratch
  split at hdivision
  · rw [hdivision]
    exact rfl
  · obtain ⟨after, hdivision⟩ := hdivision
    rw [hdivision]
    exact ⟨after, rfl⟩

/-- An exact division. -/
lemma divExact_holds {x y q : ℤ} (hy : y ≠ 0) (exact : x = y * q) (scratch : LimbScratch) :
    Holds Overrun (fun result => ∃ after, result = (ofInt q, after))
      ((ofInt x).divWithScratch (ofInt y) scratch) := by
  have hdivision := divWithScratch_holds x hy scratch
  rwa [exact, Int.mul_tdiv_cancel_left q hy, ← exact] at hdivision

lemma remWithScratch_holds (x : ℤ) {y : ℤ} (hy : y ≠ 0) (scratch : LimbScratch) :
    Holds Overrun (fun result => ∃ after, result = (ofInt (x.tmod y), after))
      ((ofInt x).remWithScratch (ofInt y) scratch) := by
  have hdivision := remWithScratch_ofInt x hy scratch
  split at hdivision
  · rw [hdivision]
    exact rfl
  · obtain ⟨after, hdivision⟩ := hdivision
    rw [hdivision]
    exact ⟨after, rfl⟩

lemma divFloorWithScratch_holds (x : ℤ) {y : ℤ} (hy : y ≠ 0) (scratch : LimbScratch) :
    Holds Overrun (fun result => ∃ after, result = (ofInt (x.fdiv y), after))
      ((ofInt x).divFloorWithScratch (ofInt y) scratch) := by
  have hdivision := divFloorWithScratch_ofInt x hy scratch
  split at hdivision
  · rw [hdivision]
    exact rfl
  · obtain ⟨after, hdivision⟩ := hdivision
    rw [hdivision]
    exact ⟨after, rfl⟩

lemma dvd_positiveRemainder (x y : ℤ) : y ∣ positiveRemainder x y - x := by
  have hmod := Int.tmod_def x y
  rw [positiveRemainder]
  split
  · exact ⟨1 - x.tdiv y, by rw [hmod]; ring⟩
  · exact ⟨-x.tdiv y, by rw [hmod]; ring⟩

/-- The remainder is congruent for every modulus, and for a positive one it is reduced. -/
lemma modPositiveWithScratch_holds (x : ℤ) {y : ℤ} (hy : y ≠ 0) (scratch : LimbScratch) :
    Holds Overrun (fun result => ∃ z after, result = (ofInt z, after) ∧ y ∣ z - x ∧
        (0 < y → 0 ≤ z ∧ z < y))
      ((ofInt x).modPositiveWithScratch (ofInt y) scratch) := by
  have hdivision := modPositiveWithScratch_ofInt x hy scratch
  split at hdivision
  · rw [hdivision]
    exact rfl
  · obtain ⟨after, hdivision⟩ := hdivision
    rw [hdivision]
    refine ⟨_, after, rfl, dvd_positiveRemainder x y, fun hpos => ?_⟩
    rw [(positiveRemainder_eq_iff hy).mpr (.inr hpos)]
    exact ⟨Int.emod_nonneg x hy, Int.emod_lt_of_pos x hpos⟩

/-! ## The signs of the partial cofactors -/

/-- A pair of cofactors of opposite signs, the second not zero. -/
def Opposed (v : ℤ × ℤ) : Prop := v.1 * v.2 ≤ 0 ∧ v.2 ≠ 0

/-- Coefficients of alternating signs keep cofactors opposed. -/
lemma Opposed.combine {v : ℤ × ℤ} (h : Opposed v) {w x y z : ℤ} (hw : 0 ≤ w) (hx : 0 ≤ x)
    (hy : 0 ≤ y) (hz : 0 < z) :
    Opposed (w * v.1 - x * v.2, z * v.2 - y * v.1) := by
  obtain ⟨hsign, hne⟩ := h
  refine ⟨?_, ?_⟩
  · have h₁ := mul_nonneg hw hy
    have h₂ := mul_nonneg hx hz.le
    have h₃ : (w * z + x * y) * (v.1 * v.2) ≤ 0 :=
      mul_nonpos_of_nonneg_of_nonpos (by positivity) hsign
    have h₄ := mul_nonneg h₁ (mul_self_nonneg v.1)
    have h₅ := mul_nonneg h₂ (mul_self_nonneg v.2)
    dsimp only
    nlinarith
  · dsimp only
    rcases lt_or_gt_of_ne hne with hneg | hpos
    · have hfirst : 0 ≤ v.1 := by nlinarith
      have h₁ := mul_nonneg hy hfirst
      have h₂ := mul_neg_of_pos_of_neg hz hneg
      omega
    · have hfirst : v.1 ≤ 0 := by nlinarith
      have h₁ := mul_nonpos_of_nonneg_of_nonpos hy hfirst
      have h₂ := mul_pos hz hpos
      omega

lemma Opposed.neg {v : ℤ × ℤ} (h : Opposed v) : Opposed (-v.1, -v.2) :=
  ⟨by simpa using h.1, by simpa using h.2⟩

/-- The exact step. -/
lemma Opposed.division {v : ℤ × ℤ} (h : Opposed v) {q : ℤ} (hq : 0 < q) :
    Opposed ((Unimodular.division q).act v) := by
  obtain ⟨hsign, hne⟩ := h
  rw [Unimodular.division_act]
  have hsquare : 0 < v.2 * v.2 := mul_self_pos.mpr hne
  refine ⟨by dsimp only; nlinarith, fun hzero => ?_⟩
  dsimp only at hzero
  have hfirst : v.1 = q * v.2 := by omega
  rw [hfirst] at hsign
  nlinarith

/-- The action of a batch. -/
lemma Batch.Follows.opposed {batch : Batch} {m n K : ℕ} {pair : ℕ × ℕ}
    (f : batch.Follows m n K pair) (hle : n ≤ m) (hless : pair.2 < n) {v : ℤ × ℤ}
    (h : Opposed v) :
    Opposed (batch.bb2 * v.1 + batch.aa2 * v.2, batch.bb1 * v.1 + batch.aa1 * v.2) := by
  obtain ⟨x₂, x₁, y₂, y₁, hs, f⟩ := f
  unfold Batch.Signed at hs
  split at f
  · rename_i hparity
    rw [if_pos hparity] at hs
    obtain ⟨haa₂, haa₁, hbb₂, hbb₁⟩ := hs
    have hcombined := h.combine (Int.natCast_nonneg y₂) (Int.natCast_nonneg x₂)
      (Int.natCast_nonneg y₁) (Int.natCast_pos.mpr f.x₁_pos)
    rw [haa₂, haa₁, hbb₂, hbb₁]
    convert hcombined using 2 <;> ring
  · rename_i hparity
    rw [if_neg hparity] at hs
    obtain ⟨hbb₂, hbb₁, haa₂, haa₁⟩ := hs
    have hy₁ : 0 < y₁ := by
      -- else the second remainder is a multiple of the larger operand
      by_contra hzero
      have hlow := f.low
      rw [Nat.eq_zero_of_not_pos hzero] at hlow
      have hmul := Nat.le_mul_of_pos_left m f.x₁_pos
      omega
    have hcombined := (h.combine (Int.natCast_nonneg x₂) (Int.natCast_nonneg y₂)
      (Int.natCast_nonneg x₁) (Int.natCast_pos.mpr hy₁)).neg
    rw [haa₂, haa₁, hbb₂, hbb₁]
    convert hcombined using 2 <;> ring

/-- A turn keeps the cofactors of every column opposed. -/
lemma GcdState.turn_opposed {m n : ℕ} (hpos : 0 < n) (hle : n ≤ m) (threshold : ℕ)
    (columns : List (ℤ × ℤ)) (scratch : LimbScratch) {next : GcdState}
    (hturn : (GcdState.ofInts (m, n) columns scratch).turn (ofInt threshold) = .ok next)
    (hcolumns : ∀ v ∈ columns, Opposed v) :
    ∃ (m' n' : ℕ) (columns' : List (ℤ × ℤ)) (after : LimbScratch),
      next = GcdState.ofInts ((m' : ℤ), (n' : ℤ)) columns' after ∧ n' < n ∧ n' ≤ m' ∧
      ∀ v ∈ columns', Opposed v := by
  obtain ⟨batch, ⟨m', n'⟩, K, hbatch, hdescends, hwithin, f, -⟩ :=
    lehmerBatch_follows hle threshold
  obtain ⟨hm', hn', hunit⟩ := f.cofactors
  have hstate : (GcdState.ofInts (m, n) columns scratch).turn (ofInt threshold)
      = if batch.steps ≠ 0 then (GcdState.ofInts (m, n) columns scratch).combine batch
        else (GcdState.ofInts (m, n) columns scratch).fallback := by
    rw [GcdState.turn, show (GcdState.ofInts (m, n) columns scratch).oldR = ofInt m from rfl,
      show (GcdState.ofInts (m, n) columns scratch).r = ofInt n from rfl, hbatch, ok_bind]
  rw [hstate] at hturn
  by_cases hsteps : batch.steps = 0
  · rw [if_neg (by simpa using hsteps)] at hturn
    have hfallback := GcdState.fallback_ofInts (m, n) (by simpa using hpos.ne') columns scratch
    split at hfallback
    · rw [hfallback] at hturn
      cases hturn
    · obtain ⟨after, hfallback⟩ := hfallback
      rw [hfallback] at hturn
      have hact : (Unimodular.division ((m : ℤ).tdiv n)).act (m, n)
          = ((n : ℤ), ((m % n : ℕ) : ℤ)) := by
        rw [Unimodular.division_act, Int.natCast_mod, ← Int.tmod_eq_emod_of_nonneg (by omega),
          Int.tmod_def, mul_comm]
      have hquot : (0 : ℤ) < (m : ℤ).tdiv n := by
        rw [← Int.ofNat_tdiv]
        exact_mod_cast Nat.div_pos hle hpos
      dsimp only at hturn
      rw [hact] at hturn
      refine ⟨n, m % n, _, after, (Except.ok.inj hturn).symm, Nat.mod_lt m hpos,
        (Nat.mod_lt m hpos).le, ?_⟩
      simp only [List.mem_map, forall_exists_index, and_imp, forall_apply_eq_imp_iff₂]
      exact fun v hv => (hcolumns v hv).division hquot
  · rw [if_pos (by simpa using hsteps)] at hturn
    let g : Unimodular := ⟨batch.bb2, batch.aa2, batch.bb1, batch.aa1, hunit⟩
    have hact : g.act (m, n) = ((m' : ℤ), (n' : ℤ)) := by
      simp only [Unimodular.act, g, hm', hn']
      ext <;> ring
    obtain ⟨after, hcombine⟩ := GcdState.combine_ofInts hwithin g rfl rfl rfl rfl (m, n) columns
      scratch (by rw [hact]; exact Int.natCast_nonneg m')
      (by rw [hact]; exact Int.natCast_nonneg n')
    rw [hact] at hcombine
    rw [hcombine] at hturn
    have hless : n' < n := hdescends.lt hpos hsteps
    refine ⟨m', n', _, after, (Except.ok.inj hturn).symm, hless, (hdescends.le hpos hle).2, ?_⟩
    simp only [List.mem_map, forall_exists_index, and_imp, forall_apply_eq_imp_iff₂]
    exact fun v hv => f.opposed hle hless (hcolumns v hv)

/-- The loop of the partial gcd ends with opposed cofactors. -/
lemma partialGcdLoop_opposed (limit fuel : ℕ) {m n : ℕ} (hle : n ≤ m) (columns : List (ℤ × ℤ))
    (scratch : LimbScratch) (hcolumns : ∀ v ∈ columns, Opposed v) {final : GcdState}
    (hloop : partialGcdLoop (ofInt limit) fuel (GcdState.ofInts (m, n) columns scratch)
      = some (.ok final)) :
    ∃ pair columns' after, final = GcdState.ofInts pair columns' after ∧
      ∀ v ∈ columns', Opposed v := by
  induction fuel generalizing m n columns scratch with
  | zero => simp [partialGcdLoop] at hloop
  | succ fuel ih =>
    have hzeroIff : (GcdState.ofInts (m, n) columns scratch).r.isZero = decide ((n : ℤ) = 0) :=
      isZero_ofInt n
    simp only [partialGcdLoop, hzeroIff] at hloop
    split at hloop
    · rename_i hgoes
      have hpos : 0 < n := by
        simp only [Bool.and_eq_true, Bool.not_eq_true', decide_eq_false_iff_not] at hgoes
        omega
      split at hloop
      · cases Option.some.inj hloop
      · rename_i hturn
        obtain ⟨m', n', columns', after, rfl, -, hle', hcolumns'⟩ :=
          GcdState.turn_opposed hpos hle limit columns scratch hturn hcolumns
        exact ih hle' columns' after hcolumns' hloop
    · obtain rfl := Except.ok.inj (Option.some.inj hloop)
      exact ⟨_, columns, scratch, rfl, hcolumns⟩

/-! ## More turns -/

lemma partialGcdLoop_mono {threshold : LimbInt} {fuel more : ℕ} (hle : fuel ≤ more)
    {state : GcdState} {result : Run GcdState}
    (h : partialGcdLoop threshold fuel state = some result) :
    partialGcdLoop threshold more state = some result := by
  induction fuel generalizing more state with
  | zero => simp [partialGcdLoop] at h
  | succ fuel ih =>
    obtain ⟨more, rfl⟩ : ∃ k, more = k + 1 := ⟨more - 1, by omega⟩
    rw [partialGcdLoop] at h ⊢
    by_cases hgoes : (!state.r.isZero && state.r.cmp threshold = .gt) = true
    · rw [if_pos hgoes] at h ⊢
      cases hturn : state.turn threshold with
      | error fault => simpa only [hturn] using h
      | ok next =>
        simp only [hturn] at h ⊢
        exact ih (by omega) h
    · rwa [if_neg hgoes] at h ⊢

lemma positiveGcdLoop_mono {fuel more : ℕ} (hle : fuel ≤ more) {state : GcdState}
    {result : Run GcdState} (h : positiveGcdLoop fuel state = some result) :
    positiveGcdLoop more state = some result := by
  induction fuel generalizing more state with
  | zero => simp [positiveGcdLoop] at h
  | succ fuel ih =>
    obtain ⟨more, rfl⟩ : ∃ k, more = k + 1 := ⟨more - 1, by omega⟩
    rw [positiveGcdLoop] at h ⊢
    by_cases hzero : state.r.isZero = true
    · rwa [if_pos hzero] at h ⊢
    rw [if_neg hzero] at h ⊢
    by_cases hold : state.oldR.isOne = true
    · rwa [if_pos hold] at h ⊢
    rw [if_neg hold] at h ⊢
    by_cases hnew : state.r.isOne = true
    · rwa [if_pos hnew] at h ⊢
    rw [if_neg hnew] at h ⊢
    cases hturn : state.turn .zero with
    | error fault => simpa only [hturn] using h
    | ok next =>
      simp only [hturn] at h ⊢
      exact ih (by omega) h

lemma gcdLoop_mono {fuel more : ℕ} (hle : fuel ≤ more) {state : GcdState}
    {result : Run GcdState} (h : gcdLoop fuel state = some result) :
    gcdLoop more state = some result := by
  induction fuel generalizing more state with
  | zero => simp [gcdLoop] at h
  | succ fuel ih =>
    obtain ⟨more, rfl⟩ : ∃ k, more = k + 1 := ⟨more - 1, by omega⟩
    rw [gcdLoop] at h ⊢
    by_cases hzero : state.r.isZero = true
    · rwa [if_pos hzero] at h ⊢
    rw [if_neg hzero] at h ⊢
    by_cases hold : state.oldR.isOne = true
    · rwa [if_pos hold] at h ⊢
    rw [if_neg hold] at h ⊢
    by_cases hnew : state.r.isOne = true
    · rwa [if_pos hnew] at h ⊢
    rw [if_neg hnew] at h ⊢
    dsimp only at h ⊢
    generalize hsigns : (!state.oldR.isNegative && !state.r.isNegative) = nonnegative at h ⊢
    by_cases hless : (nonnegative && state.oldR.absCmp state.r = .lt) = true
    · rw [if_pos hless] at h ⊢
      exact ih (by omega) h
    rw [if_neg hless] at h ⊢
    cases hturn : (if nonnegative = true then state.turn .zero else state.fallback) with
    | error fault => simpa only [hturn] using h
    | ok next =>
      simp only [hturn] at h ⊢
      exact ih (by omega) h

/-! ## The calls -/

/-- `left_extended_gcd_positive_with_scratch`. -/
lemma leftExtendedGcdPositive_settles {x y : ℤ} (hx : 0 ≤ x) (hy : 0 ≤ y)
    (scratch : LimbScratch) :
    Settles Overrun (fun gcd => ∃ u w : ℤ, u * x + w * y = Int.gcd x y ∧ gcd.x = ofInt u ∧
        gcd.gcd = ofInt (Int.gcd x y))
      fun fuel => Turns.ofGcd
        ((ofInt x).leftExtendedGcdPositiveWithScratch fuel (ofInt y) scratch) := by
  obtain ⟨m, rfl⟩ := Int.eq_ofNat_of_zero_le hx
  obtain ⟨n, rfl⟩ := Int.eq_ofNat_of_zero_le hy
  have hsigns : ¬((ofInt m).isNegative || (ofInt n).isNegative) = true := by
    simp [isNegative_ofInt]
  have hcompare : (ofInt m).absCmp (ofInt n) = .lt ↔ m < n := by
    rw [absCmp_ofInt, Int.natAbs_natCast, Int.natAbs_natCast, Nat.compare_eq_lt]
  by_cases hlt : m < n
  · have hstart : (⟨ofInt n, ofInt m, [(.zero, .one)], scratch⟩ : GcdState)
        = GcdState.ofInts (n, m) [(0, 1)] scratch := by
      simp [GcdState.ofInts, ofInt_one, ofInt_zero]
    have hcall : ∀ fuel, (ofInt m).leftExtendedGcdPositiveWithScratch fuel (ofInt n) scratch
        = (positiveGcdLoop fuel (GcdState.ofInts (n, m) [(0, 1)] scratch)).map
          (fun run => run >>= fun state =>
            pure ⟨(state.fixOld.column 0).1, state.fixOld.oldR⟩) := by
      intro fuel
      rw [leftExtendedGcdPositiveWithScratch, if_neg hsigns, ← hstart]
      simp only [if_pos (hcompare.mpr hlt)]
    rcases (positiveGcdLoop_ends (m + 1) (Nat.lt_succ_self m) hlt.le [(0, 1)] scratch).answer with
      ⟨-, a, b, final, hloop, hgcd, hold, hcolumns⟩ | ⟨-, hloop⟩
    · rw [Int.gcd_comm] at hgcd hold
      refine .of_bound (.ok ⟨ofInt b, ofInt (Int.gcd m n)⟩)
        (.ok ⟨b, a, by rw [← hgcd]; ring, rfl, rfl⟩) (m + 1) fun fuel hfuel => ?_
      rw [Turns.ofGcd, hcall, positiveGcdLoop_mono hfuel hloop]
      simp [hold, hcolumns, pure_eq]
    · refine .of_bound (.error .indexOutOfRange) rfl (m + 1) fun fuel hfuel => ?_
      rw [Turns.ofGcd, hcall, positiveGcdLoop_mono hfuel hloop]
      rfl
  · have hstart : (⟨ofInt m, ofInt n, [(.one, .zero)], scratch⟩ : GcdState)
        = GcdState.ofInts (m, n) [(1, 0)] scratch := by
      simp [GcdState.ofInts, ofInt_one, ofInt_zero]
    have hcall : ∀ fuel, (ofInt m).leftExtendedGcdPositiveWithScratch fuel (ofInt n) scratch
        = (positiveGcdLoop fuel (GcdState.ofInts (m, n) [(1, 0)] scratch)).map
          (fun run => run >>= fun state =>
            pure ⟨(state.fixOld.column 0).1, state.fixOld.oldR⟩) := by
      intro fuel
      rw [leftExtendedGcdPositiveWithScratch, if_neg hsigns, ← hstart]
      simp only [if_neg (fun h => hlt (hcompare.mp h))]
    rcases (positiveGcdLoop_ends (n + 1) (Nat.lt_succ_self n) (Nat.le_of_not_lt hlt) [(1, 0)]
        scratch).answer with
      ⟨-, a, b, final, hloop, hgcd, hold, hcolumns⟩ | ⟨-, hloop⟩
    · refine .of_bound (.ok ⟨ofInt a, ofInt (Int.gcd m n)⟩)
        (.ok ⟨a, b, hgcd, rfl, rfl⟩) (n + 1) fun fuel hfuel => ?_
      rw [Turns.ofGcd, hcall, positiveGcdLoop_mono hfuel hloop]
      simp [hold, hcolumns, pure_eq]
    · refine .of_bound (.error .indexOutOfRange) rfl (n + 1) fun fuel hfuel => ?_
      rw [Turns.ofGcd, hcall, positiveGcdLoop_mono hfuel hloop]
      rfl

/-- `extended_gcd_with_scratch`. -/
lemma extendedGcd_settles (x y : ℤ) (scratch : LimbScratch) :
    Settles Overrun (fun gcd => ∃ u w : ℤ, u * x + w * y = Int.gcd x y ∧ gcd.x = ofInt u ∧
        gcd.y = ofInt w ∧ gcd.gcd = ofInt (Int.gcd x y))
      fun fuel => Turns.ofGcd ((ofInt x).extendedGcdWithScratch fuel (ofInt y) scratch) := by
  have hstart : (⟨ofInt x, ofInt y, [(.one, .zero), (.zero, .one)], scratch⟩ : GcdState)
      = GcdState.ofInts (x, y) [(1, 0), (0, 1)] scratch := by
    simp [GcdState.ofInts, ofInt_one, ofInt_zero]
  simp only [Turns.ofGcd, extendedGcdWithScratch, hstart]
  rcases (gcdLoop_ends (y.natAbs + 1) (x, y) (Nat.lt_succ_self _) [(1, 0), (0, 1)]
      scratch).answer with
    ⟨-, a, b, final, hloop, hgcd, hold, hcolumns⟩ | ⟨-, hloop⟩
  · refine .of_bound (.ok ⟨ofInt a, ofInt b, ofInt (Int.gcd x y)⟩)
      (.ok ⟨a, b, hgcd, rfl, rfl, rfl⟩) (y.natAbs + 1) fun fuel hfuel => ?_
    rw [gcdLoop_mono hfuel hloop]
    simp [hold, hcolumns, pure_eq]
  · refine .of_bound (.error .indexOutOfRange) rfl (y.natAbs + 1) fun fuel hfuel => ?_
    rw [gcdLoop_mono hfuel hloop]
    rfl

/-- `xgcd_partial_with_scratch` acts by one matrix, whose determinant has the sign of its last
entry. -/
lemma xgcdPartial_settles {m n limit : ℤ} (hm : 0 < m) (hn : 0 ≤ n) (hle : n ≤ m)
    (hlimit : 0 ≤ limit) (scratch : LimbScratch) :
    Settles Overrun (fun answer => ∃ g : Unimodular, answer.1 = ofInt (-g.b) ∧
        answer.2.1 = ofInt (-g.d) ∧ answer.2.2.2 = ofInt (g.c * m + g.d * n) ∧
        0 < (g.a * g.d - g.b * g.c) * g.d)
      fun fuel => Turns.ofGcd
        (xgcdPartialWithScratch fuel (ofInt m) (ofInt n) (ofInt limit) scratch) := by
  obtain ⟨m, rfl⟩ := Int.eq_ofNat_of_zero_le hm.le
  obtain ⟨n, rfl⟩ := Int.eq_ofNat_of_zero_le hn
  obtain ⟨limit, rfl⟩ := Int.eq_ofNat_of_zero_le hlimit
  have hle : n ≤ m := by omega
  rcases partialGcdLoop_ends limit (n + 1) (Nat.lt_succ_self n) hle [(0, -1)] scratch with
    ⟨-, g, m', n', after, hloop, hact, -, -⟩ | ⟨-, hloop⟩
  · have hpair : g.a * m + g.b * n = m' ∧ g.c * m + g.d * n = n' := Prod.mk.inj hact
    obtain ⟨pair, columns', last, hfinal, hopposed⟩ :=
      partialGcdLoop_opposed limit (n + 1) hle [(0, -1)] scratch (by simp [Opposed]) hloop
    have hsigns : Opposed (-g.b, -g.d) := by
      have hcolumns := congrArg GcdState.columns hfinal
      obtain ⟨v, rfl⟩ : ∃ v, columns' = [v] := by
        have hlength := congrArg List.length hcolumns
        exact List.length_eq_one_iff.mp (by simpa [GcdState.ofInts] using hlength.symm)
      have hv : -g.b = v.1 ∧ -g.d = v.2 := by
        simpa [GcdState.ofInts, Unimodular.act, ofInt_inj] using hcolumns
      rw [hv.1, hv.2]
      exact hopposed v (List.mem_singleton.mpr rfl)
    refine .of_bound (.ok (ofInt (-g.b), ofInt (-g.d), ofInt m', ofInt n'))
      (.ok ⟨g, rfl, rfl, by rw [hpair.2], ?_⟩) (n + 1) fun fuel hfuel => ?_
    · -- the larger operand is positive in terms of the two remainders
      obtain ⟨hsign, hne⟩ := hsigns
      have hinverse : (g.a * g.d - g.b * g.c) * (m : ℤ) = g.d * m' - g.b * n' := by
        rw [← hpair.1, ← hpair.2]
        ring
      simp only [neg_mul_neg, ne_eq, neg_eq_zero] at hsign hne
      rcases Int.isUnit_iff.mp g.isUnit with hunit | hunit <;> rw [hunit] at hinverse ⊢
      · by_contra hneg
        have hb : 0 ≤ g.b := by
          by_contra hb
          exact absurd (mul_pos_of_neg_of_neg (not_le.mp hb) (by omega : g.d < 0)) (by omega)
        have h₁ := mul_nonneg hb (Int.natCast_nonneg n')
        have h₂ := mul_nonpos_of_nonpos_of_nonneg (by omega : g.d ≤ 0) (Int.natCast_nonneg m')
        omega
      · by_contra hneg
        have hb : g.b ≤ 0 := by
          by_contra hb
          exact absurd (mul_pos (not_le.mp hb) (by omega : 0 < g.d)) (by omega)
        have h₁ := mul_nonpos_of_nonpos_of_nonneg hb (Int.natCast_nonneg n')
        have h₂ := mul_nonneg (by omega : 0 ≤ g.d) (Int.natCast_nonneg m')
        omega
    · rw [xgcdPartialWithScratch, GcdCall.xgcdPartial_start, partialGcdLoop_mono hfuel hloop]
      have hnonneg : ¬(m' : ℤ) < 0 := by omega
      simp [GcdState.ofInts, GcdState.column, isNegative_ofInt, pure_eq, Unimodular.act,
        Turns.ofGcd, hnonneg]
  · refine .of_bound (.error .indexOutOfRange) rfl (n + 1) fun fuel hfuel => ?_
    rw [xgcdPartialWithScratch, GcdCall.xgcdPartial_start, partialGcdLoop_mono hfuel hloop]
    rfl

end Vdf

end Iuna
