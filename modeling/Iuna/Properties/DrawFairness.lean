import Iuna.Properties.TicketEffects
import Iuna.Library.Delimited
import Mathlib.Data.Int.CardIntervalMod

/-!
# The fairness of the weighted draw

A draw reads a number of 128 bits off a digest and reduces it modulo the total weight.  Every set
of tickets is hit by as many numbers as its share of the weight, up to one in each block of the
total: it does not matter how a weight is spread over tickets.
-/

namespace Iuna

/-! ## Residues -/

/-- A residue is that of as many numbers as there are blocks, or of one more. -/
lemma card_filter_mod_eq (count : ℕ) {modulus residue : ℕ} (h : residue < modulus) :
    count / modulus ≤ ((Finset.range count).filter fun value => value % modulus = residue).card ∧
      ((Finset.range count).filter fun value => value % modulus = residue).card
        ≤ count / modulus + 1 := by
  have hcount := Nat.count_modEq_card count (Nat.zero_lt_of_lt h) residue
  rw [Nat.count_eq_card_filter_range] at hcount
  have hfilter : ((Finset.range count).filter fun value => value % modulus = residue)
      = (Finset.range count).filter fun value => value ≡ residue [MOD modulus] := by
    refine Finset.filter_congr fun value _ => ?_
    rw [Nat.ModEq, Nat.mod_eq_of_lt h]
  rw [hfilter, hcount]
  split <;> omega

/-- A set of residues is hit by a number of each block for each of its members, and by at most one
more for each. -/
lemma card_filter_mod_mem (count : ℕ) {modulus : ℕ} {residues : Finset ℕ}
    (h : ∀ residue ∈ residues, residue < modulus) :
    residues.card * (count / modulus)
        ≤ ((Finset.range count).filter fun value => value % modulus ∈ residues).card ∧
      ((Finset.range count).filter fun value => value % modulus ∈ residues).card
        ≤ residues.card * (count / modulus + 1) := by
  have hfibers := Finset.card_eq_sum_card_fiberwise (f := fun value => value % modulus)
    (s := (Finset.range count).filter fun value => value % modulus ∈ residues) (t := residues)
    fun value hvalue => (Finset.mem_filter.mp hvalue).2
  have hfiber : ∀ residue ∈ residues,
      (((Finset.range count).filter fun value => value % modulus ∈ residues).filter
        fun value => value % modulus = residue)
      = (Finset.range count).filter fun value => value % modulus = residue := by
    intro residue hresidue
    rw [Finset.filter_filter]
    refine Finset.filter_congr fun value _ => ⟨And.right, fun heq => ⟨?_, heq⟩⟩
    rwa [heq]
  rw [hfibers]
  constructor
  · refine Finset.card_nsmul_le_sum _ _ _ fun residue hresidue => ?_
    rw [hfiber residue hresidue]
    exact (card_filter_mod_eq count (h residue hresidue)).1
  · refine Finset.sum_le_card_nsmul _ _ _ fun residue hresidue => ?_
    rw [hfiber residue hresidue]
    exact (card_filter_mod_eq count (h residue hresidue)).2

/-! ## The draws of a position -/

/-- A draw hits the position whose part of the weights it falls in. -/
lemma indexOfDraw_eq_some_iff {draw cumulative : ℕ} {weights : List ℕ}
    (fits : cumulative + weights.sum ≤ u128Max) (after : cumulative ≤ draw) {index : ℕ} :
    indexOfDraw draw cumulative weights = some index ↔
      cumulative + (weights.take index).sum ≤ draw ∧
        draw < cumulative + (weights.take index).sum + weights.getD index 0 := by
  induction weights generalizing cumulative index with
  | nil =>
    simp only [indexOfDraw, List.take_nil, List.sum_nil, List.getD_nil]
    constructor
    · intro h
      cases h
    · omega
  | cons weight weights ih =>
    rw [List.sum_cons] at fits
    rw [indexOfDraw, if_neg (by omega)]
    by_cases hhit : draw < cumulative + weight
    · rw [if_pos hhit]
      cases index with
      | zero =>
        simp only [List.take_zero, List.sum_nil, List.getD_cons_zero, true_iff]
        omega
      | succ index =>
        simp only [List.take_succ_cons, List.sum_cons, Option.some.injEq]
        constructor
        · intro h
          cases h
        · omega
    · rw [if_neg hhit]
      cases index with
      | zero =>
        simp only [List.take_zero, List.sum_nil, List.getD_cons_zero, Option.map_eq_some_iff]
        constructor
        · rintro ⟨_, -, h⟩
          cases h
        · omega
      | succ index =>
        have hrest := @ih (cumulative + weight) (by omega) (by omega) index
        simp only [List.take_succ_cons, List.sum_cons, List.getD_cons_succ,
          Option.map_eq_some_iff, Nat.add_right_cancel_iff, exists_eq_right, hrest]
        omega

/-- A position is hit by as many draws as its weight. -/
lemma card_draws {weights : List ℕ} (fits : weights.sum ≤ u128Max) (index : ℕ) :
    ((Finset.range weights.sum).filter fun draw => indexOfDraw draw 0 weights = some index).card
      = weights.getD index 0 := by
  have hpart : (weights.take index).sum + weights.getD index 0 ≤ weights.sum := by
    by_cases hindex : index < weights.length
    · have hsplit : (weights.take (index + 1)).sum ≤ weights.sum := by
        rw [← List.sum_take_add_sum_drop weights (index + 1)]
        exact Nat.le_add_right _ _
      rw [List.sum_take_succ weights index hindex] at hsplit
      rwa [List.getD_eq_getElem _ _ hindex]
    · rw [List.getD_eq_default _ _ (not_lt.mp hindex), List.take_of_length_le (not_lt.mp hindex),
        Nat.add_zero]
  have hdraws : ((Finset.range weights.sum).filter fun draw =>
      indexOfDraw draw 0 weights = some index)
      = Finset.Ico (weights.take index).sum
        ((weights.take index).sum + weights.getD index 0) := by
    ext draw
    rw [Finset.mem_filter, Finset.mem_range, Finset.mem_Ico,
      indexOfDraw_eq_some_iff (by omega) (Nat.zero_le draw)]
    omega
  rw [hdraws, Nat.card_Ico, Nat.add_sub_cancel_left]

/-- The draws of a set of positions. -/
def drawsOf (weights : List ℕ) (positions : Finset ℕ) : Finset ℕ :=
  (Finset.range weights.sum).filter fun draw =>
    ∃ index ∈ positions, indexOfDraw draw 0 weights = some index

lemma card_drawsOf {weights : List ℕ} (fits : weights.sum ≤ u128Max) (positions : Finset ℕ) :
    (drawsOf weights positions).card = ∑ index ∈ positions, weights.getD index 0 := by
  have hunion : drawsOf weights positions = positions.biUnion fun index =>
      (Finset.range weights.sum).filter fun draw => indexOfDraw draw 0 weights = some index := by
    ext draw
    simp only [drawsOf, Finset.mem_filter, Finset.mem_biUnion]
    constructor
    · rintro ⟨hdraw, index, hindex, h⟩
      exact ⟨index, hindex, hdraw, h⟩
    · rintro ⟨index, hindex, hdraw, h⟩
      exact ⟨hdraw, index, hindex, h⟩
  rw [hunion, Finset.card_biUnion]
  · exact Finset.sum_congr rfl fun index _ => card_draws fits index
  · intro index _ other _ hne
    refine Finset.disjoint_left.mpr fun draw hindex hother => hne ?_
    have hfirst := (Finset.mem_filter.mp hindex).2
    have hsecond := (Finset.mem_filter.mp hother).2
    exact Option.some.inj (hfirst.symm.trans hsecond)

/-! ## The numbers of a digest -/

/-- The position that a number of 128 bits draws. -/
def positionOf (weights : List ℕ) (number : ℕ) : Option ℕ :=
  indexOfDraw (number % weights.sum) 0 weights

/-- The number that the first half of the digest of a seed writes. -/
def digestNumber [Crypto] (seed : Str) : ℕ :=
  Wire.ofBigEndian ((Crypto.sha256 (utf8 seed)).val.take 16)

lemma digestNumber_lt [Crypto] (seed : Str) : digestNumber seed < 2 ^ 128 := by
  have hlength : ((Crypto.sha256 (utf8 seed)).val.take 16).length = 16 := by
    rw [List.length_take, (Crypto.sha256 (utf8 seed)).property]
    rfl
  have hbound := (Wire.bigEndian_ofBigEndian ((Crypto.sha256 (utf8 seed)).val.take 16)).2
  rw [hlength] at hbound
  exact hbound.trans_eq (by norm_num)

/-- **Fairness.** Every draw is read off the digest of its seed, as a number of 128 bits, and of
all these numbers each set of positions is drawn by as many as its weight, times the blocks of the
total weight that fit, and by at most one more for each unit of its weight. -/
theorem draw_fair {weights : List ℕ} (fits : weights.sum ≤ u128Max) (positive : 0 < weights.sum)
    (positions : Finset ℕ) :
    (∀ [Crypto] (seed : Str), digestNumber seed < 2 ^ 128 ∧
        selectWeightedIndex seed weights = positionOf weights (digestNumber seed)) ∧
      (∑ index ∈ positions, weights.getD index 0) * (2 ^ 128 / weights.sum)
        ≤ ((Finset.range (2 ^ 128)).filter fun number =>
          ∃ index ∈ positions, positionOf weights number = some index).card ∧
      ((Finset.range (2 ^ 128)).filter fun number =>
          ∃ index ∈ positions, positionOf weights number = some index).card
        ≤ (∑ index ∈ positions, weights.getD index 0) * (2 ^ 128 / weights.sum + 1) := by
  constructor
  · intro _ seed
    refine ⟨digestNumber_lt seed, ?_⟩
    unfold selectWeightedIndex positionOf
    rw [checkedTotalWeight_eq fits]
    obtain ⟨total, htotal⟩ := Nat.exists_eq_succ_of_ne_zero positive.ne'
    rw [htotal]
    rfl
  · have hnumbers : ((Finset.range (2 ^ 128)).filter fun number =>
        ∃ index ∈ positions, positionOf weights number = some index)
        = (Finset.range (2 ^ 128)).filter fun number =>
          number % weights.sum ∈ drawsOf weights positions := by
      refine Finset.filter_congr fun number _ => ?_
      rw [drawsOf, Finset.mem_filter, Finset.mem_range,
        and_iff_right (Nat.mod_lt number positive)]
      rfl
    rw [hnumbers, ← card_drawsOf fits positions]
    exact card_filter_mod_mem (2 ^ 128) fun draw hdraw =>
      Finset.mem_range.mp (Finset.mem_filter.mp hdraw).1

end Iuna

namespace Iuna.Toy

/-- An owner with two of three tickets. -/
theorem draw_fair_twoOfThree :
    (∀ [Crypto] (seed : Str), digestNumber seed < 2 ^ 128 ∧
        selectWeightedIndex seed [5, 7, 2] = positionOf [5, 7, 2] (digestNumber seed)) ∧
      (∑ index ∈ {0, 2}, [5, 7, 2].getD index 0) * (2 ^ 128 / [5, 7, 2].sum)
        ≤ ((Finset.range (2 ^ 128)).filter fun number =>
          ∃ index ∈ ({0, 2} : Finset ℕ), positionOf [5, 7, 2] number = some index).card ∧
      ((Finset.range (2 ^ 128)).filter fun number =>
          ∃ index ∈ ({0, 2} : Finset ℕ), positionOf [5, 7, 2] number = some index).card
        ≤ (∑ index ∈ {0, 2}, [5, 7, 2].getD index 0) * (2 ^ 128 / [5, 7, 2].sum + 1) :=
  draw_fair (by decide) (by decide) {0, 2}

end Iuna.Toy
