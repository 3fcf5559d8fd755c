import Iuna.Domain.Lehmer
import Iuna.Library.Euclid
import Iuna.Properties.LimbQuotients

/-!
# The batches of the Euclidean algorithms

A batch runs on the leading words of two remainders.  Its words and cofactors fit their machine
integers, and its steps are steps of the remainders.
-/

namespace Iuna

namespace Vdf

open Positional

/-! ## Leading words -/

namespace LimbInt

/-- The shifted word is the head of the shifted limbs. -/
lemma shiftedLowWord_eq_head (limbs : List ℕ) {offset : ℕ} (h : offset ≠ 0) (index : ℕ) :
    limbs.getD index 0 >>> offset ||| (limbs.getD (index + 1) 0 <<< (64 - offset)) % base
      = (shrLoop offset (limbs.drop index)).headD 0 := by
  rcases hdrop : limbs.drop index with _ | ⟨low, rest⟩
  · have hlen := List.drop_eq_nil_iff.mp hdrop
    simp [shrLoop, List.getElem?_eq_none hlen, List.getElem?_eq_none (hlen.trans (Nat.le_succ _))]
  · have hlow : limbs.getD index 0 = low := by
      have hhead := congrArg List.head? hdrop
      simp only [List.head?_drop, List.head?_cons] at hhead
      simp [hhead]
    have hhigh : limbs.getD (index + 1) 0 = rest.headD 0 := by
      have htail := congrArg List.tail hdrop
      rw [List.tail_drop, List.tail_cons] at htail
      rw [← htail, List.headD_eq_head?_getD, List.head?_drop]
      simp
    rw [hlow, hhigh]
    simp [shrLoop, h]

/-- `shifted_low_word` of a natural. -/
lemma shiftedLowWord_ofInt (n shift : ℕ) :
    (ofInt n).shiftedLowWord shift = .ok (n / 2 ^ shift % base) := by
  have hvalue : ∀ index, value base ((magnitude n).drop index) = n / base ^ index := by
    intro index
    have hdrop := Nat.ofDigits_div_pow_eq_ofDigits_drop index base_pos _ (words_magnitude n)
    rw [← value, value_magnitude] at hdrop
    exact hdrop.symm
  have hbase : base = 2 ^ 64 := by decide
  have hsplit : 2 ^ shift = base ^ (shift / 64) * 2 ^ (shift % 64) := by
    rw [hbase, ← pow_mul, ← pow_add, Nat.div_add_mod]
  have hwords := (words_magnitude n).drop (shift / 64)
  unfold shiftedLowWord
  simp only [isNegative_ofInt, Outcome.bailIf, limbs_ofInt, Int.natAbs_natCast]
  rw [if_neg (by simp), ok_bind, hsplit, ← Nat.div_div_eq_div_mul, ← hvalue]
  by_cases hoffset : shift % 64 = 0
  · rw [if_pos hoffset, hoffset, pow_zero, Nat.div_one, ← headD_eq_value_mod hwords, pure_eq,
      List.headD_eq_head?_getD, List.head?_drop]
    simp
  · rw [if_neg hoffset, pure_eq, shiftedLowWord_eq_head _ hoffset]
    obtain ⟨hshifted, hshiftedValue⟩ := shrLoop_spec (Nat.mod_lt shift (by omega)) hwords
    rw [headD_eq_value_mod hshifted, hshiftedValue]

/-- A natural has at most its bits. -/
lemma lt_two_pow_bitLen (n : ℕ) : n < 2 ^ (ofInt n).bitLen := by
  unfold bitLen
  rw [limbs_ofInt, Int.natAbs_natCast]
  by_cases hn : n = 0
  · simp [hn]
  · have hne : magnitude n ≠ [] := by simpa using hn
    have hlen := List.length_pos_iff.mpr hne
    rw [if_neg hne, getLastD_eq hne]
    have htop := getLast_magnitude hne
    have htopPos := getLast_magnitude_ne_zero n hne
    have htopLt : (magnitude n).getLast hne < base := words_magnitude n _ (List.getLast_mem hne)
    generalize (magnitude n).getLast hne = top at *
    obtain ⟨hlow, hhigh⟩ := leadingZeros_spec htopPos htopLt
    have hzeros : leadingZeros top ≤ 64 := by
      unfold leadingZeros
      split <;> omega
    have hbase : base = 2 ^ 64 := by decide
    have hdouble : top + 1 ≤ 2 ^ (64 - leadingZeros top) := by
      rw [base_eq_pow_mul hzeros, Nat.mul_comm] at hhigh
      exact Nat.le_of_mul_le_mul_left hhigh (Nat.two_pow_pos _)
    have hlt : n < base ^ ((magnitude n).length - 1) * (top + 1) := by
      rw [htop]
      exact Nat.lt_mul_div_succ n (pow_pos base_pos _)
    calc n < base ^ ((magnitude n).length - 1) * (top + 1) := hlt
      _ ≤ base ^ ((magnitude n).length - 1) * 2 ^ (64 - leadingZeros top) :=
        Nat.mul_le_mul_left _ hdouble
      _ = 2 ^ (((magnitude n).length - 1) * 64 + (64 - leadingZeros top)) := by
        rw [hbase, ← pow_mul, ← pow_add, Nat.mul_comm 64]

/-- The leading part that a batch sees. -/
lemma leading_lt {m n : ℕ} (h : n ≤ m) : n / 2 ^ ((ofInt m).bitLen - 63) < 2 ^ 63 := by
  apply Nat.div_lt_of_lt_mul
  rw [← pow_add]
  calc n ≤ m := h
    _ < 2 ^ (ofInt m).bitLen := lt_two_pow_bitLen m
    _ ≤ 2 ^ ((ofInt m).bitLen - 63 + 63) := Nat.pow_le_pow_right (by omega) (by omega)

end LimbInt

/-! ## The inner loop -/

lemma word_eq {n : ℕ} (h : n < base) : word n = .ok n := if_pos h

lemma subWord_eq {m n : ℕ} (h : n ≤ m) : subWord m n = .ok (m - n) := if_pos h

lemma i128_eq {z : ℤ} (hlow : -2 ^ 127 ≤ z) (hhigh : z < 2 ^ 127) : i128 z = .ok z :=
  if_pos ⟨hlow, hhigh⟩

/-- The signs of the cofactors, by the parity of the steps. -/
def Batch.Signed (batch : Batch) (x₂ x₁ y₂ y₁ : ℕ) : Prop :=
  if batch.steps % 2 = 0 then
    batch.aa2 = -x₂ ∧ batch.aa1 = x₁ ∧ batch.bb2 = y₂ ∧ batch.bb1 = -y₁
  else batch.bb2 = -x₂ ∧ batch.bb1 = x₁ ∧ batch.aa2 = y₂ ∧ batch.aa1 = -y₁

/-- The test after a step, whose sides are the cofactors without their signs. -/
lemma Batch.stops_eq {batch : Batch} {x₂ x₁ y₂ y₁ q next : ℕ} (hs : batch.Signed x₂ x₁ y₂ y₁)
    (hnext : next ≤ batch.rr1) (hx : x₂ + q * x₁ < 2 ^ 63) (hy : y₂ + q * y₁ < 2 ^ 63)
    (hy₁ : y₁ < 2 ^ 63) :
    batch.stops next (batch.aa2 - q * batch.aa1) (batch.bb2 - q * batch.bb1)
      = .ok (decide (next < x₂ + q * x₁ ∨ batch.rr1 - next < y₂ + q * y₁ + y₁)) := by
  unfold Batch.stops
  rw [subWord_eq hnext, ok_bind]
  unfold Batch.Signed at hs
  rcases Nat.mod_two_eq_zero_or_one batch.steps with hparity | hparity
  · rw [if_pos hparity] at hs
    obtain ⟨haa₂, haa₁, hbb₂, hbb₁⟩ := hs
    have hlow : -(batch.aa2 - q * batch.aa1) = ((x₂ + q * x₁ : ℕ) : ℤ) := by
      rw [haa₂, haa₁]; push_cast; ring
    have hhigh : batch.bb2 - q * batch.bb1 - batch.bb1 = ((y₂ + q * y₁ + y₁ : ℕ) : ℤ) := by
      rw [hbb₂, hbb₁]; push_cast; ring
    rw [if_neg (by omega), hlow, hhigh, i128_eq (by omega) (by omega), ok_bind,
      i128_eq (by omega) (by omega), ok_bind, pure_eq]
    norm_cast
  · rw [if_neg (by omega)] at hs
    obtain ⟨hbb₂, hbb₁, haa₂, haa₁⟩ := hs
    have hlow : -(batch.bb2 - q * batch.bb1) = ((x₂ + q * x₁ : ℕ) : ℤ) := by
      rw [hbb₂, hbb₁]; push_cast; ring
    have hhigh : batch.aa2 - q * batch.aa1 - batch.aa1 = ((y₂ + q * y₁ + y₁ : ℕ) : ℤ) := by
      rw [haa₂, haa₁]; push_cast; ring
    rw [if_pos hparity, hlow, hhigh, i128_eq (by omega) (by omega), ok_bind,
      i128_eq (by omega) (by omega), ok_bind, pure_eq]
    norm_cast

/-- The signs of the cofactors alternate. -/
lemma Batch.Signed.next {batch : Batch} {x₂ x₁ y₂ y₁ : ℕ} (hs : batch.Signed x₂ x₁ y₂ y₁)
    (q l r : ℕ) :
    Batch.Signed ⟨l, r, batch.aa1, batch.aa2 - q * batch.aa1, batch.bb1,
      batch.bb2 - q * batch.bb1, batch.steps + 1⟩ y₁ (y₂ + q * y₁) x₁ (x₂ + q * x₁) := by
  unfold Batch.Signed at hs ⊢
  rcases Nat.mod_two_eq_zero_or_one batch.steps with hparity | hparity
  · rw [if_pos hparity] at hs
    obtain ⟨haa₂, haa₁, hbb₂, hbb₁⟩ := hs
    rw [if_neg (by dsimp only; omega)]
    refine ⟨hbb₁, ?_, haa₁, ?_⟩
    · simp only [hbb₂, hbb₁]; push_cast; ring
    · simp only [haa₂, haa₁]; push_cast; ring
  · rw [if_neg (by omega)] at hs
    obtain ⟨hbb₂, hbb₁, haa₂, haa₁⟩ := hs
    rw [if_pos (by dsimp only; omega)]
    refine ⟨haa₁, ?_, hbb₁, ?_⟩
    · simp only [haa₂, haa₁]; push_cast; ring
    · simp only [hbb₂, hbb₁]; push_cast; ring

/-- All cofactors are below `k` in absolute value. -/
def Batch.Within (k : ℕ) (batch : Batch) : Prop :=
  (-(k : ℤ) < batch.aa2 ∧ batch.aa2 < k) ∧ (-(k : ℤ) < batch.aa1 ∧ batch.aa1 < k) ∧
    (-(k : ℤ) < batch.bb2 ∧ batch.bb2 < k) ∧ (-(k : ℤ) < batch.bb1 ∧ batch.bb1 < k)

lemma Batch.Signed.within {batch : Batch} {x₂ x₁ y₂ y₁ : ℕ} (hs : batch.Signed x₂ x₁ y₂ y₁)
    {k : ℕ} (hx₂ : x₂ < k) (hx₁ : x₁ < k) (hy₂ : y₂ < k) (hy₁ : y₁ < k) :
    batch.Within k := by
  unfold Batch.Signed at hs
  unfold Batch.Within
  split at hs
  · obtain ⟨haa₂, haa₁, hbb₂, hbb₁⟩ := hs
    omega
  · obtain ⟨hbb₂, hbb₁, haa₂, haa₁⟩ := hs
    omega

/-- One turn of the inner loop ends it, or takes the exact step of the remainders. -/
lemma Batch.next_of {batch : Batch} {u v K x₂ x₁ y₂ y₁ m n : ℕ} (hs : batch.Signed x₂ x₁ y₂ y₁)
    (f : Euclid.Follows u v K batch.rr2 batch.rr1 x₂ x₁ y₂ y₁ m n) (hK : 0 < K)
    (hu : u / K < 2 ^ 63) (hv : v / K < 2 ^ 63) (threshold : ℕ) :
    batch.next threshold = .ok none ∨
      ∃ after x₂' x₁' y₂' y₁', batch.next threshold = .ok (some after) ∧
        after.Signed x₂' x₁' y₂' y₁' ∧
        Euclid.Follows v u K after.rr2 after.rr1 x₂' x₁' y₂' y₁' n (m % n) ∧
        after.steps = batch.steps + 1 ∧ after.rr1 < batch.rr1 ∧ 0 < m % n ∧
        0 < m / n ∧ m / n < 2 ^ 63 ∧ after.Within (2 ^ 63) := by
  unfold Batch.next
  by_cases hstop : batch.rr1 = 0 ∨ batch.rr1 ≤ threshold
  · rw [if_pos hstop]
    exact .inl rfl
  rw [if_neg hstop]
  by_cases hzero : batch.rr2 / batch.rr1 = 0
  · simp only [hzero, if_true]
    exact .inl rfl
  have hl : 0 < batch.rr1 := by omega
  have hqh : batch.rr2 / batch.rr1 * batch.rr1 ≤ batch.rr2 := Nat.div_mul_le_self _ _
  have hql : batch.rr2 / batch.rr1 ≤ batch.rr2 := Nat.div_le_self _ _
  have hrest : batch.rr2 - batch.rr2 / batch.rr1 * batch.rr1 < batch.rr1 := by
    have hmod := Nat.mod_lt batch.rr2 hl
    rwa [Nat.mod_eq_sub_div_mul] at hmod
  simp only [if_neg hzero]
  generalize batch.rr2 / batch.rr1 = q at *
  have hq : 0 < q := Nat.pos_of_ne_zero hzero
  have hh := f.high_le
  obtain ⟨hx, hy⟩ := f.next_le hl hqh
  have hx₁ : x₁ ≤ q * x₁ := Nat.le_mul_of_pos_left x₁ hq
  have hy₁ : y₁ ≤ q * y₁ := Nat.le_mul_of_pos_left y₁ hq
  have hbase : (2 : ℕ) ^ 63 < base := by decide
  -- the cofactors of the step and their products are in range
  have hstep := hs.next q batch.rr1 (batch.rr2 - q * batch.rr1)
  have hwithin := hstep.within
    (show y₁ < 2 ^ 63 by omega) (show y₂ + q * y₁ < 2 ^ 63 by omega)
    (show x₁ < 2 ^ 63 by omega) (show x₂ + q * x₁ < 2 ^ 63 by omega)
  obtain ⟨⟨-, -⟩, hA, ⟨-, -⟩, hB⟩ := id hwithin
  obtain ⟨haa₂, -, hbb₂, -⟩ := hs.within
    (show x₂ < 2 ^ 63 by omega) (show x₁ < 2 ^ 63 by omega)
    (show y₂ < 2 ^ 63 by omega) (show y₁ < 2 ^ 63 by omega)
  push_cast at hA hB haa₂ hbb₂
  rw [word_eq (by omega), ok_bind, subWord_eq hqh, ok_bind, i128_eq (by omega) (by omega), ok_bind,
    i128_eq (by omega) (by omega), ok_bind, i128_eq (by omega) (by omega), ok_bind,
    i128_eq (by omega) (by omega), ok_bind,
    Batch.stops_eq hs hrest.le (by omega) (by omega) (by omega), ok_bind]
  by_cases htest : batch.rr2 - q * batch.rr1 < x₂ + q * x₁ ∨
      batch.rr1 - (batch.rr2 - q * batch.rr1) < y₂ + q * y₁ + y₁
  · rw [if_pos (decide_eq_true htest)]
    exact .inl rfl
  · rw [if_neg (by simpa using htest)]
    obtain ⟨hquot, hpos⟩ := f.exact hK hq hqh (by omega) (by omega)
    exact .inr ⟨_, _, _, _, _, rfl, hstep, f.next hqh hquot, rfl, hrest, hpos,
      by omega, by omega, hwithin⟩

/-- The remainders that a batch on `m` and `n` has come to. -/
def Batch.Follows (batch : Batch) (m n K : ℕ) (pair : ℕ × ℕ) : Prop :=
  ∃ x₂ x₁ y₂ y₁, batch.Signed x₂ x₁ y₂ y₁ ∧
    if batch.steps % 2 = 0 then
      Euclid.Follows m n K batch.rr2 batch.rr1 x₂ x₁ y₂ y₁ pair.1 pair.2
    else Euclid.Follows n m K batch.rr2 batch.rr1 x₂ x₁ y₂ y₁ pair.1 pair.2

lemma Batch.Follows.next {batch : Batch} {m n K : ℕ} {pair : ℕ × ℕ}
    (f : batch.Follows m n K pair) (hK : 0 < K) (hm : m / K < 2 ^ 63) (hn : n / K < 2 ^ 63)
    (threshold : ℕ) :
    batch.next threshold = .ok none ∨
      ∃ after, batch.next threshold = .ok (some after) ∧
        after.Follows m n K (Euclid.step pair) ∧ after.steps = batch.steps + 1 ∧
        after.rr1 < batch.rr1 ∧ 0 < pair.1 % pair.2 ∧ 0 < pair.1 / pair.2 ∧
        pair.1 / pair.2 < 2 ^ 63 ∧ after.Within (2 ^ 63) := by
  obtain ⟨x₂, x₁, y₂, y₁, hs, f⟩ := f
  split at f
  · rename_i hparity
    rcases Batch.next_of hs f hK hm hn threshold with
      hnone | ⟨after, _, _, _, _, hafter, hs', f', hsteps, hrest⟩
    · exact .inl hnone
    · refine .inr ⟨after, hafter, ⟨_, _, _, _, hs', ?_⟩, hsteps, hrest⟩
      rw [if_neg (by omega)]
      exact f'
  · rename_i hparity
    rcases Batch.next_of hs f hK hn hm threshold with
      hnone | ⟨after, _, _, _, _, hafter, hs', f', hsteps, hrest⟩
    · exact .inl hnone
    · refine .inr ⟨after, hafter, ⟨_, _, _, _, hs', ?_⟩, hsteps, hrest⟩
      rw [if_pos (by omega)]
      exact f'

/-- The inner loop does not fail, and every step that it takes is exact. -/
lemma Batch.run_spec {m n K : ℕ} (hK : 0 < K) (hm : m / K < 2 ^ 63) (hn : n / K < 2 ^ 63)
    (threshold fuel : ℕ) {batch : Batch} {pair : ℕ × ℕ} (f : batch.Follows m n K pair)
    (hwithin : batch.Within (2 ^ 63))
    (hdescends : Euclid.Descends (2 ^ 63) (m, n) batch.steps pair) :
    ∃ after pair', Batch.run threshold fuel batch = .ok after ∧ after.Follows m n K pair' ∧
      after.Within (2 ^ 63) ∧ Euclid.Descends (2 ^ 63) (m, n) after.steps pair' := by
  induction fuel generalizing batch pair with
  | zero => exact ⟨batch, pair, rfl, f, hwithin, hdescends⟩
  | succ fuel ih =>
    rcases f.next hK hm hn threshold with
      hnone | ⟨after, hafter, f', hsteps, -, hrest, hpos, hquot, hwithin'⟩
    · exact ⟨batch, pair, by simp only [Batch.run, hnone, ok_bind, pure_eq], f, hwithin, hdescends⟩
    · have hnext := hdescends.snoc hrest hpos hquot
      rw [← hsteps] at hnext
      obtain ⟨last, pair', hrun, hlast⟩ := ih f' hwithin' hnext
      exact ⟨last, pair', by simp only [Batch.run, hafter, ok_bind, hrun], hlast⟩

/-- The inner loop that is given enough turns ends by its own test. -/
lemma Batch.run_ends {m n K : ℕ} (hK : 0 < K) (hm : m / K < 2 ^ 63) (hn : n / K < 2 ^ 63)
    (threshold fuel : ℕ) {batch : Batch} {pair : ℕ × ℕ} (f : batch.Follows m n K pair)
    (hfuel : batch.rr1 ≤ fuel) :
    ∃ after, Batch.run threshold fuel batch = .ok after ∧ after.next threshold = .ok none := by
  induction fuel generalizing batch pair with
  | zero =>
    refine ⟨batch, rfl, ?_⟩
    rw [Batch.next, if_pos (.inl (Nat.le_zero.mp hfuel)), pure_eq]
  | succ fuel ih =>
    rcases f.next hK hm hn threshold with hnone | ⟨after, hafter, f', -, hlt, -⟩
    · exact ⟨batch, by simp only [Batch.run, hnone, ok_bind, pure_eq], hnone⟩
    · obtain ⟨last, hrun, hlast⟩ := ih f' (by omega)
      exact ⟨last, by simp only [Batch.run, hafter, ok_bind, hrun], hlast⟩

/-- The cofactors give the remainders, and their determinant is a unit. -/
lemma Batch.Follows.cofactors {batch : Batch} {m n K : ℕ} {pair : ℕ × ℕ}
    (f : batch.Follows m n K pair) :
    (pair.1 : ℤ) = m * batch.bb2 + n * batch.aa2 ∧ (pair.2 : ℤ) = n * batch.aa1 + m * batch.bb1 ∧
      IsUnit (batch.bb2 * batch.aa1 - batch.aa2 * batch.bb1) := by
  obtain ⟨x₂, x₁, y₂, y₁, hs, f⟩ := f
  unfold Batch.Signed at hs
  split at f
  · rename_i hparity
    rw [if_pos hparity] at hs
    obtain ⟨haa₂, haa₁, hbb₂, hbb₁⟩ := hs
    have hhigh := f.high
    have hlow := f.low
    have hdet := f.det
    zify at hhigh hlow hdet
    rw [haa₂, haa₁, hbb₂, hbb₁]
    refine ⟨by linear_combination -hhigh, by linear_combination -hlow, ?_⟩
    rw [show (y₂ : ℤ) * x₁ - -x₂ * -y₁ = 1 by linear_combination hdet]
    exact isUnit_one
  · rename_i hparity
    rw [if_neg hparity] at hs
    obtain ⟨hbb₂, hbb₁, haa₂, haa₁⟩ := hs
    have hhigh := f.high
    have hlow := f.low
    have hdet := f.det
    zify at hhigh hlow hdet
    rw [haa₂, haa₁, hbb₂, hbb₁]
    refine ⟨by linear_combination -hhigh, by linear_combination -hlow, ?_⟩
    rw [show -(x₂ : ℤ) * -y₁ - y₂ * x₁ = -1 by linear_combination -hdet]
    exact isUnit_one.neg

/-- A batch on two remainders: it does not fail and ends by its own test, and it follows the
remainders of Euclid's algorithm. -/
lemma lehmerBatch_follows {m n : ℕ} (hle : n ≤ m) (threshold : ℕ) :
    ∃ batch pair K, lehmerBatch (.ofInt threshold) (.ofInt m) (.ofInt n) = .ok batch ∧
      Euclid.Descends (2 ^ 63) (m, n) batch.steps pair ∧ batch.Within (2 ^ 63) ∧
      batch.Follows m n K pair ∧
      ∃ thresholdWord, (LimbInt.ofInt threshold).shiftedLowWord ((LimbInt.ofInt m).bitLen - 63)
        = .ok thresholdWord ∧ batch.next thresholdWord = .ok none := by
  unfold lehmerBatch
  simp only [LimbInt.shiftedLowWord_ofInt, ok_bind]
  have hm := LimbInt.leading_lt (le_refl m)
  have hn := LimbInt.leading_lt hle
  generalize (LimbInt.ofInt m).bitLen - 63 = bits at *
  have hbase : (2 : ℕ) ^ 63 < base := by decide
  rw [Nat.mod_eq_of_lt (hm.trans hbase), Nat.mod_eq_of_lt (hn.trans hbase)]
  have hstart : Batch.Follows ⟨m / 2 ^ bits, n / 2 ^ bits, 0, 1, 1, 0, 0⟩ m n (2 ^ bits) (m, n) :=
    ⟨0, 1, 1, 0, by simp [Batch.Signed], by simpa using Euclid.Follows.refl m n (2 ^ bits)⟩
  obtain ⟨batch, pair, hrun, f, hwithin, hdescends⟩ := Batch.run_spec (Nat.two_pow_pos bits) hm hn
    (threshold / 2 ^ bits % base) (n / 2 ^ bits) hstart (by simp [Batch.Within]) .refl
  obtain ⟨last, hlast, hends⟩ := Batch.run_ends (Nat.two_pow_pos bits) hm hn
    (threshold / 2 ^ bits % base) (n / 2 ^ bits) hstart le_rfl
  obtain rfl : batch = last := Except.ok.inj (hrun.symm.trans hlast)
  exact ⟨batch, pair, _, hrun, hdescends, hwithin, f, _, rfl, hends⟩

/-- The quotients of a batch are those of Euclid's algorithm, and its cofactors give the remainders
that the algorithm has come to. -/
lemma lehmerBatch_spec {m n : ℕ} (hle : n ≤ m) (threshold : ℕ) :
    ∃ batch pair, lehmerBatch (.ofInt threshold) (.ofInt m) (.ofInt n) = .ok batch ∧
      Euclid.Descends (2 ^ 63) (m, n) batch.steps pair ∧ batch.Within (2 ^ 63) ∧
      (pair.1 : ℤ) = m * batch.bb2 + n * batch.aa2 ∧
      (pair.2 : ℤ) = n * batch.aa1 + m * batch.bb1 ∧
      IsUnit (batch.bb2 * batch.aa1 - batch.aa2 * batch.bb1) ∧
      ∃ thresholdWord, (LimbInt.ofInt threshold).shiftedLowWord ((LimbInt.ofInt m).bitLen - 63)
        = .ok thresholdWord ∧ batch.next thresholdWord = .ok none := by
  obtain ⟨batch, pair, K, hbatch, hdescends, hwithin, f, hends⟩ := lehmerBatch_follows hle threshold
  obtain ⟨hm', hn', hunit⟩ := f.cofactors
  exact ⟨batch, pair, hbatch, hdescends, hwithin, hm', hn', hunit, hends⟩

end Vdf

end Iuna
