import Iuna.Properties.LimbProducts

/-!
# Shifts and the doubled comparison of magnitudes are exact

A shifted limb and the high bits of the limb below it share no bit, so that the `|` of the source
is a sum.  The in-place left shift runs from the top limb down and leaves the low limb of what is
in place room for the bits still to come.
-/

namespace Iuna

namespace Vdf

open Positional

/-! ## Left shifts -/

lemma base_eq_pow_mul {bits : ℕ} (h : bits ≤ 64) : base = 2 ^ bits * 2 ^ (64 - bits) := by
  rw [← pow_add, Nat.add_sub_cancel' h]
  rfl

/-- A shifted limb, with the high bits of the limb below it. -/
lemma shl_limb (limb : ℕ) {carry bits : ℕ} (hbits : bits ≤ 64) (hcarry : carry < 2 ^ bits) :
    ((limb <<< bits) % base ||| carry) + base * (limb >>> (64 - bits)) = limb * 2 ^ bits + carry ∧
      ((limb <<< bits) % base ||| carry) = (limb <<< bits) % base + carry := by
  have hmod : (limb * 2 ^ bits) % base = 2 ^ bits * (limb % 2 ^ (64 - bits)) := by
    rw [base_eq_pow_mul hbits, Nat.mul_comm limb, Nat.mul_mod_mul_left]
  have hor : ((limb <<< bits) % base ||| carry) = (limb <<< bits) % base + carry := by
    rw [Nat.shiftLeft_eq, hmod, Nat.two_pow_add_eq_or_of_lt hcarry]
  refine ⟨?_, hor⟩
  rw [hor, Nat.shiftRight_eq_div_pow, Nat.shiftLeft_eq, hmod]
  have hsplit := Nat.mod_add_div limb (2 ^ (64 - bits))
  rw [base_eq_pow_mul hbits]
  linear_combination 2 ^ bits * hsplit

lemma shl_limb_lt (limb : ℕ) {carry bits : ℕ} (hbits : bits ≤ 64) (hcarry : carry < 2 ^ bits) :
    ((limb <<< bits) % base ||| carry) < base := by
  rw [(shl_limb limb hbits hcarry).2, Nat.shiftLeft_eq, base_eq_pow_mul hbits, Nat.mul_comm limb,
    Nat.mul_mod_mul_left]
  have hlt : limb % 2 ^ (64 - bits) + 1 ≤ 2 ^ (64 - bits) := Nat.mod_lt _ (by positivity)
  have hmul := Nat.mul_le_mul_left (2 ^ bits) hlt
  rw [Nat.mul_add, Nat.mul_one] at hmul
  omega

lemma shr_limb_lt {limb bits : ℕ} (hbits : bits ≤ 64) (h : limb < base) :
    limb >>> (64 - bits) < 2 ^ bits := by
  rw [Nat.shiftRight_eq_div_pow]
  apply Nat.div_lt_of_lt_mul
  rwa [Nat.mul_comm, ← base_eq_pow_mul hbits]

lemma shlLoop_spec {bits carry : ℕ} {limbs : List ℕ} (hbits : bits ≤ 64) (hlimbs : Words limbs)
    (hcarry : carry < 2 ^ bits) :
    Words (shlLoop bits limbs carry).1 ∧ (shlLoop bits limbs carry).2 < 2 ^ bits ∧
      (shlLoop bits limbs carry).1.length = limbs.length ∧
      value base (shlLoop bits limbs carry).1
          + base ^ limbs.length * (shlLoop bits limbs carry).2
        = value base limbs * 2 ^ bits + carry := by
  induction limbs generalizing carry with
  | nil => simp [shlLoop, hcarry]
  | cons l ls ih =>
    obtain ⟨hl, hls⟩ := digits_cons.mp hlimbs
    obtain ⟨hwords, hlast, hlen, hvalue⟩ := ih hls (shr_limb_lt hbits hl)
    simp only [shlLoop, List.length_cons, value_cons, digits_cons]
    refine ⟨⟨shl_limb_lt l hbits hcarry, hwords⟩, hlast, by rw [hlen], ?_⟩
    rw [pow_succ']
    linear_combination (shl_limb l hbits hcarry).1 + base * hvalue

lemma two_pow_le_base {bits : ℕ} (h : bits ≤ 64) : 2 ^ bits ≤ base :=
  Nat.pow_le_pow_right (by decide) h

/-- The limbs of a shift by less than a limb, with the carry above them. -/
lemma shlSmall_magnitude (n : ℕ) {bits : ℕ} (hbits : bits ≤ 64) (hn : n ≠ 0) :
    (shlLoop bits (magnitude n) 0).1 ++
        (if (shlLoop bits (magnitude n) 0).2 ≠ 0 then [(shlLoop bits (magnitude n) 0).2] else [])
      = magnitude (n * 2 ^ bits) := by
  obtain ⟨hwords, hlast, hlen, hvalue⟩ :=
    shlLoop_spec hbits (words_magnitude n) (Nat.two_pow_pos bits)
  rw [value_magnitude, Nat.add_zero] at hvalue
  apply append_carry_eq_magnitude hwords (lt_of_lt_of_le hlast (two_pow_le_base hbits))
  · rw [hlen]
    exact hvalue
  · intro hcarry
    rw [hcarry, Nat.mul_zero, Nat.add_zero] at hvalue
    refine getLast_ne_zero_of_le hwords (fun _ => ?_)
    rw [hlen, hvalue]
    exact (pow_length_magnitude_le hn).trans (Nat.le_mul_of_pos_right n (Nat.two_pow_pos bits))

lemma two_pow_eq (bits : ℕ) : 2 ^ bits = base ^ (bits / 64) * 2 ^ (bits % 64) := by
  have hbase : base ^ (bits / 64) = 2 ^ (64 * (bits / 64)) := (pow_mul 2 64 (bits / 64)).symm
  rw [hbase, ← pow_add, Nat.div_add_mod]

lemma mod_64_le (bits : ℕ) : bits % 64 ≤ 64 := by omega

/-- `shl_abs_limbs_into` multiplies by the power of two. -/
lemma shlAbsLimbsInto_magnitude (n bits : ℕ) (output : List ℕ) :
    shlAbsLimbsInto (magnitude n) bits output = magnitude (n * 2 ^ bits) := by
  unfold shlAbsLimbsInto
  by_cases hn : n = 0
  · simp [hn]
  · rw [if_neg (by simpa using hn)]
    by_cases hbits : bits = 0
    · simp [hbits]
    · rw [if_neg hbits]
      by_cases hsmall : bits / 64 = 0 ∧ bits % 64 ≠ 0
      · rw [if_pos hsmall]
        have heq : bits % 64 = bits := by omega
        rw [heq]
        exact shlSmall_magnitude n (by omega) hn
      · rw [if_neg hsmall]
        have hzeros := Digits.replicate_zero base_pos (bits / 64)
        by_cases hzero : bits % 64 = 0
        · rw [if_pos hzero]
          apply trim_eq_magnitude (digits_append.mpr ⟨hzeros, words_magnitude n⟩)
          rw [value_append, value_replicate_zero, List.length_replicate, value_magnitude,
            two_pow_eq bits, hzero]
          ring
        · rw [if_neg hzero]
          obtain ⟨hwords, hlast, hlen, hvalue⟩ :=
            shlLoop_spec (mod_64_le bits) (words_magnitude n) (Nat.two_pow_pos (bits % 64))
          apply trim_eq_magnitude
          · exact digits_append.mpr ⟨digits_append.mpr ⟨hzeros, hwords⟩,
              by simpa using lt_of_lt_of_le hlast (two_pow_le_base (mod_64_le bits))⟩
          · rw [value_append, value_append, value_replicate_zero, List.length_append,
              List.length_replicate, hlen, two_pow_eq bits, pow_add, value_cons, value_nil]
            rw [value_magnitude] at hvalue
            linear_combination base ^ (bits / 64) * hvalue

lemma shlAbsLimbs_magnitude (n bits : ℕ) :
    shlAbsLimbs (magnitude n) bits = magnitude (n * 2 ^ bits) :=
  shlAbsLimbsInto_magnitude n bits []

/-- The limbs that the loop from the top has in place: the shifted limbs, on a low limb that
takes the high bits of the next one. -/
lemma foldrM_shlDown {bits : ℕ} {limbs : List ℕ} (hzero : bits ≠ 0) (hbits : bits ≤ 64)
    (hlimbs : Words limbs) :
    ∃ upper, limbs.foldrM (shlDown bits) [0] = .ok upper ∧
      ∃ head tail, upper = head :: tail ∧ Words tail ∧ head < base ∧
        head % 2 ^ bits = 0 ∧ value base upper = value base limbs * 2 ^ bits := by
  induction limbs with
  | nil => exact ⟨[0], rfl, 0, [], rfl, by simp, base_pos, by simp, by simp⟩
  | cons l ls ih =>
    obtain ⟨hl, hls⟩ := digits_cons.mp hlimbs
    obtain ⟨upper, hrun, head, tail, rfl, htail, hhead, hmod, hvalue⟩ := ih hls
    have hcarry := shr_limb_lt hbits hl
    -- the low limb of the upper part has room for the high bits
    have hor : (head ||| l >>> (64 - bits)) = head + l >>> (64 - bits) := by
      obtain ⟨k, rfl⟩ := Nat.dvd_of_mod_eq_zero hmod
      exact (Nat.two_pow_add_eq_or_of_lt hcarry k).symm
    have hroom : head + l >>> (64 - bits) < base := by
      obtain ⟨k, rfl⟩ := Nat.dvd_of_mod_eq_zero hmod
      rw [base_eq_pow_mul hbits] at hhead ⊢
      have hk : k + 1 ≤ 2 ^ (64 - bits) := Nat.lt_of_mul_lt_mul_left hhead
      have hmul := Nat.mul_le_mul_left (2 ^ bits) hk
      rw [Nat.mul_add, Nat.mul_one] at hmul
      omega
    have hlimb := (shl_limb l hbits (Nat.two_pow_pos bits)).1
    have hlow := shl_limb_lt l hbits (Nat.two_pow_pos bits)
    rw [Nat.or_zero] at hlimb hlow
    refine ⟨(l <<< bits) % base :: (head + l >>> (64 - bits)) :: tail, ?_, _, _, rfl, ?_, hlow,
      ?_, ?_⟩
    · rw [List.foldrM_cons, hrun, ok_bind]
      simp only [shlDown, if_neg hzero, hor, pure_eq]
    · exact digits_cons.mpr ⟨hroom, htail⟩
    · rw [base_eq_pow_mul hbits, Nat.shiftLeft_eq, Nat.mul_comm l, Nat.mul_mod_mul_left,
        Nat.mul_mod_right]
    · rw [value_cons] at hvalue
      rw [value_cons, value_cons, value_cons]
      linear_combination hlimb + base * hvalue

lemma foldrM_shlDown_zero (limbs : List ℕ) (hlimbs : Words limbs) :
    limbs.foldrM (shlDown 0) [] = .ok limbs := by
  induction limbs with
  | nil => rfl
  | cons l ls ih =>
    obtain ⟨hl, hls⟩ := digits_cons.mp hlimbs
    rw [List.foldrM_cons, ih hls, ok_bind]
    simp only [shlDown, if_true, Nat.shiftLeft_zero, Nat.mod_eq_of_lt hl, pure_eq]

/-- `shl_abs_limbs_assign` multiplies by the power of two. -/
lemma shlAbsLimbsAssign_magnitude (n bits : ℕ) :
    shlAbsLimbsAssign (magnitude n) bits = .ok (magnitude (n * 2 ^ bits)) := by
  unfold shlAbsLimbsAssign
  by_cases hnil : magnitude n = [] ∨ bits = 0
  · rw [if_pos hnil]
    obtain hn | rfl := hnil
    · rw [magnitude_eq_nil] at hn
      simp [hn, pure_eq]
    · simp [pure_eq]
  · rw [if_neg hnil]
    obtain ⟨hn, hbits⟩ := not_or.mp hnil
    rw [magnitude_eq_nil] at hn
    by_cases hsmall : bits / 64 = 0 ∧ bits % 64 ≠ 0
    · have heq : bits % 64 = bits := by omega
      rw [if_pos hsmall, heq, pure_eq]
      exact congrArg Except.ok (shlSmall_magnitude n (by omega) hn)
    · rw [if_neg hsmall]
      have hzeros := Digits.replicate_zero base_pos (bits / 64)
      by_cases hzero : bits % 64 = 0
      · simp only [hzero, ne_eq, not_true_eq_false, if_false,
          foldrM_shlDown_zero _ (words_magnitude n), ok_bind, pure_eq]
        congr 1
        apply trim_eq_magnitude (digits_append.mpr ⟨hzeros, words_magnitude n⟩)
        rw [value_append, value_replicate_zero, List.length_replicate, value_magnitude,
          two_pow_eq bits, hzero]
        ring
      · obtain ⟨upper, hrun, head, tail, rfl, htail, hhead, -, hvalue⟩ :=
          foldrM_shlDown hzero (mod_64_le bits) (words_magnitude n)
        simp only [hzero, ne_eq, not_false_eq_true, if_true, hrun, ok_bind, pure_eq]
        congr 1
        apply trim_eq_magnitude (digits_append.mpr ⟨hzeros, digits_cons.mpr ⟨hhead, htail⟩⟩)
        rw [value_append, value_replicate_zero, List.length_replicate, hvalue, value_magnitude,
          two_pow_eq bits]
        ring

/-! ## Right shifts -/

lemma headD_eq_value_mod {limbs : List ℕ} (hlimbs : Words limbs) :
    limbs.headD 0 = value base limbs % base := by
  cases limbs with
  | nil => simp
  | cons l ls =>
    obtain ⟨hl, -⟩ := digits_cons.mp hlimbs
    simp [Nat.mod_eq_of_lt hl]

/-- The limbs of a right shift by less than a limb. -/
lemma shrLoop_spec {bits : ℕ} {limbs : List ℕ} (hbits : bits < 64) (hlimbs : Words limbs) :
    Words (shrLoop bits limbs) ∧ value base (shrLoop bits limbs) = value base limbs / 2 ^ bits := by
  induction limbs with
  | nil => simp [shrLoop]
  | cons l ls ih =>
    obtain ⟨hl, hls⟩ := digits_cons.mp hlimbs
    obtain ⟨hwords, hvalue⟩ := ih hls
    by_cases hzero : bits = 0
    · subst hzero
      simp only [shrLoop, if_true, Nat.shiftRight_zero, digits_cons, value_cons, hvalue, pow_zero,
        Nat.div_one]
      exact ⟨⟨hl, hwords⟩, trivial⟩
    · -- the low bits of the next limb come above what is left of this one
      have hsub : 64 - (64 - bits) = bits := by omega
      have hlow : l >>> bits < 2 ^ (64 - bits) := by
        have hlt : l >>> (64 - (64 - bits)) < 2 ^ (64 - bits) := shr_limb_lt (by omega) hl
        rwa [hsub] at hlt
      obtain ⟨hsum, hadd⟩ := shl_limb (ls.headD 0) (by omega) hlow
      have hbound := shl_limb_lt (ls.headD 0) (by omega) hlow
      rw [Nat.or_comm] at hsum hadd hbound
      rw [hsub] at hsum
      simp only [shrLoop, if_neg hzero, digits_cons, value_cons]
      refine ⟨⟨hbound, hwords⟩, ?_⟩
      rw [hvalue]
      have hsplit := base_eq_pow_mul hbits.le
      have hpow : 0 < 2 ^ bits := Nat.two_pow_pos bits
      have hdiv : (l + base * value base ls) / 2 ^ bits
          = l / 2 ^ bits + 2 ^ (64 - bits) * value base ls := by
        rw [hsplit, Nat.mul_assoc, Nat.add_mul_div_left _ _ hpow]
      have hhead := headD_eq_value_mod hls
      have hwhole := Nat.mod_add_div (value base ls) base
      rw [← hhead] at hwhole
      have htop : ls.headD 0 >>> bits + 2 ^ (64 - bits) * (value base ls / base)
          = value base ls / 2 ^ bits := by
        conv_rhs => rw [← hwhole, hsplit, Nat.mul_assoc, Nat.add_mul_div_left _ _ hpow]
        rw [← hsplit, Nat.shiftRight_eq_div_pow]
      rw [hdiv]
      rw [Nat.shiftRight_eq_div_pow l] at hsum
      rw [Nat.shiftRight_eq_div_pow l, ← htop]
      linear_combination hsum + 2 ^ (64 - bits) * hwhole

/-- `shr_abs_limbs_into` divides by the power of two, also on limbs with leading zeros. -/
lemma shrAbsLimbsInto_eq {limbs : List ℕ} (hlimbs : Words limbs) (bits : ℕ) (output : List ℕ) :
    shrAbsLimbsInto limbs bits output = magnitude (value base limbs / 2 ^ bits) := by
  unfold shrAbsLimbsInto
  by_cases hlong : bits / 64 ≥ limbs.length
  · have hzero : value base limbs / 2 ^ bits = 0 := by
      apply Nat.div_eq_of_lt
      calc value base limbs < base ^ limbs.length := Digits.value_lt one_lt_base hlimbs
        _ ≤ base ^ (bits / 64) := Nat.pow_le_pow_right base_pos hlong
        _ ≤ base ^ (bits / 64) * 2 ^ (bits % 64) := Nat.le_mul_of_pos_right _ (by positivity)
        _ = 2 ^ bits := (two_pow_eq bits).symm
    simp [hlong, hzero]
  · rw [if_neg hlong]
    by_cases hsmall : bits / 64 = 0 ∧ bits % 64 ≠ 0
    · obtain ⟨hwords, hvalue⟩ := shrLoop_spec (show bits % 64 < 64 by omega) hlimbs
      have heq : bits % 64 = bits := by omega
      rw [heq] at hwords hvalue
      rw [if_pos hsmall, heq, shrAbsLimbsSmallInto, trim_eq_magnitude hwords hvalue]
    · obtain ⟨hwords, hvalue⟩ :=
        shrLoop_spec (show bits % 64 < 64 by omega) (hlimbs.drop (bits / 64))
      rw [if_neg hsmall]
      apply trim_eq_magnitude hwords
      have hsplit := value_take_add_drop (b := base) limbs (Nat.le_of_not_ge hlong)
      have htake := Digits.value_lt one_lt_base (hlimbs.take (bits / 64))
      rw [List.length_take, Nat.min_eq_left (Nat.le_of_not_ge hlong)] at htake
      have hdrop : value base limbs / base ^ (bits / 64) = value base (limbs.drop (bits / 64)) := by
        rw [hsplit, Nat.add_mul_div_left _ _ (Nat.pow_pos base_pos), Nat.div_eq_of_lt htake,
          Nat.zero_add]
      rw [hvalue, two_pow_eq bits, ← Nat.div_div_eq_div_mul, hdrop]

lemma shrAbsLimbs_magnitude (n bits : ℕ) :
    shrAbsLimbs (magnitude n) bits = magnitude (n / 2 ^ bits) := by
  rw [shrAbsLimbs, shrAbsLimbsInto_eq (words_magnitude n), value_magnitude]

/-! ## The doubled comparison -/

lemma getElem_magnitude {limbs : List ℕ} (hlimbs : Words limbs) {index : ℕ}
    (h : index < limbs.length) : limbs[index] = value base limbs / base ^ index % base := by
  have hdrop := Nat.ofDigits_div_pow_eq_ofDigits_drop index base_pos limbs hlimbs
  rw [hdrop, List.drop_eq_getElem_cons h, Nat.ofDigits_cons]
  have hlt := hlimbs _ (List.getElem_mem h)
  simp [Nat.mod_eq_of_lt hlt]

lemma limbAt_eq {limbs : List ℕ} {index : ℕ} (h : index < limbs.length) :
    limbAt limbs index = .ok limbs[index] := by
  simp [limbAt, Outcome.ofOption, h]

/-- A limb of the doubled number. -/
lemma shiftedLeftOneLimbUnchecked_eq {limbs : List ℕ} (hlimbs : Words limbs) {index : ℕ}
    (h : index ≤ limbs.length) :
    shiftedLeftOneLimbUnchecked limbs index
      = .ok (2 * value base limbs / base ^ index % base) := by
  have hlow : (if index < limbs.length then
        (fun limb => (limb <<< 1) % base) <$> limbAt limbs index
      else pure 0 : Run ℕ) = .ok ((value base limbs / base ^ index % base) <<< 1 % base) := by
    by_cases hlt : index < limbs.length
    · rw [if_pos hlt, limbAt_eq hlt, getElem_magnitude hlimbs hlt]
      rfl
    · have hzero : value base limbs / base ^ index = 0 := by
        apply Nat.div_eq_of_lt
        exact lt_of_lt_of_le (Digits.value_lt one_lt_base hlimbs)
          (Nat.pow_le_pow_right base_pos (Nat.le_of_not_lt hlt))
      rw [if_neg hlt, hzero]
      rfl
  cases index with
  | zero =>
    simp only [shiftedLeftOneLimbUnchecked]
    rw [hlow]
    simp only [ok_bind, if_true, pure_eq, pow_zero, Nat.div_one, Nat.or_zero, Nat.shiftLeft_eq,
      pow_one]
    rw [Nat.mul_comm, Nat.mul_mod_mod]
  | succ index =>
    have hlt : index < limbs.length := h
    have hcarryRun : (fun limb => limb >>> 63) <$> limbAt limbs index
        = .ok ((value base limbs / base ^ index % base) >>> 63) := by
      rw [limbAt_eq hlt, getElem_magnitude hlimbs hlt]
      rfl
    simp only [shiftedLeftOneLimbUnchecked]
    rw [hlow]
    simp only [ok_bind, Nat.add_one_ne_zero, if_false, Nat.add_sub_cancel, hcarryRun, pure_eq]
    have hcarry : (value base limbs / base ^ index % base) >>> 63 < 2 ^ 1 := by
      rw [Nat.shiftRight_eq_div_pow]
      exact Nat.div_lt_of_lt_mul (Nat.mod_lt _ base_pos)
    rw [(shl_limb _ (by norm_num : 1 ≤ 64) hcarry).2, Nat.shiftLeft_eq, Nat.shiftRight_eq_div_pow]
    have hnext : value base limbs / base ^ (index + 1)
        = value base limbs / base ^ index / base := by
      rw [Nat.div_div_eq_div_mul, pow_succ]
    have hdouble : 2 * value base limbs / base ^ (index + 1)
        = value base limbs / base ^ index / 2 ^ 63 := by
      rw [Nat.div_div_eq_div_mul, pow_succ, show base = 2 * 2 ^ 63 from rfl,
        Nat.mul_left_comm _ 2, Nat.mul_div_mul_left _ _ (by norm_num)]
    rw [hnext, hdouble, base_eq]
    congr 1
    omega

/-- The loop compares what is below the limbs it has compared. -/
lemma cmpDoubleLoop_eq {left right : List ℕ} (hleft : Words left) (hright : Words right)
    {count : ℕ} (hcountLeft : count ≤ left.length) (hcountRight : count ≤ right.length + 1) :
    cmpDoubleLoop left right count
      = .ok (compare (value base left % base ^ count) (2 * value base right % base ^ count)) := by
  induction count with
  | zero => simp [cmpDoubleLoop, Nat.mod_one, pure_eq]
  | succ count ih =>
    have hlow : ∀ n : ℕ, n % base ^ (count + 1)
        = n % base ^ count + base ^ count * (n / base ^ count % base) := by
      intro n
      rw [pow_succ, Nat.mod_mul]
    rw [cmpDoubleLoop, shiftedLeftOneLimbUnchecked_eq hright (by omega), ok_bind,
      limbAt_eq (by omega), ok_bind, getElem_magnitude hleft (by omega), hlow, hlow,
      compare_add_mul (Nat.mod_lt _ (Nat.pow_pos base_pos)) (Nat.mod_lt _ (Nat.pow_pos base_pos)),
      ih (by omega) (by omega)]
    cases compare (value base left / base ^ count % base)
      (2 * value base right / base ^ count % base) <;> rfl

lemma length_magnitude {n k : ℕ} (hlow : base ^ k ≤ n) (hhigh : n < base ^ (k + 1)) :
    (magnitude n).length = k + 1 :=
  Nat.le_antisymm ((Nat.digits_length_le_iff one_lt_base n).mpr hhigh)
    ((Nat.lt_digits_length_iff one_lt_base n).mpr hlow)

lemma getLastD_eq {limbs : List ℕ} (h : limbs ≠ []) : limbs.getLastD 0 = limbs.getLast h := by
  rw [List.getLastD_eq_getLast?, List.getLast?_eq_some_getLast h]
  rfl

/-- The top limb of a natural. -/
lemma getLast_magnitude {n : ℕ} (h : magnitude n ≠ []) :
    (magnitude n).getLast h = n / base ^ ((magnitude n).length - 1) := by
  have hpos : 0 < (magnitude n).length := List.length_pos_iff.mpr h
  rw [List.getLast_eq_getElem, getElem_magnitude (words_magnitude n) (Nat.sub_one_lt hpos.ne'),
    value_magnitude]
  apply Nat.mod_eq_of_lt
  apply Nat.div_lt_of_lt_mul
  rw [← pow_succ, Nat.sub_add_cancel hpos]
  exact Nat.lt_base_pow_length_digits one_lt_base

/-- The doubled number has one limb more exactly when the top bit is set. -/
lemma length_magnitude_double {n : ℕ} (hn : n ≠ 0) :
    (magnitude (2 * n)).length
      = (magnitude n).length + if (magnitude n).getLastD 0 >>> 63 ≠ 0 then 1 else 0 := by
  have hne : magnitude n ≠ [] := by simpa using hn
  obtain ⟨k, hk⟩ : ∃ k, (magnitude n).length = k + 1 :=
    Nat.exists_eq_add_one.mpr (List.length_pos_iff.mpr hne)
  have hlow := pow_length_magnitude_le hn
  have hhigh : n < base ^ (magnitude n).length := Nat.lt_base_pow_length_digits one_lt_base
  rw [getLastD_eq hne, getLast_magnitude hne, Nat.shiftRight_eq_div_pow, Nat.div_div_eq_div_mul]
  rw [hk, Nat.add_sub_cancel] at *
  have hpow : base ^ (k + 1) = 2 * (base ^ k * 2 ^ 63) := by
    rw [pow_succ, show base = 2 * 2 ^ 63 from rfl]
    ring
  by_cases htop : n / (base ^ k * 2 ^ 63) = 0
  · have hlt : n < base ^ k * 2 ^ 63 := by
      rcases (Nat.div_eq_zero_iff).mp htop with hzero | hlt
      · exact absurd hzero (Nat.mul_pos (Nat.pow_pos base_pos) (by norm_num)).ne'
      · exact hlt
    rw [if_neg (not_not.mpr htop), Nat.add_zero]
    exact length_magnitude (by omega) (by omega)
  · have hle : base ^ k * 2 ^ 63 ≤ n := by
      by_contra hlt
      exact htop (Nat.div_eq_of_lt (Nat.lt_of_not_le hlt))
    rw [if_pos htop]
    apply length_magnitude (by omega)
    calc 2 * n < 2 * base ^ (k + 1) := by omega
      _ ≤ base ^ (k + 1) * base := by
        rw [Nat.mul_comm]
        exact Nat.mul_le_mul_left _ one_lt_base
      _ = base ^ (k + 1 + 1) := (pow_succ _ _).symm

/-- `cmp_abs_to_double` compares with twice the number. -/
lemma cmpAbsToDouble_magnitude (m : ℕ) {n : ℕ} (hn : n ≠ 0) :
    cmpAbsToDouble (magnitude m) (magnitude n) = .ok (compare m (2 * n)) := by
  have hne : magnitude n ≠ [] := by simpa using hn
  have hdouble := length_magnitude_double hn
  unfold cmpAbsToDouble
  simp only [Outcome.bailIf, if_neg hne, ← hdouble]
  rcases Nat.lt_trichotomy (magnitude m).length (magnitude (2 * n)).length with hlen | hlen | hlen
  · rw [Nat.compare_eq_lt.mpr hlen, Nat.compare_eq_lt.mpr (length_magnitude_lt_iff hlen)]
    rfl
  · have hloop := cmpDoubleLoop_eq (words_magnitude m) (words_magnitude n)
      hlen.ge (by rw [hdouble]; split <;> omega)
    have hm : m < base ^ (magnitude (2 * n)).length := by
      rw [← hlen]
      exact Nat.lt_base_pow_length_digits one_lt_base
    have hd : 2 * n < base ^ (magnitude (2 * n)).length :=
      Nat.lt_base_pow_length_digits one_lt_base
    rw [value_magnitude, value_magnitude, Nat.mod_eq_of_lt hm, Nat.mod_eq_of_lt hd] at hloop
    rw [Nat.compare_eq_eq.mpr hlen]
    exact hloop
  · rw [Nat.compare_eq_gt.mpr hlen, Nat.compare_eq_gt.mpr (length_magnitude_lt_iff hlen)]
    rfl

end Vdf

end Iuna
