import Iuna.Domain.Limbs
import Iuna.Library.Positional
import Mathlib.Tactic.LinearCombination

/-!
# The magnitude arithmetic is exact

`magnitude n` is the vector without a leading zero limb of a natural.  Every function of
`limbs/mod.rs` on magnitudes takes such vectors to such vectors of the exact result: comparison,
sums and differences, products, shifts, each by an invariant of its loop about values of limbs.
-/

namespace Iuna

namespace Vdf

open Positional

/-- The limbs of a natural. -/
abbrev magnitude (n : ℕ) : List ℕ := Nat.digits base n

/-- Every entry is a limb. -/
abbrev Words (limbs : List ℕ) : Prop := Digits base limbs

lemma one_lt_base : 1 < base := by decide

lemma base_pos : 0 < base := by decide

lemma base_eq : base = 18446744073709551616 := by decide

lemma words_magnitude (n : ℕ) : Words (magnitude n) := Digits.of_nat one_lt_base n

lemma value_magnitude (n : ℕ) : value base (magnitude n) = n := value_digits n

@[simp] lemma magnitude_eq_nil {n : ℕ} : magnitude n = [] ↔ n = 0 := Nat.digits_eq_nil_iff_eq_zero

lemma magnitude_zero : magnitude 0 = [] := by simp

lemma trim_eq_magnitude {limbs : List ℕ} {n : ℕ} (h : Words limbs) (hvalue : value base limbs = n) :
    trimLeadingZeroLimbs limbs = magnitude n :=
  rdropWhile_zero_eq_digits one_lt_base h hvalue

@[simp] lemma trim_magnitude (n : ℕ) : trimLeadingZeroLimbs (magnitude n) = magnitude n :=
  trim_eq_magnitude (words_magnitude n) (value_magnitude n)

lemma getLast_magnitude_ne_zero (n : ℕ) (h : magnitude n ≠ []) : (magnitude n).getLast h ≠ 0 :=
  Nat.getLast_digit_ne_zero base (fun hn => h (magnitude_eq_nil.mpr hn))

lemma magnitude_of_lt {n : ℕ} (hpos : n ≠ 0) (h : n < base) : magnitude n = [n] :=
  Nat.digits_of_lt base n hpos h

/-- A sum in range of `u128` is the sum. -/
lemma wide_eq {n : ℕ} (h : n < 2 ^ 128) : wide n = .ok n := if_pos h

lemma base_mul_base : base * base = 2 ^ 128 := by decide

lemma wide_of_lt {n : ℕ} (h : n < base * base) : wide n = .ok n :=
  wide_eq (base_mul_base ▸ h)

@[simp] lemma ok_bind {α β : Type} (a : α) (f : α → Run β) : (Except.ok a >>= f) = f a := rfl

lemma pure_eq {α : Type} (a : α) : (pure a : Run α) = .ok a := rfl

/-! ## Comparison -/

lemma compare_add_mul {a b m n B : ℕ} (ha : a < B) (hb : b < B) :
    compare (a + B * m) (b + B * n) =
      match compare m n with
      | .eq => compare a b
      | other => other := by
  rcases Nat.lt_trichotomy m n with hmn | hmn | hmn
  · rw [Nat.compare_eq_lt.mpr hmn]
    have hstep : B * (m + 1) ≤ B * n := Nat.mul_le_mul_left B hmn
    rw [Nat.mul_add, Nat.mul_one] at hstep
    exact Nat.compare_eq_lt.mpr (by omega)
  · subst hmn
    rw [Nat.compare_eq_eq.mpr rfl]
    rcases Nat.lt_trichotomy a b with hab | hab | hab
    · rw [Nat.compare_eq_lt.mpr hab]
      exact Nat.compare_eq_lt.mpr (by omega)
    · subst hab
      rw [Nat.compare_eq_eq.mpr rfl, Nat.compare_eq_eq.mpr rfl]
    · rw [Nat.compare_eq_gt.mpr hab]
      exact Nat.compare_eq_gt.mpr (by omega)
  · rw [Nat.compare_eq_gt.mpr hmn]
    have hstep : B * (n + 1) ≤ B * m := Nat.mul_le_mul_left B hmn
    rw [Nat.mul_add, Nat.mul_one] at hstep
    exact Nat.compare_eq_gt.mpr (by omega)

/-- Comparison from the highest limb is comparison of the values. -/
lemma cmpLimbs_eq {left right : List ℕ} (hlen : left.length = right.length) (hleft : Words left)
    (hright : Words right) :
    cmpLimbs left right = compare (value base left.reverse) (value base right.reverse) := by
  induction left generalizing right with
  | nil =>
    obtain rfl : right = [] := List.length_eq_zero_iff.mp hlen.symm
    simp [cmpLimbs]
  | cons l ls ih =>
    obtain _ | ⟨r, rs⟩ := right
    · simp at hlen
    · simp only [List.length_cons, Nat.add_right_cancel_iff] at hlen
      obtain ⟨-, hls⟩ := digits_cons.mp hleft
      obtain ⟨-, hrs⟩ := digits_cons.mp hright
      have hlow : ∀ ds : List ℕ, Words ds → value base ds.reverse < base ^ ds.length := by
        intro ds hds
        have hlt := Digits.value_lt one_lt_base
          (show Words ds.reverse from fun d hd => hds d (List.mem_reverse.mp hd))
        rwa [List.length_reverse] at hlt
      simp only [List.reverse_cons, value_append, List.length_reverse, value_cons, value_nil,
        Nat.mul_zero, Nat.add_zero, cmpLimbs]
      rw [ih hlen hls hrs, ← hlen]
      exact (compare_add_mul (hlow ls hls) (hlen ▸ hlow rs hrs)).symm

lemma length_magnitude_lt_iff {m n : ℕ} (h : (magnitude m).length < (magnitude n).length) :
    m < n := by
  have hle : base ^ (magnitude m).length ≤ n := (Nat.lt_digits_length_iff one_lt_base n).mp h
  exact lt_of_lt_of_le (Nat.lt_base_pow_length_digits one_lt_base) hle

/-- `cmp_abs_limbs` compares the naturals. -/
lemma cmpAbsLimbs_magnitude (m n : ℕ) :
    cmpAbsLimbs (magnitude m) (magnitude n) = compare m n := by
  unfold cmpAbsLimbs
  rcases Nat.lt_trichotomy (magnitude m).length (magnitude n).length with hlen | hlen | hlen
  · rw [Nat.compare_eq_lt.mpr hlen, Nat.compare_eq_lt.mpr (length_magnitude_lt_iff hlen)]
  · rw [Nat.compare_eq_eq.mpr hlen]
    have hcmp := cmpLimbs_eq
      (show (magnitude m).reverse.length = (magnitude n).reverse.length by simpa using hlen)
      (fun d hd => words_magnitude m d (List.mem_reverse.mp hd))
      (fun d hd => words_magnitude n d (List.mem_reverse.mp hd))
    rw [List.reverse_reverse, List.reverse_reverse, value_magnitude, value_magnitude] at hcmp
    exact hcmp
  · rw [Nat.compare_eq_gt.mpr hlen, Nat.compare_eq_gt.mpr (length_magnitude_lt_iff hlen)]

/-! ## Addition -/

lemma overflowingAdd_spec {l r : ℕ} (hl : l < base) (hr : r < base) :
    (overflowingAdd l r).1 < base ∧
      (overflowingAdd l r).1 + base * (overflowingAdd l r).2.toNat = l + r := by
  unfold overflowingAdd
  rw [base_eq] at *
  by_cases h : 18446744073709551616 ≤ l + r
  · simp only [h, decide_true, Bool.toNat_true]
    omega
  · simp only [h, decide_false, Bool.toNat_false]
    omega

lemma addLimb_spec {l r carry : ℕ} (hl : l < base) (hr : r < base) (hcarry : carry ≤ 1) :
    (addLimb l r carry).1 < base ∧ (addLimb l r carry).2 ≤ 1 ∧
      (addLimb l r carry).1 + base * (addLimb l r carry).2 = l + r + carry := by
  unfold addLimb overflowingAdd
  rw [base_eq] at *
  by_cases hfirst : 18446744073709551616 ≤ l + r
  · have hsecond : ¬18446744073709551616 ≤ (l + r) % 18446744073709551616 + carry := by omega
    simp only [hfirst, hsecond, decide_true, decide_false, Bool.or_false, Bool.toNat_true]
    omega
  · by_cases hsecond : 18446744073709551616 ≤ (l + r) % 18446744073709551616 + carry
    · simp only [hfirst, hsecond, decide_true, decide_false, Bool.false_or, Bool.toNat_true]
      omega
    · simp only [hfirst, hsecond, decide_false, Bool.or_self, Bool.toNat_false]
      omega

lemma addShared_spec {left right : List ℕ} {carry : ℕ} (hleft : Words left)
    (hright : Words right) (hcarry : carry ≤ 1) :
    Words (addShared left right carry).1 ∧ (addShared left right carry).2 ≤ 1 ∧
      (addShared left right carry).1.length = min left.length right.length ∧
      value base (addShared left right carry).1
          + base ^ min left.length right.length * (addShared left right carry).2
        = value base (left.take (min left.length right.length))
          + value base (right.take (min left.length right.length)) + carry := by
  induction left generalizing right carry with
  | nil => simp [addShared, hcarry]
  | cons l ls ih =>
    obtain _ | ⟨r, rs⟩ := right
    · simp [addShared, hcarry]
    · obtain ⟨hl, hls⟩ := digits_cons.mp hleft
      obtain ⟨hr, hrs⟩ := digits_cons.mp hright
      obtain ⟨hsum, hone, hlimb⟩ := addLimb_spec hl hr hcarry
      obtain ⟨hwords, hlast, hlen, hvalue⟩ := ih hls hrs hone
      simp only [addShared, List.length_cons, Nat.add_min_add_right, List.take_succ_cons,
        value_cons, digits_cons]
      refine ⟨⟨hsum, hwords⟩, hlast, by rw [hlen], ?_⟩
      rw [pow_succ']
      linear_combination hlimb + base * hvalue

lemma addRemaining_spec {limbs : List ℕ} {carry : ℕ} (hlimbs : Words limbs) (hcarry : carry ≤ 1) :
    Words (addRemaining limbs carry).1 ∧ (addRemaining limbs carry).2 ≤ 1 ∧
      (addRemaining limbs carry).1.length = limbs.length ∧
      value base (addRemaining limbs carry).1
          + base ^ limbs.length * (addRemaining limbs carry).2
        = value base limbs + carry := by
  induction limbs generalizing carry with
  | nil => simp [addRemaining, hcarry]
  | cons l ls ih =>
    obtain ⟨hl, hls⟩ := digits_cons.mp hlimbs
    obtain ⟨hsum, hlimb⟩ := overflowingAdd_spec hl (lt_of_le_of_lt hcarry one_lt_base)
    obtain ⟨hwords, hlast, hlen, hvalue⟩ := ih hls (Bool.toNat_le (overflowingAdd l carry).2)
    simp only [addRemaining, List.length_cons, value_cons, digits_cons]
    refine ⟨⟨hsum, hwords⟩, hlast, by rw [hlen], ?_⟩
    rw [pow_succ']
    linear_combination hlimb + base * hvalue

/-- A list of limbs with a carry limb above it when there is a carry. -/
lemma append_carry_eq_magnitude {limbs : List ℕ} {carry n : ℕ} (hlimbs : Words limbs)
    (hcarry : carry < base) (hvalue : value base limbs + base ^ limbs.length * carry = n)
    (hbound : carry = 0 → ∀ h : limbs ≠ [], limbs.getLast h ≠ 0) :
    limbs ++ (if carry ≠ 0 then [carry] else []) = magnitude n := by
  by_cases h : carry = 0
  · subst h
    simp only [ne_eq, not_true_eq_false, if_false, List.append_nil]
    exact eq_digits one_lt_base hlimbs (by simpa using hvalue) (hbound rfl)
  · rw [if_pos h]
    apply eq_digits one_lt_base
    · exact digits_append.mpr ⟨hlimbs, by simpa using hcarry⟩
    · simpa using hvalue
    · intro _
      simpa using h

/-- A list of limbs whose value needs its last limb does not end in zero. -/
lemma getLast_ne_zero_of_le {limbs : List ℕ} (hlimbs : Words limbs)
    (hle : limbs ≠ [] → base ^ (limbs.length - 1) ≤ value base limbs) (h : limbs ≠ []) :
    limbs.getLast h ≠ 0 := by
  intro hzero
  have hsplit := List.dropLast_append_getLast h
  have hvalue : value base limbs = value base limbs.dropLast := by
    conv_lhs => rw [← hsplit, hzero]
    simp
  have hlt := Digits.value_lt one_lt_base
    (show Words limbs.dropLast from fun d hd => hlimbs d (List.mem_of_mem_dropLast hd))
  rw [List.length_dropLast] at hlt
  have hle' := hle h
  omega

lemma pow_length_magnitude_le {n : ℕ} (h : n ≠ 0) : base ^ ((magnitude n).length - 1) ≤ n := by
  have hlen : 0 < (magnitude n).length := by
    rw [List.length_pos_iff]
    simpa using h
  exact (Nat.lt_digits_length_iff one_lt_base n).mp (Nat.sub_one_lt hlen.ne')

/-- The sum that the two loops of an addition make. -/
lemma added_eq_magnitude {m n : ℕ} {remaining : List ℕ}
    (hremaining : remaining =
      if (magnitude m).length > (magnitude n).length then
        (magnitude m).drop (min (magnitude m).length (magnitude n).length)
      else (magnitude n).drop (min (magnitude m).length (magnitude n).length)) :
    (addShared (magnitude m) (magnitude n) 0).1 ++
      (addRemaining remaining (addShared (magnitude m) (magnitude n) 0).2).1 ++
      (if (addRemaining remaining (addShared (magnitude m) (magnitude n) 0).2).2 ≠ 0 then
        [(addRemaining remaining (addShared (magnitude m) (magnitude n) 0).2).2] else [])
      = magnitude (m + n) := by
  have hm := words_magnitude m
  have hn := words_magnitude n
  obtain ⟨hlow, hcarry, hlowLen, hlowValue⟩ := addShared_spec hm hn (Nat.zero_le 1)
  have hwords : Words remaining := by
    rw [hremaining]
    split
    · exact hm.drop _
    · exact hn.drop _
  obtain ⟨hhigh, hlast, hhighLen, hhighValue⟩ := addRemaining_spec hwords hcarry
  -- the length of the sum is that of the longer operand
  have hlen : min (magnitude m).length (magnitude n).length + remaining.length
      = max (magnitude m).length (magnitude n).length := by
    rw [hremaining]
    split <;> rw [List.length_drop] <;> omega
  have htotal : value base ((magnitude m).take (min (magnitude m).length (magnitude n).length))
        + value base ((magnitude n).take (min (magnitude m).length (magnitude n).length))
        + base ^ min (magnitude m).length (magnitude n).length * value base remaining
      = m + n := by
    have hsplitm := value_take_add_drop (b := base) (magnitude m)
      (Nat.min_le_left (magnitude m).length (magnitude n).length)
    have hsplitn := value_take_add_drop (b := base) (magnitude n)
      (Nat.min_le_right (magnitude m).length (magnitude n).length)
    rw [value_magnitude] at hsplitm hsplitn
    rw [hremaining]
    split
    · next hlt =>
      rw [show (magnitude n).drop (min (magnitude m).length (magnitude n).length) = [] from
        List.drop_eq_nil_of_le (by omega), value_nil] at hsplitn
      omega
    · next hlt =>
      rw [show (magnitude m).drop (min (magnitude m).length (magnitude n).length) = [] from
        List.drop_eq_nil_of_le (by omega), value_nil] at hsplitm
      omega
  have hvalue : value base ((addShared (magnitude m) (magnitude n) 0).1 ++
        (addRemaining remaining (addShared (magnitude m) (magnitude n) 0).2).1)
      + base ^ (max (magnitude m).length (magnitude n).length)
        * (addRemaining remaining (addShared (magnitude m) (magnitude n) 0).2).2 = m + n := by
    rw [value_append, hlowLen, ← hlen, pow_add]
    linear_combination hlowValue
      + base ^ min (magnitude m).length (magnitude n).length * hhighValue + htotal
  apply append_carry_eq_magnitude
  · exact digits_append.mpr ⟨hlow, hhigh⟩
  · exact lt_of_le_of_lt hlast one_lt_base
  · rw [List.length_append, hlowLen, hhighLen, hlen]
    exact hvalue
  · intro hzero hne
    rw [hzero, Nat.mul_zero, Nat.add_zero] at hvalue
    apply getLast_ne_zero_of_le (digits_append.mpr ⟨hlow, hhigh⟩)
    intro _
    rw [List.length_append, hlowLen, hhighLen, hlen, hvalue]
    -- the longer operand already reaches its own top limb
    rcases Nat.le_total (magnitude m).length (magnitude n).length with hle | hle
    · rcases Nat.eq_zero_or_pos n with rfl | hpos
      · simp only [magnitude_zero, List.length_nil, Nat.le_zero] at hle
        simp only [List.ne_nil_iff_length_pos, List.length_append, hlowLen, hhighLen, hlen] at hne
        simp [hle] at hne
      · rw [Nat.max_eq_right hle]
        exact (pow_length_magnitude_le hpos.ne').trans (Nat.le_add_left n m)
    · rcases Nat.eq_zero_or_pos m with rfl | hpos
      · simp only [magnitude_zero, List.length_nil, Nat.le_zero] at hle
        simp only [List.ne_nil_iff_length_pos, List.length_append, hlowLen, hhighLen, hlen] at hne
        simp [hle] at hne
      · rw [Nat.max_eq_left hle]
        exact (pow_length_magnitude_le hpos.ne').trans (Nat.le_add_right m n)

/-- `add_abs_limbs_into` adds. -/
lemma addAbsLimbsInto_magnitude (m n : ℕ) (output : List ℕ) :
    addAbsLimbsInto (magnitude m) (magnitude n) output = magnitude (m + n) :=
  added_eq_magnitude rfl

/-- `add_abs_limbs_assign` adds. -/
lemma addAbsLimbsAssign_magnitude (m n : ℕ) :
    addAbsLimbsAssign (magnitude m) (magnitude n) = magnitude (m + n) := by
  unfold addAbsLimbsAssign
  by_cases h : (magnitude n).length > (magnitude m).length
  · simp only [h, if_true]
    exact added_eq_magnitude (by rw [if_neg (by omega)])
  · simp only [h, if_false]
    by_cases heq : (magnitude m).length = (magnitude n).length
    · apply added_eq_magnitude
      rw [if_neg (by omega), heq, Nat.min_self, List.drop_eq_nil_of_le (by omega),
        List.drop_eq_nil_of_le (by omega)]
    · exact added_eq_magnitude (by rw [if_pos (by omega)])

/-! ## Subtraction -/

lemma overflowingSub_spec {l r : ℕ} (hl : l < base) (hr : r ≤ base) :
    (overflowingSub l r).1 + r = l + base * (overflowingSub l r).2.toNat ∧
      (overflowingSub l r).1 < base := by
  unfold overflowingSub
  rw [base_eq] at *
  by_cases h : l < r
  · simp only [h, decide_true, Bool.toNat_true]
    omega
  · simp only [h, decide_false, Bool.toNat_false]
    omega

lemma subLimb_spec {l r borrow : ℕ} (hl : l < base) (hr : r < base) (hborrow : borrow ≤ 1) :
    (subLimb l r borrow).1 < base ∧ (subLimb l r borrow).2 ≤ 1 ∧
      (subLimb l r borrow).1 + r + borrow = l + base * (subLimb l r borrow).2 := by
  unfold subLimb overflowingSub
  rw [base_eq] at *
  by_cases hfirst : l < r
  · have hsecond : ¬(l + 18446744073709551616 - r) % 18446744073709551616 < borrow := by omega
    simp only [hfirst, hsecond, decide_true, decide_false, Bool.or_false, Bool.toNat_true]
    omega
  · by_cases hsecond : (l + 18446744073709551616 - r) % 18446744073709551616 < borrow
    · simp only [hfirst, hsecond, decide_true, decide_false, Bool.false_or, Bool.toNat_true]
      omega
    · simp only [hfirst, hsecond, decide_false, Bool.or_self, Bool.toNat_false]
      omega

lemma subShared_spec {left right : List ℕ} {borrow : ℕ} (hlen : right.length ≤ left.length)
    (hleft : Words left) (hright : Words right) (hborrow : borrow ≤ 1) :
    ∃ output last, subShared left right borrow = .ok (output, last) ∧ Words output ∧ last ≤ 1 ∧
      output.length = right.length ∧
      value base output + value base right + borrow
        = value base (left.take right.length) + base ^ right.length * last := by
  induction right generalizing left borrow with
  | nil => exact ⟨[], borrow, by cases left <;> rfl, by simp, hborrow, rfl, by simp⟩
  | cons r rs ih =>
    obtain _ | ⟨l, ls⟩ := left
    · simp at hlen
    · obtain ⟨hl, hls⟩ := digits_cons.mp hleft
      obtain ⟨hr, hrs⟩ := digits_cons.mp hright
      obtain ⟨hdiff, hone, hlimb⟩ := subLimb_spec hl hr hborrow
      obtain ⟨output, last, hrun, hwords, hlast, houtLen, hvalue⟩ :=
        ih (by simpa using hlen) hls hrs hone
      refine ⟨(subLimb l r borrow).1 :: output, last, ?_, ?_, hlast, by simp [houtLen], ?_⟩
      · simp only [subShared, hrun, ok_bind, pure_eq]
      · exact digits_cons.mpr ⟨hdiff, hwords⟩
      · simp only [value_cons, List.length_cons, List.take_succ_cons, pow_succ']
        linear_combination hlimb + base * hvalue

lemma subRemaining_spec {limbs : List ℕ} {borrow : ℕ} (hlimbs : Words limbs)
    (hborrow : borrow ≤ 1) :
    Words (subRemaining limbs borrow).1 ∧ (subRemaining limbs borrow).2 ≤ 1 ∧
      (subRemaining limbs borrow).1.length = limbs.length ∧
      value base (subRemaining limbs borrow).1 + borrow
        = value base limbs + base ^ limbs.length * (subRemaining limbs borrow).2 := by
  induction limbs generalizing borrow with
  | nil => simp [subRemaining, hborrow]
  | cons l ls ih =>
    obtain ⟨hl, hls⟩ := digits_cons.mp hlimbs
    obtain ⟨hlimb, hdiff⟩ := overflowingSub_spec hl (hborrow.trans one_lt_base.le)
    obtain ⟨hwords, hlast, hlen, hvalue⟩ := ih hls (Bool.toNat_le (overflowingSub l borrow).2)
    simp only [subRemaining, List.length_cons, value_cons, digits_cons]
    refine ⟨⟨hdiff, hwords⟩, hlast, by rw [hlen], ?_⟩
    rw [pow_succ']
    linear_combination hlimb + base * hvalue

/-- The loop that stops with the borrow leaves the same limbs as the one that runs on. -/
lemma subWhileBorrow_eq {limbs : List ℕ} (hlimbs : Words limbs) (borrow : ℕ) :
    subWhileBorrow limbs borrow = subRemaining limbs borrow := by
  induction limbs generalizing borrow with
  | nil => cases borrow <;> rfl
  | cons l ls ih =>
    obtain ⟨hl, hls⟩ := digits_cons.mp hlimbs
    cases borrow with
    | succ borrow => simp only [subWhileBorrow, subRemaining, ih hls]
    | zero =>
      have hzero : subRemaining ls 0 = (ls, 0) := by
        rw [← ih hls 0]
        cases ls <;> rfl
      have hsub : overflowingSub l 0 = (l, false) := by
        unfold overflowingSub
        simp [Nat.mod_eq_of_lt hl]
      simp [subWhileBorrow, subRemaining, hsub, hzero]

/-- The difference that the two loops of a subtraction make, and that nothing is borrowed. -/
lemma subtracted_eq_magnitude {m n : ℕ} (hle : n ≤ m) :
    ∃ low borrow, subShared (magnitude m) (magnitude n) 0 = .ok (low, borrow) ∧
      (subRemaining ((magnitude m).drop (magnitude n).length) borrow).2 = 0 ∧
      trimLeadingZeroLimbs
          (low ++ (subRemaining ((magnitude m).drop (magnitude n).length) borrow).1)
        = magnitude (m - n) := by
  have hlen : (magnitude n).length ≤ (magnitude m).length := Nat.le_length_digits_le base n m hle
  obtain ⟨low, borrow, hrun, hlow, hborrow, hlowLen, hlowValue⟩ :=
    subShared_spec hlen (words_magnitude m) (words_magnitude n) (Nat.zero_le 1)
  obtain ⟨hhigh, hlast, hhighLen, hhighValue⟩ :=
    subRemaining_spec ((words_magnitude m).drop (magnitude n).length) hborrow
  have hsplit := value_take_add_drop (b := base) (magnitude m) hlen
  rw [value_magnitude] at hsplit hlowValue
  have hvalue : value base
        (low ++ (subRemaining ((magnitude m).drop (magnitude n).length) borrow).1) + n
      = m + base ^ (magnitude m).length
        * (subRemaining ((magnitude m).drop (magnitude n).length) borrow).2 := by
    have hpow : base ^ (magnitude m).length = base ^ (magnitude n).length
        * base ^ ((magnitude m).drop (magnitude n).length).length := by
      rw [← pow_add, List.length_drop, Nat.add_sub_cancel' hlen]
    rw [value_append, hlowLen, hpow]
    linear_combination hlowValue + base ^ (magnitude n).length * hhighValue + hsplit.symm
  have hwords := digits_append.mpr ⟨hlow, hhigh⟩
  have hbound := Digits.value_lt one_lt_base hwords
  rw [List.length_append, hlowLen, hhighLen, List.length_drop, Nat.add_sub_cancel' hlen] at hbound
  have hzero : (subRemaining ((magnitude m).drop (magnitude n).length) borrow).2 = 0 := by
    by_contra hne
    have hone : (subRemaining ((magnitude m).drop (magnitude n).length) borrow).2 = 1 := by omega
    rw [hone, Nat.mul_one] at hvalue
    omega
  refine ⟨low, borrow, hrun, hzero, trim_eq_magnitude hwords ?_⟩
  rw [hzero, Nat.mul_zero, Nat.add_zero] at hvalue
  omega

lemma compare_ne_lt {m n : ℕ} (h : n ≤ m) : ¬compare m n = .lt := by
  rw [Nat.compare_eq_lt]
  omega

/-- `sub_abs_limbs_into` subtracts a magnitude from one that is not smaller. -/
lemma subAbsLimbsInto_magnitude {m n : ℕ} (hle : n ≤ m) (output : List ℕ) :
    subAbsLimbsInto (magnitude m) (magnitude n) output = .ok (magnitude (m - n)) := by
  obtain ⟨low, borrow, hrun, hzero, htrim⟩ := subtracted_eq_magnitude hle
  simp only [subAbsLimbsInto, cmpAbsLimbs_magnitude, hrun, ok_bind, hzero, htrim,
    Outcome.bailIf, if_neg (compare_ne_lt hle), ne_eq, not_true_eq_false, if_false, pure_eq]

lemma subAbsLimbs_magnitude {m n : ℕ} (hle : n ≤ m) :
    subAbsLimbs (magnitude m) (magnitude n) = .ok (magnitude (m - n)) :=
  subAbsLimbsInto_magnitude hle []

/-- `sub_abs_limbs_assign` subtracts a magnitude from one that is not smaller. -/
lemma subAbsLimbsAssign_magnitude {m n : ℕ} (hle : n ≤ m) :
    subAbsLimbsAssign (magnitude m) (magnitude n) = .ok (magnitude (m - n)) := by
  obtain ⟨low, borrow, hrun, hzero, htrim⟩ := subtracted_eq_magnitude hle
  simp only [subAbsLimbsAssign, cmpAbsLimbs_magnitude, hrun, ok_bind,
    subWhileBorrow_eq ((words_magnitude m).drop (magnitude n).length), hzero, htrim,
    Outcome.bailIf, if_neg (compare_ne_lt hle), ne_eq, not_true_eq_false, if_false, pure_eq]

end Vdf

end Iuna
