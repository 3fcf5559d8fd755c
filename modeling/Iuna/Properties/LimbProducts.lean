import Iuna.Properties.LimbSums

/-!
# Products of magnitudes are exact

The rows of the schoolbook product fit the output from the limb where they start, so that no
index and no `u128` sum runs over.
-/

namespace Iuna

namespace Vdf

open Positional

/-! ## Rows of a product -/

/-- A product of limbs and two limbs more is in range of `u128`. -/
lemma limb_mul_add_lt {l r o carry : ℕ} (hl : l < base) (hr : r < base) (ho : o < base)
    (hcarry : carry < base) : l * r + o + carry < base * base := by
  have hl' : l ≤ base - 1 := by omega
  have hr' : r ≤ base - 1 := by omega
  have hmul : l * r ≤ (base - 1) * (base - 1) := Nat.mul_le_mul hl' hr'
  rw [base_eq] at *
  omega

lemma div_base_lt {n : ℕ} (h : n < base * base) : n / base < base := Nat.div_lt_of_lt_mul h

lemma mod_add_base_mul_div (n : ℕ) : n % base + base * (n / base) = n := Nat.mod_add_div n base

/-- The carry loop ends inside the limbs when the sum fits them. -/
lemma carryUp_spec {limbs : List ℕ} {carry : ℕ} (hlimbs : Words limbs) (hcarry : carry < base)
    (hfits : value base limbs + carry < base ^ limbs.length) :
    ∃ output, carryUp limbs carry = .ok output ∧ Words output ∧
      output.length = limbs.length ∧ value base output = value base limbs + carry := by
  induction limbs generalizing carry with
  | nil =>
    obtain rfl : carry = 0 := by simpa using hfits
    exact ⟨[], rfl, by simp, rfl, by simp⟩
  | cons l ls ih =>
    cases carry with
    | zero => exact ⟨l :: ls, rfl, hlimbs, rfl, by simp⟩
    | succ carry =>
      obtain ⟨hl, hls⟩ := digits_cons.mp hlimbs
      have hsum : l + (carry + 1) < base * base := by
        rw [base_eq] at *
        omega
      have hrest : value base ls + (l + (carry + 1)) / base < base ^ ls.length := by
        simp only [value_cons, List.length_cons, pow_succ'] at hfits
        have hdiv : base * (value base ls + (l + (carry + 1)) / base)
            < base * base ^ ls.length := by
          have hmod := mod_add_base_mul_div (l + (carry + 1))
          rw [Nat.mul_add]
          omega
        exact Nat.lt_of_mul_lt_mul_left hdiv
      obtain ⟨output, hrun, hwords, hlen, hvalue⟩ := ih hls (div_base_lt hsum) hrest
      refine ⟨(l + (carry + 1)) % base :: output, ?_, ?_, by simp [hlen], ?_⟩
      · simp only [carryUp, wide_of_lt hsum, hrun, ok_bind, pure_eq]
      · exact digits_cons.mpr ⟨Nat.mod_lt _ base_pos, hwords⟩
      · rw [value_cons, value_cons, hvalue, Nat.mul_add]
        have hmod := mod_add_base_mul_div (l + (carry + 1))
        omega

/-- A row adds its product when the sum fits the limbs of the output from its start. -/
lemma mulRow_spec {leftLimb carry : ℕ} {inner output : List ℕ} (hleft : leftLimb < base)
    (hinner : Words inner) (houtput : Words output) (hcarry : carry < base)
    (hlen : inner.length ≤ output.length)
    (hfits : value base output + leftLimb * value base inner + carry < base ^ output.length) :
    ∃ row, mulRow leftLimb inner output carry = .ok row ∧ Words row ∧
      row.length = output.length ∧
      value base row = value base output + leftLimb * value base inner + carry := by
  induction inner generalizing output carry with
  | nil =>
    obtain ⟨row, hrun, hwords, hrowLen, hvalue⟩ :=
      carryUp_spec houtput hcarry (by simpa using hfits)
    exact ⟨row, by simpa [mulRow] using hrun, hwords, hrowLen, by simpa using hvalue⟩
  | cons r rs ih =>
    obtain _ | ⟨o, os⟩ := output
    · simp at hlen
    · obtain ⟨hr, hrs⟩ := digits_cons.mp hinner
      obtain ⟨ho, hos⟩ := digits_cons.mp houtput
      have hsum := limb_mul_add_lt hleft hr ho hcarry
      have hmod := mod_add_base_mul_div (leftLimb * r + o + carry)
      have hexpand : o + base * value base os + leftLimb * (r + base * value base rs) + carry
          = (leftLimb * r + o + carry) % base + base * (value base os
            + leftLimb * value base rs + (leftLimb * r + o + carry) / base) := by
        linear_combination -- both sides count the low limb once
          hmod.symm
      have hrest : value base os + leftLimb * value base rs
          + (leftLimb * r + o + carry) / base < base ^ os.length := by
        simp only [value_cons, List.length_cons, pow_succ'] at hfits
        rw [hexpand] at hfits
        exact Nat.lt_of_mul_lt_mul_left (lt_of_le_of_lt (Nat.le_add_left _ _) hfits)
      obtain ⟨row, hrun, hwords, hrowLen, hvalue⟩ :=
        ih hrs hos (div_base_lt hsum) (by simpa using hlen) hrest
      refine ⟨(leftLimb * r + o + carry) % base :: row, ?_, ?_, by simp [hrowLen], ?_⟩
      · simp only [mulRow, wide_of_lt hsum, hrun, ok_bind, pure_eq]
      · exact digits_cons.mpr ⟨Nat.mod_lt _ base_pos, hwords⟩
      · rw [value_cons, value_cons, value_cons, hvalue, hexpand]

/-- The rows of a product: what is in the output from a row's start is below the inner operand's
power of the base, before and after the row's lowest limb is left behind. -/
lemma mulLoop_spec {inner outer output : List ℕ} (hinner : Words inner) (houter : Words outer)
    (houtput : Words output) (hlen : output.length = outer.length + inner.length)
    (hfits : value base output < base ^ inner.length) :
    ∃ product, mulLoop inner outer output = .ok product ∧ Words product ∧
      value base product = value base output + value base outer * value base inner := by
  induction outer generalizing output with
  | nil => exact ⟨output, rfl, houtput, by simp⟩
  | cons l ls ih =>
    obtain ⟨hl, hls⟩ := digits_cons.mp houter
    have hI := Digits.value_lt one_lt_base hinner
    have hrowFits : value base output + l * value base inner + 0 < base ^ (inner.length + 1) := by
      have hmul : l * value base inner ≤ (base - 1) * base ^ inner.length :=
        Nat.mul_le_mul (by omega) hI.le
      have hpow : base * base ^ inner.length
          = (base - 1) * base ^ inner.length + base ^ inner.length := by
        rw [← Nat.succ_mul, Nat.succ_eq_add_one, Nat.sub_add_cancel one_lt_base.le]
      rw [pow_succ', hpow]
      omega
    have hgrow : base ^ (inner.length + 1) ≤ base ^ output.length :=
      Nat.pow_le_pow_right base_pos (by rw [hlen, List.length_cons]; omega)
    obtain ⟨row, hrun, hwords, hrowLen, hvalue⟩ := mulRow_spec hl hinner houtput base_pos
      (by rw [hlen]; omega) (lt_of_lt_of_le hrowFits hgrow)
    obtain _ | ⟨x, xs⟩ := row
    · simp only [List.length_nil, hlen, List.length_cons] at hrowLen
      omega
    · obtain ⟨hx, hxs⟩ := digits_cons.mp hwords
      rw [value_cons] at hvalue
      have hnext : value base xs < base ^ inner.length := by
        have hle : base * value base xs < base * base ^ inner.length := by
          rw [← pow_succ']
          omega
        exact Nat.lt_of_mul_lt_mul_left hle
      obtain ⟨product, hloop, hproduct, hresult⟩ := ih hls hxs (by
        simp only [List.length_cons, hlen] at hrowLen
        omega) hnext
      refine ⟨x :: product, ?_, digits_cons.mpr ⟨hx, hproduct⟩, ?_⟩
      · simp only [mulLoop, hrun, ok_bind, hloop, pure_eq]
      · rw [value_cons, value_cons, hresult]
        linear_combination hvalue

/-- `mul_abs_limbs_into` multiplies. -/
lemma mulAbsLimbsInto_magnitude (m n : ℕ) (output : List ℕ) :
    mulAbsLimbsInto (magnitude m) (magnitude n) output = .ok (magnitude (m * n)) := by
  unfold mulAbsLimbsInto
  by_cases hzero : magnitude m = [] ∨ magnitude n = []
  · rw [if_pos hzero]
    obtain hm | hn := hzero
    · rw [magnitude_eq_nil] at hm
      simp [hm, pure_eq]
    · rw [magnitude_eq_nil] at hn
      simp [hn, pure_eq]
  · rw [if_neg hzero]
    have hproduct : ∀ p q : ℕ, ∃ product,
        mulLoop (magnitude q) (magnitude p)
            (List.replicate ((magnitude p).length + (magnitude q).length) 0) = .ok product ∧
          trimLeadingZeroLimbs product = magnitude (p * q) := by
      intro p q
      obtain ⟨product, hrun, hwords, hvalue⟩ := mulLoop_spec (words_magnitude q)
        (words_magnitude p)
        (Digits.replicate_zero base_pos ((magnitude p).length + (magnitude q).length)) (by simp)
        (by simpa using Nat.pow_pos base_pos)
      refine ⟨product, hrun, trim_eq_magnitude hwords ?_⟩
      rw [hvalue, value_magnitude, value_magnitude, value_replicate_zero, Nat.zero_add]
    by_cases hle : (magnitude m).length ≤ (magnitude n).length
    · obtain ⟨product, hrun, htrim⟩ := hproduct m n
      simp only [if_pos hle, hrun, ok_bind, htrim, pure_eq]
    · obtain ⟨product, hrun, htrim⟩ := hproduct n m
      simp only [if_neg hle, hrun, ok_bind, htrim, pure_eq, Nat.mul_comm]

lemma mulAbsLimbs_magnitude (m n : ℕ) :
    mulAbsLimbs (magnitude m) (magnitude n) = .ok (magnitude (m * n)) :=
  mulAbsLimbsInto_magnitude m n []

lemma squareAbsLimbs_magnitude (n : ℕ) :
    squareAbsLimbs (magnitude n) = .ok (magnitude (n * n)) :=
  mulAbsLimbs_magnitude n n

/-! ## Products with one limb -/

lemma mulOneLoop_spec {scalar carry : ℕ} {limbs : List ℕ} (hscalar : scalar < base)
    (hlimbs : Words limbs) (hcarry : carry < base) :
    ∃ output last, mulOneLoop scalar limbs carry = .ok (output, last) ∧ Words output ∧
      last < base ∧ output.length = limbs.length ∧
      value base output + base ^ limbs.length * last = value base limbs * scalar + carry := by
  induction limbs generalizing carry with
  | nil => exact ⟨[], carry, rfl, by simp, hcarry, rfl, by simp⟩
  | cons l ls ih =>
    obtain ⟨hl, hls⟩ := digits_cons.mp hlimbs
    have hsum : l * scalar + carry < base * base := by
      have hlt := limb_mul_add_lt hl hscalar base_pos hcarry
      rwa [Nat.add_zero] at hlt
    obtain ⟨output, last, hrun, hwords, hlast, hlen, hvalue⟩ := ih hls (div_base_lt hsum)
    refine ⟨(l * scalar + carry) % base :: output, last, ?_, ?_, hlast, by simp [hlen], ?_⟩
    · simp only [mulOneLoop, wide_of_lt hsum, hrun, ok_bind, pure_eq]
    · exact digits_cons.mpr ⟨Nat.mod_lt _ base_pos, hwords⟩
    · rw [value_cons, value_cons, List.length_cons, pow_succ']
      linear_combination mod_add_base_mul_div (l * scalar + carry) + base * hvalue

/-- `mul_abs_one_limb_into` multiplies by a limb. -/
lemma mulAbsOneLimbInto_magnitude (n : ℕ) {scalar : ℕ} (hscalar : scalar < base)
    (output : List ℕ) :
    mulAbsOneLimbInto (magnitude n) scalar output = .ok (magnitude (n * scalar)) := by
  unfold mulAbsOneLimbInto
  by_cases hzero : magnitude n = [] ∨ scalar = 0
  · rw [if_pos hzero]
    obtain hn | rfl := hzero
    · rw [magnitude_eq_nil] at hn
      simp [hn, pure_eq]
    · simp [pure_eq]
  · rw [if_neg hzero]
    by_cases hone : scalar = 1
    · rw [if_pos hone, hone, Nat.mul_one, pure_eq]
    · rw [if_neg hone]
      obtain ⟨hn, hs⟩ := not_or.mp hzero
      rw [magnitude_eq_nil] at hn
      obtain ⟨limbs, last, hrun, hwords, hlast, hlen, hvalue⟩ :=
        mulOneLoop_spec hscalar (words_magnitude n) base_pos
      rw [value_magnitude, Nat.add_zero] at hvalue
      simp only [hrun, ok_bind, pure_eq, Nat.mod_eq_of_lt hlast]
      congr 1
      apply append_carry_eq_magnitude hwords hlast (by rw [hlen]; exact hvalue)
      intro hcarry
      rw [hcarry, Nat.mul_zero, Nat.add_zero] at hvalue
      refine getLast_ne_zero_of_le hwords (fun _ => ?_)
      rw [hlen, hvalue]
      exact (pow_length_magnitude_le hn).trans (Nat.le_mul_of_pos_right n (Nat.pos_of_ne_zero hs))

/-! ## Products with a word of 128 bits -/

lemma ensureLen_spec {output : List ℕ} (houtput : Words output) (len : ℕ) :
    Words (ensureLen output len) ∧ value base (ensureLen output len) = value base output ∧
      (ensureLen output len).length = max output.length len := by
  unfold ensureLen
  refine ⟨digits_append.mpr ⟨houtput, Digits.replicate_zero base_pos _⟩, by simp, ?_⟩
  rw [List.length_append, List.length_replicate]
  omega

lemma carryGrowing_spec {limbs : List ℕ} {carry : ℕ} (hlimbs : Words limbs)
    (hcarry : carry < base) :
    Words (carryGrowing limbs carry) ∧
      value base (carryGrowing limbs carry) = value base limbs + carry := by
  induction limbs generalizing carry with
  | nil =>
    cases carry with
    | zero => simp [carryGrowing]
    | succ carry => simp [carryGrowing, overflowingAdd, Nat.mod_eq_of_lt hcarry, hcarry]
  | cons l ls ih =>
    cases carry with
    | zero => simpa [carryGrowing] using hlimbs
    | succ carry =>
      obtain ⟨hl, hls⟩ := digits_cons.mp hlimbs
      obtain ⟨hsum, hlimb⟩ := overflowingAdd_spec hl hcarry
      obtain ⟨hwords, hvalue⟩ := ih hls
        (lt_of_le_of_lt (Bool.toNat_le (overflowingAdd l (carry + 1)).2) one_lt_base)
      refine ⟨digits_cons.mpr ⟨hsum, hwords⟩, ?_⟩
      rw [carryGrowing, value_cons, value_cons, hvalue]
      linear_combination hlimb

/-- `add_u128_at` adds a word of 128 bits at a limb. -/
lemma addU128At_spec (index : ℕ) {output : List ℕ} {n : ℕ} (houtput : Words output)
    (hn : n < base * base) :
    ∃ sum, addU128At output index n = .ok sum ∧ Words sum ∧
      value base sum = value base output + base ^ index * n := by
  obtain ⟨hwords, hvalue, hlen⟩ := ensureLen_spec houtput (index + 2)
  have hindex : index ≤ (ensureLen output (index + 2)).length := by omega
  have hsplit := value_take_add_drop (b := base) (ensureLen output (index + 2)) hindex
  have htake : ((ensureLen output (index + 2)).take index).length = index := by
    rw [List.length_take]
    omega
  have hdrop : ((ensureLen output (index + 2)).drop index).length ≥ 2 := by
    rw [List.length_drop]
    omega
  have hdigits := hwords.drop index
  have hrun : ∀ window, (ensureLen output (index + 2)).drop index = window →
      ∃ sum, addU128At output index n = .ok sum ∧ Words sum ∧
        value base sum = value base output + base ^ index * n := by
    rintro (_ | ⟨first, _ | ⟨second, rest⟩⟩) hwindow
    · simp [hwindow] at hdrop
    · simp [hwindow] at hdrop
    · rw [hwindow] at hdigits hsplit
      obtain ⟨hfirst, hsecond, hrest⟩ : first < base ∧ second < base ∧ Words rest := by
        simpa using hdigits
      have hhighBound : n / base < base := div_base_lt hn
      obtain ⟨hlow, hlowSum⟩ := overflowingAdd_spec hfirst (Nat.mod_lt n base_pos)
      obtain ⟨hhigh, hhighSum⟩ := overflowingAdd_spec hsecond hhighBound
      obtain ⟨htop, htopSum⟩ := overflowingAdd_spec hhigh
        (lt_of_le_of_lt (Bool.toNat_le (overflowingAdd first (n % base)).2) one_lt_base)
      obtain ⟨hcarry, hcarryValue⟩ := carryGrowing_spec hrest
        (show (overflowingAdd second (n / base)).2.toNat + (overflowingAdd
            (overflowingAdd second (n / base)).1 (overflowingAdd first (n % base)).2.toNat).2.toNat
          < base by
          have hone := Bool.toNat_le (overflowingAdd second (n / base)).2
          have htwo := Bool.toNat_le (overflowingAdd (overflowingAdd second (n / base)).1
            (overflowingAdd first (n % base)).2.toNat).2
          have hbase : 2 < base := by decide
          omega)
      refine ⟨_, by simp only [addU128At, hwindow, Nat.mod_eq_of_lt hhighBound, pure_eq]; rfl,
        ?_, ?_⟩
      · exact digits_append.mpr ⟨hwords.take index,
          digits_cons.mpr ⟨hlow, digits_cons.mpr ⟨htop, hcarry⟩⟩⟩
      · rw [value_append, htake, value_cons, value_cons, hcarryValue, ← hvalue, hsplit, value_cons,
          value_cons]
        linear_combination base ^ index * (hlowSum + base * htopSum + base * hhighSum
          + mod_add_base_mul_div n)
  exact hrun _ rfl

lemma addProducts_spec (index : ℕ) {scalar : ℕ} {limbs output : List ℕ} (hscalar : scalar < base)
    (hlimbs : Words limbs) (houtput : Words output) :
    ∃ sum, addProducts scalar limbs index output = .ok sum ∧ Words sum ∧
      value base sum = value base output + base ^ index * (value base limbs * scalar) := by
  induction limbs generalizing index output with
  | nil => exact ⟨output, rfl, houtput, by simp⟩
  | cons l ls ih =>
    obtain ⟨hl, hls⟩ := digits_cons.mp hlimbs
    have hproduct : l * scalar < base * base := Nat.mul_lt_mul'' hl hscalar
    obtain ⟨first, hrun, hfirst, hvalue⟩ := addU128At_spec index houtput hproduct
    obtain ⟨sum, hloop, hsum, hresult⟩ := ih (index + 1) hls hfirst
    refine ⟨sum, by simp only [addProducts, hrun, ok_bind, hloop], hsum, ?_⟩
    rw [hresult, hvalue, value_cons, pow_succ]
    ring

/-- `mul_abs_small_into` multiplies by a word of 128 bits. -/
lemma mulAbsSmallInto_magnitude (n : ℕ) {scalar : ℕ} (hscalar : scalar < base * base)
    (output : List ℕ) :
    mulAbsSmallInto (magnitude n) scalar output = .ok (magnitude (n * scalar)) := by
  unfold mulAbsSmallInto
  by_cases hzero : magnitude n = [] ∨ scalar = 0
  · rw [if_pos hzero]
    obtain hn | rfl := hzero
    · rw [magnitude_eq_nil] at hn
      simp [hn, pure_eq]
    · simp [pure_eq]
  · rw [if_neg hzero]
    by_cases hone : scalar = 1
    · rw [if_pos hone, hone, Nat.mul_one, pure_eq]
    · have hhigh : scalar / base % base = scalar / base := Nat.mod_eq_of_lt (div_base_lt hscalar)
      have hsplit := mod_add_base_mul_div scalar
      rw [if_neg hone]
      simp only [hhigh]
      by_cases hsmall : scalar / base = 0
      · rw [if_pos hsmall]
        rw [hsmall, Nat.mul_zero, Nat.add_zero] at hsplit
        rw [mulAbsOneLimbInto_magnitude n (Nat.mod_lt scalar base_pos), hsplit]
      · have hzeros := Digits.replicate_zero base_pos ((magnitude n).length + 2)
        -- the products with the high half end the sum, whatever the low half made
        have hfinish : ∀ low, Words low → value base low = n * (scalar % base) →
            ∃ sum, addProducts (scalar / base) (magnitude n) 1 low = .ok sum ∧
              trimLeadingZeroLimbs sum = magnitude (n * scalar) := by
          intro low hlow hlowValue
          obtain ⟨sum, hrun, hsum, hvalue⟩ := addProducts_spec 1
            (div_base_lt hscalar) (words_magnitude n) hlow
          refine ⟨sum, hrun, trim_eq_magnitude hsum ?_⟩
          rw [hvalue, hlowValue, value_magnitude, pow_one]
          linear_combination n * hsplit
        rw [if_neg hsmall]
        by_cases hlow : scalar % base = 0
        · obtain ⟨sum, hrun, htrim⟩ := hfinish _ hzeros (by simp [hlow])
          simp only [hlow, hsmall, ne_eq, not_true_eq_false, not_false_eq_true, if_false, if_true,
            pure_eq, ok_bind, hrun, htrim]
        · obtain ⟨low, hlowRun, hlowWords, hlowValue⟩ := addProducts_spec 0
            (Nat.mod_lt scalar base_pos) (words_magnitude n) hzeros
          obtain ⟨sum, hrun, htrim⟩ := hfinish low hlowWords
            (by simpa [value_magnitude] using hlowValue)
          simp only [hlow, hsmall, ne_eq, not_false_eq_true, if_true, hlowRun, pure_eq, ok_bind,
            hrun, htrim]

lemma mulAbsSmall_magnitude (n : ℕ) {scalar : ℕ} (hscalar : scalar < base * base) :
    mulAbsSmall (magnitude n) scalar = .ok (magnitude (n * scalar)) :=
  mulAbsSmallInto_magnitude n hscalar []

end Vdf

end Iuna
