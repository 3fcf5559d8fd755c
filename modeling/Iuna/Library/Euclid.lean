import Mathlib

/-!
# Euclid's algorithm on leading parts

Two remainders `m` and `n` of a Euclidean sequence on `u` and `v` are followed on the leading
parts `u / K` and `v / K`.  The cofactors alternate in sign, so that naturals and an exchange of
the roles of `u` and `v` at each step carry them.
-/

namespace Iuna

namespace Euclid

/-- One Euclidean step. -/
def step (pair : ℕ × ℕ) : ℕ × ℕ := (pair.2, pair.1 % pair.2)

/-- The remainders `m`, `n` of `u`, `v` and the remainders `h`, `l` of their leading parts have the
cofactors `x₂`, `x₁`, `y₂`, `y₁` in common. -/
structure Follows (u v K h l x₂ x₁ y₂ y₁ m n : ℕ) : Prop where
  highWord : y₂ * (u / K) = x₂ * (v / K) + h
  lowWord : x₁ * (v / K) = y₁ * (u / K) + l
  high : y₂ * u = x₂ * v + m
  low : x₁ * v = y₁ * u + n
  det : y₂ * x₁ = x₂ * y₁ + 1

variable {u v K h l x₂ x₁ y₂ y₁ m n : ℕ}

lemma Follows.refl (u v K : ℕ) : Follows u v K (u / K) (v / K) 0 1 1 0 u v where
  highWord := by omega
  lowWord := by omega
  high := by omega
  low := by omega
  det := by omega

lemma Follows.x₁_pos (f : Follows u v K h l x₂ x₁ y₂ y₁ m n) : 0 < x₁ :=
  Nat.pos_of_ne_zero fun hzero => by simpa [hzero] using f.det

lemma Follows.y₂_pos (f : Follows u v K h l x₂ x₁ y₂ y₁ m n) : 0 < y₂ :=
  Nat.pos_of_ne_zero fun hzero => by simpa [hzero] using f.det

/-- The leading parts in terms of their remainders: the cofactors of the other one are bounded
by them. -/
lemma Follows.high_sum (f : Follows u v K h l x₂ x₁ y₂ y₁ m n) : x₁ * h + x₂ * l = u / K := by
  have hdet := f.det
  have hh := f.highWord
  have hl := f.lowWord
  generalize u / K = U at hh hl ⊢
  generalize v / K = V at hh hl
  zify at *
  linear_combination (-(x₁ : ℤ)) * hh - (x₂ : ℤ) * hl + (U : ℤ) * hdet

lemma Follows.low_sum (f : Follows u v K h l x₂ x₁ y₂ y₁ m n) : y₁ * h + y₂ * l = v / K := by
  have hdet := f.det
  have hh := f.highWord
  have hl := f.lowWord
  generalize v / K = V at hh hl ⊢
  generalize u / K = U at hh hl
  zify at *
  linear_combination (-(y₁ : ℤ)) * hh - (y₂ : ℤ) * hl + (V : ℤ) * hdet

lemma Follows.high_le (f : Follows u v K h l x₂ x₁ y₂ y₁ m n) : h ≤ u / K := by
  have hsum := f.high_sum
  have hmul := Nat.le_mul_of_pos_left h f.x₁_pos
  omega

/-- The cofactors of the next step are bounded by the leading parts. -/
lemma Follows.next_le (f : Follows u v K h l x₂ x₁ y₂ y₁ m n) {q : ℕ} (hl : 0 < l)
    (hqh : q * l ≤ h) : x₂ + q * x₁ ≤ u / K ∧ y₂ + q * y₁ ≤ v / K := by
  have hx := f.high_sum
  have hy := f.low_sum
  have hxq := Nat.mul_le_mul_left x₁ hqh
  have hyq := Nat.mul_le_mul_left y₁ hqh
  have hxl := Nat.le_mul_of_pos_right (x₂ + q * x₁) hl
  have hyl := Nat.le_mul_of_pos_right (y₂ + q * y₁) hl
  have hxs : (x₂ + q * x₁) * l = x₁ * (q * l) + x₂ * l := by ring
  have hys : (y₂ + q * y₁) * l = y₁ * (q * l) + y₂ * l := by ring
  exact ⟨by omega, by omega⟩

/-- A remainder with enough room above its cofactor stays positive below the leading part. -/
lemma pos_of_room {r x y K a b : ℤ} (hx : x ≤ r) (hr : 0 < r) (hb : 0 ≤ b) (hbK : b < K)
    (hy : 0 ≤ y * a) : 0 < r * K + y * a - x * b := by
  have hlow : 0 ≤ (r - x) * b := mul_nonneg (by omega) hb
  have htop : 0 < r * (K - b) := mul_pos hr (by omega)
  linarith

/-- The quotient of the leading parts is that of the remainders where the test of the next
remainder passes. -/
lemma Follows.exact (f : Follows u v K h l x₂ x₁ y₂ y₁ m n) (hK : 0 < K) {q : ℕ}
    (hq : 0 < q) (hqh : q * l ≤ h) (hlow : x₂ + q * x₁ ≤ h - q * l)
    (hhigh : y₂ + q * y₁ + y₁ + (h - q * l) ≤ l) :
    q = m / n ∧ 0 < m % n := by
  obtain ⟨r, rfl⟩ : ∃ r, h = r + q * l := ⟨h - q * l, by omega⟩
  have hx₁ := f.x₁_pos
  have hy₂ := f.y₂_pos
  have hxq : 0 < q * x₁ := Nat.mul_pos hq hx₁
  rw [Nat.add_sub_cancel] at hlow hhigh
  have hu := Nat.div_add_mod u K
  have hv := Nat.div_add_mod v K
  have hua := Nat.mod_lt u hK
  have hvb := Nat.mod_lt v hK
  have hh := f.highWord
  have hl := f.lowWord
  have hm := f.high
  have hn := f.low
  generalize u / K = U at *
  generalize v / K = V at *
  generalize u % K = a at *
  generalize v % K = b at *
  subst hu hv
  zify at *
  have hrest : (m : ℤ) - q * n = r * K + (y₂ + q * y₁) * a - (x₂ + q * x₁) * b := by
    linear_combination (K : ℤ) * (hh - q * hl) - hm + q * hn
  have hgap : (n : ℤ) - (m - q * n) = (l - r) * K + (x₁ + (x₂ + q * x₁)) * b
      - (y₁ + (y₂ + q * y₁)) * a := by
    linear_combination (-(K : ℤ)) * (hh - (q + 1) * hl) + hm - (q + 1) * hn
  have hr : (0 : ℤ) < r := by linarith [Int.natCast_nonneg x₂]
  have hgapPos : (0 : ℤ) < l - r := by linarith [mul_nonneg hq.le (Int.natCast_nonneg y₁)]
  have hpos : (0 : ℤ) < m - q * n := by
    rw [hrest]
    exact pos_of_room hlow hr (by positivity) hvb (by positivity)
  have hlt : (0 : ℤ) < n - (m - q * n) := by
    rw [hgap]
    exact pos_of_room (by linarith) hgapPos (by positivity) hua (by positivity)
  have hquot : m / n = q := by
    refine Nat.div_eq_of_lt_le ?_ ?_
    · zify; linarith
    · zify; linarith
  have hrem := Nat.div_add_mod m n
  rw [hquot] at hrem
  refine ⟨mod_cast hquot.symm, ?_⟩
  zify at hrem
  linarith

/-- The step of the leading parts is followed by the remainders. -/
lemma Follows.next (f : Follows u v K h l x₂ x₁ y₂ y₁ m n) {q : ℕ} (hqh : q * l ≤ h)
    (hq : q = m / n) :
    Follows v u K l (h - q * l) y₁ (y₂ + q * y₁) x₁ (x₂ + q * x₁) n (m % n) := by
  obtain ⟨r, rfl⟩ : ∃ r, h = r + q * l := ⟨h - q * l, by omega⟩
  rw [Nat.add_sub_cancel]
  have hrem := Nat.div_add_mod m n
  rw [← hq] at hrem
  have hh := f.highWord
  have hl := f.lowWord
  have hm := f.high
  have hn := f.low
  have hdet := f.det
  refine ⟨hl, ?_, hn, ?_, ?_⟩
  · zify at hh hl ⊢; linear_combination hh - (q : ℤ) * hl
  · zify at hm hn hrem ⊢; linear_combination hm - (q : ℤ) * hn - hrem
  · zify at hdet ⊢; linear_combination hdet

/-! ## Runs of steps -/

/-- So many Euclidean steps, none to a zero remainder and all of a quotient below `bound`. -/
inductive Descends (bound : ℕ) (start : ℕ × ℕ) : ℕ → ℕ × ℕ → Prop
  | refl : Descends bound start 0 start
  | snoc {count m n : ℕ} (h : Descends bound start count (m, n)) (hrest : 0 < m % n)
      (hpos : 0 < m / n) (hquot : m / n < bound) : Descends bound start (count + 1) (n, m % n)

namespace Descends

variable {bound count : ℕ} {start pair : ℕ × ℕ}

/-- The last remainders are those of Euclid's algorithm. -/
lemma iterate (h : Descends bound start count pair) : step^[count] start = pair := by
  induction h with
  | refl => rfl
  | snoc h hrest hpos hquot ih => rw [Function.iterate_succ_apply', ih]; rfl

lemma le (h : Descends bound start count pair) (hpos : 0 < start.2) (hle : start.2 ≤ start.1) :
    0 < pair.2 ∧ pair.2 ≤ pair.1 := by
  induction h with
  | refl => exact ⟨hpos, hle⟩
  | snoc h hrest hquot hlt ih => exact ⟨hrest, (Nat.mod_lt _ ih.1).le⟩

lemma lt (h : Descends bound start count pair) (hpos : 0 < start.2) (hcount : count ≠ 0) :
    pair.2 < start.2 := by
  have key : 0 < pair.2 ∧ pair.2 ≤ start.2 ∧ (count ≠ 0 → pair.2 < start.2) := by
    clear hcount
    induction h with
    | refl => exact ⟨hpos, le_rfl, fun h => absurd rfl h⟩
    | @snoc count m n h hrest hquot hlt ih =>
      obtain ⟨hn, hle, -⟩ := ih
      have hmod : m % n < n := Nat.mod_lt m hn
      exact ⟨hrest, (hmod.trans_le hle).le, fun _ => hmod.trans_le hle⟩
  exact key.2.2 hcount

end Descends

/-! ## Fair sequences -/

/-- No division of the Euclidean sequence is `bad`, as far as its divisors are above `limit`. -/
inductive Fair (bad : ℕ → ℕ → Prop) (limit : ℕ) : ℕ → ℕ → Prop
  | done {m n : ℕ} (h : n ≤ limit) : Fair bad limit m n
  | step {m n : ℕ} (h : ¬bad m n) (rest : Fair bad limit n (m % n)) : Fair bad limit m n

namespace Fair

variable {bad : ℕ → ℕ → Prop} {limit : ℕ}

lemma not_bad (h : Fair bad limit m n) (hn : limit < n) : ¬bad m n := by
  cases h with
  | done h => omega
  | step h _ => exact h

/-- A sequence is fair from the next division on. -/
lemma step_iff (hn : 0 < n) (h : ¬bad m n) : Fair bad limit m n ↔ Fair bad limit n (m % n) := by
  constructor
  · rintro (hle | ⟨-, rest⟩)
    · exact .done ((Nat.mod_lt m hn).le.trans hle)
    · exact rest
  · exact .step h

/-- Steps that are not bad keep a sequence fair or unfair. -/
lemma descends_iff {bound count : ℕ} {start pair : ℕ × ℕ} (h : Descends bound start count pair)
    (hbad : ∀ m n, 0 < n → m / n < bound → ¬bad m n) :
    Fair bad limit start.1 start.2 ↔ Fair bad limit pair.1 pair.2 := by
  induction h with
  | refl => exact Iff.rfl
  | @snoc count m n h hrest hpos hquot ih =>
    have hn : 0 < n := by
      by_contra hzero
      rw [Nat.eq_zero_of_not_pos hzero, Nat.div_zero] at hpos
      exact lt_irrefl 0 hpos
    exact ih.trans (step_iff hn (hbad m n hn hquot))

end Fair

end Euclid

end Iuna
