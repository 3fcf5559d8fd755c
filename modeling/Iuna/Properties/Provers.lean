import Iuna.Domain.Prover
import Iuna.Library.Windows
import Mathlib.Algebra.BigOperators.Group.List.Basic
import Mathlib.Algebra.BigOperators.Ring.Finset
import Mathlib.Tactic.Ring

/-!
# The VDF provers agree

Both provers return the power of the generator whose exponent is the quotient of `2 ^ T` by the
challenge.  For the constant-memory prover the quotient and the remainder of the powers of two are
the invariant of its loop (`divide_rounds`).  For the checkpoint prover everything is a power of
the generator as well: a pass raises the proof by one window and adds the digits of its positions
(`checkpointPass_eq`), and over all passes the digits make up the long division
(`quotient_eq_digits`).
-/

namespace Iuna

namespace Vdf

open Finset

/-! ## Digits of the quotient -/

/-- The digit of the quotient at a position, zero where the block does not end within the rounds. -/
def digit (k challenge rounds position : ℕ) : ℕ :=
  if k * (position + 1) ≤ rounds then
    2 ^ k * (2 ^ (rounds - k * (position + 1)) % challenge) / challenge
  else 0

/-- The quotient is made of the digits of any number of positions that covers the rounds. -/
lemma quotient_eq_digits {k challenge rounds count : ℕ} (window : 0 < k)
    (large : 2 ^ k < challenge) (covers : rounds ≤ k * count) :
    2 ^ rounds / challenge
      = ∑ p ∈ range count, 2 ^ (k * p) * digit k challenge rounds p := by
  have hpositive : 0 < challenge := (Nat.zero_le _).trans_lt large
  have hblocks : rounds / k ≤ count := by
    have := Nat.div_le_div_right (c := k) covers
    rwa [Nat.mul_div_cancel_left _ window] at this
  have hends (p : ℕ) : k * (p + 1) ≤ rounds ↔ p < rounds / k := by
    rw [Nat.mul_comm, ← Nat.le_div_iff_mul_le window]
    exact Nat.succ_le_iff
  have hdivision := @Windows.div_eq_sum_digits (2 ^ k) challenge
    (fun p => 2 ^ (rounds - k * p)) hpositive (rounds / k) (by
      intro p hp
      have hle := (hends p).mpr hp
      rw [← Nat.pow_add]
      congr 1
      rw [Nat.mul_succ] at hle ⊢
      omega)
  -- what is left above the last whole window is smaller than the challenge
  have hrest : 2 ^ (rounds - k * (rounds / k)) / challenge = 0 := by
    refine Nat.div_eq_of_lt (lt_of_le_of_lt (Nat.pow_le_pow_right (by decide) ?_) large)
    have := Nat.div_add_mod rounds k
    have := Nat.mod_lt rounds window
    omega
  simp only [Nat.mul_zero, Nat.sub_zero] at hdivision
  rw [hrest, Nat.mul_zero, Nat.add_zero] at hdivision
  rw [hdivision, ← sum_subset (range_subset_range.mpr hblocks)]
  · refine sum_congr rfl fun p hp => ?_
    rw [digit, if_pos ((hends p).mpr (mem_range.mp hp)), Nat.pow_mul]
  · intro p _ hp
    rw [digit, if_neg (fun hle => hp (mem_range.mpr ((hends p).mp hle))), Nat.mul_zero]

/-- A digit fits its window. -/
lemma digit_lt {k challenge rounds position : ℕ} (positive : 0 < challenge) :
    digit k challenge rounds position < 2 ^ k := by
  unfold digit
  split
  · refine Nat.div_lt_of_lt_mul ?_
    rw [Nat.mul_comm]
    exact Nat.mul_lt_mul_of_pos_right (Nat.mod_lt _ positive) (Nat.two_pow_pos k)
  · exact Nat.two_pow_pos k

/-! ## The blocks of a pass -/

/-- Parameters for a number of rounds: the checkpoints cover the rounds and the buckets the
digits. -/
structure ProofParameters.For (parameters : ProofParameters) (rounds : ℕ) : Prop where
  window : 0 < parameters.k
  stride : 0 < parameters.l
  checkpoints : parameters.checkpointCount = divCeil rounds (parameters.k * parameters.l)
  buckets : parameters.bucketCount = 2 ^ parameters.k

/-- The integers of the checkpoint prover fit: the window a shift, the ends of the blocks and the
amount of work a `u64`. -/
structure ProofParameters.Fits (parameters : ProofParameters) (rounds : ℕ) : Prop where
  shift : parameters.k < 64
  ends : parameters.k * (parameters.checkpointCount * parameters.l) ≤ u64Max
  work : parameters.l * (parameters.checkpointCount + 2 ^ (parameters.k / 2)
    + 2 ^ (parameters.k - parameters.k / 2)) ≤ u64Max

variable {parameters : ProofParameters} {rounds challenge : ℕ}

lemma shiftOne_eq {k : ℕ} (h : k < 64) : shiftOne k = .ok (2 ^ k) := if_pos h

lemma le_divCeil_mul {n divisor : ℕ} (positive : 0 < divisor) :
    n ≤ divisor * divCeil n divisor := by
  have := Nat.lt_mul_div_succ (n + divisor - 1) positive
  unfold divCeil
  rw [Nat.mul_add, Nat.mul_one] at this
  omega

/-- The end of a block of a checkpoint, where it fits. -/
lemma blockEnd_eq (fits : parameters.Fits rounds) (consistent : parameters.For rounds)
    {index j : ℕ} (hindex : index < parameters.checkpointCount) (hj : j < parameters.l) :
    checkpointPosition index j parameters.l = .ok (index * parameters.l + j) ∧
      blockEnd (index * parameters.l + j) parameters.k
        = .ok (parameters.k * (index * parameters.l + j + 1)) := by
  have hposition : index * parameters.l + j + 1 ≤ parameters.checkpointCount * parameters.l := by
    have := Nat.mul_le_mul_right parameters.l (Nat.succ_le_iff.mpr hindex)
    rw [Nat.succ_mul] at this
    omega
  have hend : parameters.k * (index * parameters.l + j + 1) ≤ u64Max := by
    exact (Nat.mul_le_mul_left parameters.k hposition).trans fits.ends
  have hle : index * parameters.l + j + 1 ≤ u64Max :=
    (Nat.le_mul_of_pos_left _ consistent.window).trans hend
  constructor
  · unfold checkpointPosition
    rw [checkedMul, if_pos (by omega), Option.bind_some, checkedAdd, if_pos (by omega)]
    rfl
  · unfold blockEnd
    exact Outcome.bind_eq_ok.mpr ⟨_, Outcome.ofOption_eq_ok.mpr (if_pos hle),
      Outcome.ofOption_eq_ok.mpr (if_pos hend)⟩

/-- The search finds the last checkpoint whose block ends within the rounds. -/
lemma lastBlockIndex_eq (fits : parameters.Fits rounds) (consistent : parameters.For rounds)
    {j : ℕ} (hj : j < parameters.l) {index : ℕ} (hindex : index < parameters.checkpointCount) :
    (lastBlockIndex j parameters rounds index = .ok none ∧ ∀ i ≤ index,
        ¬ parameters.k * (i * parameters.l + j + 1) ≤ rounds) ∨
      ∃ last ≤ index, lastBlockIndex j parameters rounds index = .ok (some last) ∧
        ∀ i ≤ index, parameters.k * (i * parameters.l + j + 1) ≤ rounds ↔ i ≤ last := by
  have hmono {i i' : ℕ} (hle : i ≤ i') : parameters.k * (i * parameters.l + j + 1)
      ≤ parameters.k * (i' * parameters.l + j + 1) := by
    have := Nat.mul_le_mul_right parameters.l hle
    exact Nat.mul_le_mul_left _ (by omega)
  have hround {i : ℕ} (hi : i < parameters.checkpointCount) (rest : Result (Option ℕ)) :
      (do
        let position ← checkpointPosition i j parameters.l
        let finish ← blockEnd position parameters.k
        if finish ≤ rounds then pure (some i) else rest)
      = if parameters.k * (i * parameters.l + j + 1) ≤ rounds then .ok (some i) else rest := by
    obtain ⟨hposition, hend⟩ := blockEnd_eq fits consistent hi hj
    rw [hposition]
    change (blockEnd _ _ >>= _) = _
    rw [hend]
    rfl
  induction index with
  | zero =>
    rw [lastBlockIndex, hround hindex]
    by_cases hends : parameters.k * (0 * parameters.l + j + 1) ≤ rounds
    · rw [if_pos hends]
      refine .inr ⟨0, le_rfl, rfl, fun i hi => ?_⟩
      obtain rfl := Nat.le_zero.mp hi
      exact ⟨fun _ => le_rfl, fun _ => hends⟩
    · rw [if_neg hends]
      refine .inl ⟨rfl, fun i hi => ?_⟩
      obtain rfl := Nat.le_zero.mp hi
      exact hends
  | succ index ih =>
    rw [lastBlockIndex, hround hindex]
    by_cases hends : parameters.k * ((index + 1) * parameters.l + j + 1) ≤ rounds
    · rw [if_pos hends]
      exact .inr ⟨index + 1, le_rfl, rfl, fun i hi => ⟨fun _ => hi,
        fun _ => (hmono hi).trans hends⟩⟩
    · rw [if_neg hends]
      rcases ih (by omega) with ⟨hnone, hall⟩ | ⟨last, hlast, hsome, hall⟩
      · refine .inl ⟨hnone, fun i hi => ?_⟩
        rcases Nat.lt_or_ge index i with hnext | hprior
        · obtain rfl : i = index + 1 := by omega
          exact hends
        · exact hall i hprior
      · refine .inr ⟨last, by omega, hsome, fun i hi => ?_⟩
        rcases Nat.lt_or_ge index i with hnext | hprior
        · obtain rfl : i = index + 1 := by omega
          exact ⟨fun h => absurd h hends, fun h => absurd h (by omega)⟩
        · exact hall i hprior

/-- A block is read from its residue. -/
lemma blockFromResidue_eq {k residue : ℕ} (shift : k < 64) (hresidue : residue < challenge) :
    blockFromResidue residue k challenge = .ok (2 ^ k * residue / challenge) := by
  have hlt : residue * 2 ^ k / challenge < 2 ^ k :=
    Nat.div_lt_of_lt_mul (Nat.mul_lt_mul_of_pos_right hresidue (Nat.two_pow_pos k))
  unfold blockFromResidue
  rw [shiftOne_eq shift]
  refine Outcome.bind_eq_ok.mpr ⟨_, rfl, Outcome.bind_eq_ok.mpr ⟨(), ?_, ?_⟩⟩
  · exact Outcome.bailIf_eq_ok.mpr (not_le.mpr hlt)
  · rw [Nat.mul_comm]
    rfl

/-- The blocks up to an index are the digits of their positions, if the residue is that of the
position at the index. -/
lemma blocksUpTo_eq {k l j : ℕ} (shift : k < 64) (positive : 0 < challenge) {index : ℕ}
    (ends : k * (index * l + j + 1) ≤ rounds) :
    blocksUpTo k challenge (2 ^ (k * l) % challenge) index
        (2 ^ (rounds - k * (index * l + j + 1)) % challenge)
      = .ok ((List.range (index + 1)).map fun i => digit k challenge rounds (i * l + j)) := by
  have hread {i : ℕ} (hends : k * (i * l + j + 1) ≤ rounds) :
      blockFromResidue (2 ^ (rounds - k * (i * l + j + 1)) % challenge) k challenge
        = .ok (digit k challenge rounds (i * l + j)) := by
    rw [blockFromResidue_eq shift (Nat.mod_lt _ positive), digit, if_pos hends]
  induction index with
  | zero =>
    rw [blocksUpTo, hread ends]
    rfl
  | succ index ih =>
    have hstride : k * ((index + 1) * l + j + 1) = k * (index * l + j + 1) + k * l := by ring
    have hprior : k * (index * l + j + 1) ≤ rounds := by omega
    have hresidue : 2 ^ (rounds - k * ((index + 1) * l + j + 1)) % challenge
        * (2 ^ (k * l) % challenge) % challenge
        = 2 ^ (rounds - k * (index * l + j + 1)) % challenge := by
      rw [← Nat.mul_mod, ← Nat.pow_add]
      congr 2
      omega
    rw [blocksUpTo, hread ends, hresidue, ih hprior, List.range_succ (n := index + 1),
      List.map_append]
    rfl

/-- The block of a checkpoint in a pass, and none where it does not end within the rounds. -/
def blockOf (parameters : ProofParameters) (challenge rounds j i : ℕ) : Option ℕ :=
  if parameters.k * (i * parameters.l + j + 1) ≤ rounds then
    some (digit parameters.k challenge rounds (i * parameters.l + j))
  else none

lemma blockOf_getD (parameters : ProofParameters) (challenge rounds j i : ℕ) :
    (blockOf parameters challenge rounds j i).getD 0
      = digit parameters.k challenge rounds (i * parameters.l + j) := by
  unfold blockOf
  split
  · rfl
  · rename_i hends
    rw [digit, if_neg hends]
    rfl

/-- **The blocks of a pass** are the digits of the positions of the pass. -/
lemma getBlocksForPass_eq (fits : parameters.Fits rounds) (consistent : parameters.For rounds)
    (positive : 0 < challenge) {j : ℕ} (hj : j < parameters.l) :
    getBlocksForPass j parameters rounds challenge
        (2 ^ (parameters.k * parameters.l) % challenge)
      = .ok ((List.range parameters.checkpointCount).map
          (blockOf parameters challenge rounds j)) := by
  unfold getBlocksForPass
  cases hcount : parameters.checkpointCount with
  | zero => rfl
  | succ last =>
    have hlast : last < parameters.checkpointCount := by omega
    dsimp only
    rcases lastBlockIndex_eq fits consistent hj hlast with
      ⟨hnone, hall⟩ | ⟨found, hfound, hsome, hall⟩
    · rw [hnone]
      change Except.ok _ = _
      congr 1
      symm
      rw [List.eq_replicate_iff]
      refine ⟨by rw [List.length_map, List.length_range], ?_⟩
      intro block hblock
      obtain ⟨i, hi, rfl⟩ := List.mem_map.mp hblock
      exact if_neg (hall i (by have := List.mem_range.mp hi; omega))
    · have hends := (hall found hfound).mpr le_rfl
      obtain ⟨hposition, hend⟩ := blockEnd_eq fits consistent (hfound.trans_lt hlast) hj
      have hexponent : checkedSub rounds (parameters.k * (found * parameters.l + j + 1))
          = some (rounds - parameters.k * (found * parameters.l + j + 1)) := if_pos hends
      rw [hsome]
      change (checkpointPosition found j parameters.l >>= _) = _
      rw [hposition]
      change (blockEnd _ _ >>= _) = _
      rw [hend]
      change (orError _ (checkedSub _ _) >>= _) = _
      rw [hexponent]
      change (blocksUpTo _ _ _ _ _ >>= _) = _
      rw [blocksUpTo_eq fits.shift positive hends]
      change Except.ok _ = _
      congr 1
      have hsplit : List.range (last + 1) = List.range (found + 1)
          ++ (List.range (last - found)).map fun i => found + 1 + i := by
        rw [← List.range_add]
        congr 1
        omega
      rw [hsplit, List.map_append, List.map_map, List.map_map]
      congr 1
      · refine List.map_congr_left fun i hi => ?_
        have hi := List.mem_range.mp hi
        exact (if_pos ((hall i (by omega)).mpr (by omega))).symm
      · symm
        rw [List.eq_replicate_iff]
        refine ⟨by rw [List.length_map, List.length_range], ?_⟩
        intro block hblock
        obtain ⟨i, hi, rfl⟩ := List.mem_map.mp hblock
        have hi := List.mem_range.mp hi
        exact if_neg (fun h => absurd ((hall (found + 1 + i) (by omega)).mp h) (by omega))

/-! ## Buckets -/

variable {G : Type} [CommGroup G]

/-- The product at a place, one where there is none. -/
def valueAt (buckets : List (Option G)) (index : ℕ) : G := (buckets[index]?).join.getD 1

lemma accumulate_getD (place : Option G) (form : G) :
    (accumulate place form).getD 1 = place.getD 1 * form := by
  cases place with
  | none => exact (one_mul form).symm
  | some product => rfl

/-- What a checkpoint contributes to a bucket. -/
def contribution (entry : G × Option ℕ) (index : ℕ) : G :=
  if entry.2 = some index then entry.1 else 1

lemma fillBucket_length (buckets : List (Option G)) (entry : G × Option ℕ) :
    (fillBucket buckets entry).length = buckets.length := by
  unfold fillBucket
  cases entry.2 with
  | none => rfl
  | some bucket => exact List.length_set

/-- A checkpoint is multiplied to its bucket and to no other. -/
lemma valueAt_fillBucket {buckets : List (Option G)} {entry : G × Option ℕ}
    (room : ∀ bucket, entry.2 = some bucket → bucket < buckets.length) (index : ℕ) :
    valueAt (fillBucket buckets entry) index = valueAt buckets index * contribution entry index := by
  unfold fillBucket contribution
  cases hentry : entry.2 with
  | none => exact (mul_one _).symm
  | some bucket =>
    dsimp only
    unfold valueAt
    by_cases hindex : bucket = index
    · subst hindex
      rw [List.getElem?_set_self (room bucket hentry), Option.join_some, accumulate_getD,
        if_pos rfl]
    · rw [List.getElem?_set_ne hindex, if_neg (by simpa using hindex), mul_one]

/-- The buckets after all checkpoints. -/
lemma valueAt_foldl_fillBucket {entries : List (G × Option ℕ)} {buckets : List (Option G)}
    (room : ∀ entry ∈ entries, ∀ bucket, entry.2 = some bucket → bucket < buckets.length)
    (index : ℕ) :
    valueAt (entries.foldl fillBucket buckets) index
      = valueAt buckets index * (entries.map fun entry => contribution entry index).prod := by
  induction entries generalizing buckets with
  | nil => simp
  | cons entry entries ih =>
    rw [List.forall_mem_cons] at room
    rw [List.foldl_cons, ih (by rw [fillBucket_length]; exact room.2),
      valueAt_fillBucket room.1, List.map_cons, List.prod_cons, mul_assoc]

lemma valueAt_replicate (count index : ℕ) : valueAt (List.replicate count (none : Option G)) index
    = 1 := by
  unfold valueAt
  rw [List.getElem?_replicate]
  split <;> rfl

/-- The aggregate of some buckets is their product. -/
lemma aggregate_foldl (buckets : List (Option G)) (indices : List ℕ) (product : Option G) :
    (indices.foldl (fun product index =>
      match (buckets[index]?).join with
      | some bucket => accumulate product bucket
      | none => product) product).getD 1
      = product.getD 1 * (indices.map (valueAt buckets)).prod := by
  induction indices generalizing product with
  | nil => simp
  | cons index indices ih =>
    rw [List.foldl_cons, ih, List.map_cons, List.prod_cons, ← mul_assoc]
    congr 1
    unfold valueAt
    cases (buckets[index]?).join with
    | none => exact (mul_one _).symm
    | some bucket => exact accumulate_getD product bucket

lemma aggregate_getD (buckets : List (Option G)) (indices : List ℕ) :
    (aggregate buckets indices).getD 1 = (indices.map (valueAt buckets)).prod := by
  exact (aggregate_foldl buckets indices none).trans (one_mul _)

/-- Composing an aggregate multiplies its power, also where the source skips it. -/
lemma composeAggregate_eq (proof : G) (exponent : ℕ) (product : Option G) :
    composeAggregate proof exponent product = proof * product.getD 1 ^ exponent := by
  cases product with
  | none => exact (by rw [Option.getD_none, one_pow, mul_one]; rfl)
  | some product =>
    by_cases hzero : exponent = 0
    · subst hzero
      simp [composeAggregate]
    · simp [composeAggregate, hzero]

lemma prod_map_range (f : ℕ → G) (n : ℕ) :
    ((List.range n).map f).prod = ∏ i ∈ range n, f i := by
  induction n with
  | zero => rfl
  | succ n ih => rw [List.range_succ, List.map_append, List.prod_append, ih, prod_range_succ]; simp

/-- A loop that multiplies to the proof multiplies the product. -/
lemma foldl_mul (f : ℕ → G) (n : ℕ) (proof : G) :
    (List.range n).foldl (fun proof i => proof * f i) proof = proof * ∏ i ∈ range n, f i := by
  induction n with
  | zero => simp
  | succ n ih => rw [List.range_succ, List.foldl_append, ih, prod_range_succ, ← mul_assoc]; rfl

/-- **Rows and columns.** The two loops multiply every bucket to its own power. -/
lemma composeBuckets_eq (buckets : List (Option G)) (rowCount columnCount : ℕ) (proof : G) :
    composeBuckets buckets rowCount columnCount proof
      = proof * ∏ b ∈ range (rowCount * columnCount), valueAt buckets b ^ b := by
  unfold composeBuckets
  simp only [composeAggregate_eq, aggregate_getD, List.map_map, foldl_mul]
  rw [Windows.prod_pow_rows_columns, mul_assoc]
  have hrow (b₁ : ℕ) : ((List.range columnCount).map
        (valueAt buckets ∘ fun b₀ => b₁ * columnCount + b₀)).prod
      = ∏ b₀ ∈ range columnCount, valueAt buckets (b₁ * columnCount + b₀) := prod_map_range _ _
  have hcolumn (b₀ : ℕ) : ((List.range rowCount).map
        (valueAt buckets ∘ fun b₁ => b₁ * columnCount + b₀)).prod
      = ∏ b₁ ∈ range rowCount, valueAt buckets (b₁ * columnCount + b₀) := prod_map_range _ _
  simp only [hrow, hcolumn]

/-- The powers of the buckets are the powers of the checkpoints by their blocks. -/
lemma prod_buckets {entries : List (G × Option ℕ)} {count : ℕ}
    (room : ∀ entry ∈ entries, ∀ bucket, entry.2 = some bucket → bucket < count) :
    ∏ b ∈ range count, (entries.map fun entry => contribution entry b).prod ^ b
      = (entries.map fun entry => entry.1 ^ entry.2.getD 0).prod := by
  induction entries with
  | nil => simp
  | cons entry entries ih =>
    rw [List.forall_mem_cons] at room
    simp only [List.map_cons, List.prod_cons, mul_pow, prod_mul_distrib]
    rw [ih room.2]
    congr 1
    unfold contribution
    cases hentry : entry.2 with
    | none => simp
    | some bucket =>
      rw [prod_eq_single bucket]
      · rw [if_pos rfl]
        rfl
      · intro b _ hne
        rw [if_neg (by simpa using Ne.symm hne), one_pow]
      · intro hout
        exact absurd (mem_range.mpr (room.1 bucket hentry)) hout

/-! ## Passes -/

/-- The checkpoints: the generator squared as often as rounds have passed. -/
def checkpointsOf (generator : G) (parameters : ProofParameters) : List G :=
  (List.range parameters.checkpointCount).map fun i =>
    generator ^ 2 ^ (parameters.k * parameters.l * i)

/-- What a pass adds to the exponent of the proof. -/
def passExponent (parameters : ProofParameters) (challenge rounds j : ℕ) : ℕ :=
  ∑ i ∈ range parameters.checkpointCount, 2 ^ (parameters.k * parameters.l * i)
    * digit parameters.k challenge rounds (i * parameters.l + j)

lemma halves (k : ℕ) : 2 ^ (k / 2) * 2 ^ (k - k / 2) = 2 ^ k := by
  rw [← Nat.pow_add]
  congr 1
  omega

/-- **One pass** moves the exponent of the proof up by one window and adds the digits of its
positions. -/
lemma checkpointPass_eq (fits : parameters.Fits rounds) (consistent : parameters.For rounds)
    (positive : 0 < challenge) (generator : G) {j : ℕ} (hj : j < parameters.l) (exponent : ℕ) :
    checkpointPass (checkpointsOf generator parameters) rounds parameters challenge
        (2 ^ (parameters.k * parameters.l) % challenge) (generator ^ exponent) j
      = .ok (generator ^ (exponent * 2 ^ parameters.k
          + passExponent parameters challenge rounds j)) := by
  have hshift := fits.shift
  unfold checkpointPass
  rw [shiftOne_eq hshift]
  change (getBlocksForPass j parameters rounds challenge _ >>= _) = _
  rw [getBlocksForPass_eq fits consistent positive hj]
  change (shiftOne (parameters.k / 2) >>= _) = _
  rw [shiftOne_eq (by omega)]
  change (shiftOne (parameters.k - parameters.k / 2) >>= _) = _
  rw [shiftOne_eq (by omega)]
  change Except.ok (composeBuckets _ _ _ _) = _
  congr 1
  have hzip : (checkpointsOf generator parameters).zip
        ((List.range parameters.checkpointCount).map (blockOf parameters challenge rounds j))
      = (List.range parameters.checkpointCount).map fun i =>
        (generator ^ 2 ^ (parameters.k * parameters.l * i),
          blockOf parameters challenge rounds j i) := by
    rw [checkpointsOf, List.zip_map', List.map_inj_left]
    exact fun _ _ => rfl
  have hroom : ∀ entry ∈ (List.range parameters.checkpointCount).map (fun i =>
        (generator ^ 2 ^ (parameters.k * parameters.l * i),
          blockOf parameters challenge rounds j i)),
      ∀ bucket, entry.2 = some bucket → bucket < 2 ^ parameters.k := by
    intro entry hentry bucket hbucket
    obtain ⟨i, -, rfl⟩ := List.mem_map.mp hentry
    unfold blockOf at hbucket
    dsimp only at hbucket
    split at hbucket
    · cases hbucket
      exact digit_lt positive
    · cases hbucket
  have hroom' := hroom
  rw [← consistent.buckets, ← List.length_replicate (n := parameters.bucketCount)
    (a := (none : Option G))] at hroom'
  rw [hzip, composeBuckets_eq, halves]
  simp only [valueAt_foldl_fillBucket hroom', valueAt_replicate, one_mul]
  rw [prod_buckets hroom, List.map_map, pow_add, ← pow_mul]
  congr 1
  have hpowers : ((List.range parameters.checkpointCount).map ((fun entry : G × Option ℕ =>
        entry.1 ^ entry.2.getD 0) ∘ fun i =>
          (generator ^ 2 ^ (parameters.k * parameters.l * i),
            blockOf parameters challenge rounds j i))).prod
      = ∏ i ∈ range parameters.checkpointCount,
        generator ^ (2 ^ (parameters.k * parameters.l * i)
          * digit parameters.k challenge rounds (i * parameters.l + j)) := by
    rw [prod_map_range]
    refine prod_congr rfl fun i _ => ?_
    rw [Function.comp_apply, blockOf_getD, ← pow_mul]
  rw [hpowers, prod_pow_eq_pow_sum]
  rfl

/-- **All passes**, from the highest position of a stride down. -/
lemma foldlM_checkpointPass (fits : parameters.Fits rounds) (consistent : parameters.For rounds)
    (positive : 0 < challenge) (generator : G) {passes : ℕ} (hpasses : passes ≤ parameters.l)
    (exponent : ℕ) :
    (List.range passes).reverse.foldlM (checkpointPass (checkpointsOf generator parameters) rounds
        parameters challenge (2 ^ (parameters.k * parameters.l) % challenge))
        (generator ^ exponent)
      = .ok (generator ^ (exponent * 2 ^ (parameters.k * passes)
          + ∑ j ∈ range passes,
            2 ^ (parameters.k * j) * passExponent parameters challenge rounds j)) := by
  induction passes generalizing exponent with
  | zero =>
    rw [Nat.mul_zero, Nat.pow_zero, Nat.mul_one, sum_range_zero, Nat.add_zero]
    rfl
  | succ passes ih =>
    rw [List.range_succ, List.reverse_append]
    change (List.foldlM _ _ (passes :: (List.range passes).reverse)) = _
    rw [List.foldlM_cons, checkpointPass_eq fits consistent positive generator (by omega)]
    change List.foldlM _ _ _ = _
    rw [ih (by omega), sum_range_succ]
    congr 2
    ring

/-- The exponents of all passes make up the quotient. -/
lemma sum_passes (consistent : parameters.For rounds) (large : 2 ^ parameters.k < challenge) :
    ∑ j ∈ range parameters.l, 2 ^ (parameters.k * j) * passExponent parameters challenge rounds j
      = 2 ^ rounds / challenge := by
  have hcovers : rounds ≤ parameters.k * (parameters.checkpointCount * parameters.l) := by
    have := le_divCeil_mul (n := rounds) (Nat.mul_pos consistent.window consistent.stride)
    rwa [← consistent.checkpoints, Nat.mul_assoc, Nat.mul_comm parameters.l] at this
  rw [quotient_eq_digits consistent.window large hcovers, Windows.sum_range_mul, sum_comm]
  refine sum_congr rfl fun j _ => ?_
  rw [passExponent, mul_sum]
  refine sum_congr rfl fun i _ => ?_
  rw [← Nat.mul_assoc, ← Nat.pow_add]
  congr 2
  ring

/-! ## The squaring loops -/

/-- Another round starts another stride exactly when it has the whole strides behind it. -/
lemma divCeil_succ {n divisor : ℕ} (positive : 0 < divisor) :
    divCeil (n + 1) divisor = if n % divisor = 0 then divCeil n divisor + 1
      else divCeil n divisor := by
  have hnext : divCeil (n + 1) divisor = n / divisor + 1 := by
    have hsum : n + 1 + divisor - 1 = n + divisor := by omega
    rw [divCeil, hsum, Nat.add_div_right _ positive]
  have hlt := Nat.mod_lt n positive
  have hsum : n + divisor - 1 = divisor * (n / divisor) + (n % divisor + divisor - 1) := by
    have := Nat.div_add_mod n divisor
    omega
  rw [hnext, divCeil, hsum, Nat.mul_add_div positive]
  split
  · rename_i hzero
    have hnone : (n % divisor + divisor - 1) / divisor = 0 := Nat.div_eq_of_lt (by omega)
    rw [hnone, Nat.add_zero]
  · have hone : n % divisor + divisor - 1 = divisor * 1 + (n % divisor - 1) := by omega
    have hnone : (n % divisor - 1) / divisor = 0 := Nat.div_eq_of_lt (by omega)
    rw [hone, Nat.mul_add_div positive, hnone, Nat.add_zero]

/-- The squaring loop of the checkpoint prover. -/
lemma squareWithCheckpoint_fold {stride : ℕ} (positive : 0 < stride) (generator : G) (rounds : ℕ) :
    (List.range rounds).foldl (squareWithCheckpoint stride) (generator, [])
      = (generator ^ 2 ^ rounds, (List.range (divCeil rounds stride)).map fun i =>
          generator ^ 2 ^ (stride * i)) := by
  induction rounds with
  | zero =>
    have hzero : divCeil 0 stride = 0 := Nat.div_eq_of_lt (by omega)
    rw [hzero, Nat.pow_zero, pow_one]
    rfl
  | succ rounds ih =>
    rw [List.range_succ, List.foldl_append, ih, divCeil_succ positive]
    change squareWithCheckpoint stride _ rounds = _
    unfold squareWithCheckpoint
    dsimp only
    rw [Nat.pow_succ, pow_mul, pow_two]
    congr 1
    split
    · rename_i hmultiple
      have hstart : stride * divCeil rounds stride = rounds := by
        have hwhole := Nat.div_add_mod rounds stride
        have hsum : rounds + stride - 1 = stride * (rounds / stride) + (stride - 1) := by omega
        have hnone : (stride - 1) / stride = 0 := Nat.div_eq_of_lt (by omega)
        rw [divCeil, hsum, Nat.mul_add_div positive, hnone, Nat.add_zero]
        omega
      rw [List.range_succ, List.map_append, List.map_singleton, hstart]
    · rfl

lemma square_fold (generator : G) (rounds : ℕ) :
    (List.range rounds).foldl (fun output _ => output * output) generator
      = generator ^ 2 ^ rounds := by
  induction rounds with
  | zero => exact (pow_one generator).symm
  | succ rounds ih =>
    rw [List.range_succ, List.foldl_append, ih, Nat.pow_succ, pow_mul, pow_two]
    rfl

/-- The division loop keeps the quotient and the remainder of the powers of two. -/
lemma divide_rounds (large : 1 < challenge) (generator : G) (rounds : ℕ) :
    (List.range rounds).foldl (fun state _ => divideRound generator challenge state)
        (1, 1 % challenge)
      = (generator ^ (2 ^ rounds / challenge), 2 ^ rounds % challenge) := by
  induction rounds with
  | zero =>
    rw [Nat.pow_zero, Nat.div_eq_of_lt large, pow_zero]
    rfl
  | succ rounds ih =>
    rw [List.range_succ, List.foldl_append, ih]
    have hpositive : 0 < challenge := by omega
    have hdigit := Windows.mul_div_digit 2 (2 ^ rounds) challenge hpositive
    have hremainder : 2 ^ rounds % challenge * 2 % challenge = 2 ^ (rounds + 1) % challenge := by
      rw [Nat.pow_succ, Nat.mod_mul_mod]
    have hquotient : 2 ^ (rounds + 1) / challenge
        = 2 ^ rounds / challenge * 2 + 2 ^ rounds % challenge * 2 / challenge := by
      rw [Nat.pow_succ, Nat.mul_comm _ 2, hdigit, Nat.mul_comm 2, Nat.mul_comm 2]
    have hlt := Nat.mod_lt (2 ^ rounds) hpositive
    change divideRound generator challenge _ = _
    unfold divideRound
    dsimp only
    rw [hremainder, hquotient, pow_add generator, pow_mul generator, pow_two]
    congr 1
    split
    · have hone : 2 ^ rounds % challenge * 2 / challenge = 1 :=
        Nat.div_eq_of_lt_le (by omega) (by omega)
      rw [hone, pow_one]
    · have hnone : 2 ^ rounds % challenge * 2 / challenge = 0 := Nat.div_eq_of_lt (by omega)
      rw [hnone, pow_zero, mul_one]

/-! ## The provers -/

variable {getB : G → G → Result ℕ}

/-- The checkpoint prover, for parameters whose integers fit. -/
theorem proveCheckpointed_eq (fits : parameters.Fits rounds) (consistent : parameters.For rounds)
    (some_rounds : 0 < rounds) (large : 2 ^ parameters.k < challenge) {generator : G}
    (drawn : getB generator (generator ^ 2 ^ rounds) = .ok challenge) :
    proveCheckpointed getB generator rounds parameters
      = .ok (generator ^ 2 ^ rounds, generator ^ (2 ^ rounds / challenge)) := by
  have hshift := fits.shift
  have hpositive : 0 < challenge := (Nat.zero_le _).trans_lt large
  have hstride := Nat.mul_pos consistent.window consistent.stride
  have hcount : 0 < parameters.checkpointCount := by
    rw [consistent.checkpoints]
    have := le_divCeil_mul (n := rounds) hstride
    by_contra hzero
    rw [Nat.eq_zero_of_not_pos hzero] at this
    omega
  have hfits : parameters.k * parameters.l ≤ u64Max := by
    refine (Nat.mul_le_mul_left parameters.k ?_).trans fits.ends
    exact Nat.le_mul_of_pos_left _ hcount
  have hwork := fits.work
  have hpass : parameters.checkpointCount + 2 ^ (parameters.k / 2)
      + 2 ^ (parameters.k - parameters.k / 2) ≤ u64Max :=
    (Nat.le_mul_of_pos_left _ consistent.stride).trans hwork
  have hproof : generateCheckpointProof getB generator (generator ^ 2 ^ rounds)
      (checkpointsOf generator parameters) rounds parameters
        = .ok (generator ^ (2 ^ rounds / challenge)) := by
    have hpasses := foldlM_checkpointPass fits consistent hpositive generator le_rfl 0
    rw [Nat.zero_mul, Nat.zero_add, sum_passes consistent large, pow_zero] at hpasses
    unfold generateCheckpointProof
    refine Outcome.bind_eq_ok.mpr ⟨_, drawn, ?_⟩
    refine Outcome.bind_eq_ok.mpr ⟨_, shiftOne_eq (by omega), ?_⟩
    refine Outcome.bind_eq_ok.mpr ⟨_, shiftOne_eq (by omega), ?_⟩
    refine Outcome.bind_eq_ok.mpr ⟨parameters.checkpointCount + 2 ^ (parameters.k / 2)
      + 2 ^ (parameters.k - parameters.k / 2), Outcome.ofOption_eq_ok.mpr ?_, ?_⟩
    · rw [checkedAdd, if_pos ((Nat.le_add_right _ _).trans hpass), Option.bind_some, checkedAdd,
        if_pos hpass]
    refine Outcome.bind_eq_ok.mpr ⟨_, Outcome.ofOption_eq_ok.mpr (if_pos hwork), ?_⟩
    exact Outcome.bind_eq_ok.mpr ⟨_, Outcome.ofOption_eq_ok.mpr (if_pos hfits), hpasses⟩
  unfold proveCheckpointed
  refine Outcome.bind_eq_ok.mpr ⟨_, Outcome.ofOption_eq_ok.mpr (if_pos hfits), ?_⟩
  dsimp only
  rw [squareWithCheckpoint_fold hstride, ← consistent.checkpoints]
  exact Outcome.bind_eq_ok.mpr ⟨_, hproof, rfl⟩

/-- The checkpoint prover reports an error where its integers do not fit. -/
theorem fits_of_proveCheckpointed (consistent : parameters.For rounds) (some_rounds : 0 < rounds)
    {generator : G} {result : G × G}
    (proved : proveCheckpointed getB generator rounds parameters = .ok result) :
    parameters.Fits rounds := by
  have hchecked {a b c : ℕ} (h : checkedMul a b = some c) : a * b = c ∧ c ≤ u64Max := by
    unfold checkedMul at h
    split at h
    · cases h
      exact ⟨rfl, by assumption⟩
    · cases h
  simp only [proveCheckpointed, generateCheckpointProof, Outcome.bind_eq_ok,
    Outcome.ofOption_eq_ok, Outcome.pure_eq_ok] at proved
  obtain ⟨stride, -, proof, ⟨challenge, -, rowCount, hrow, columnCount, hcolumn, work, hwork, total,
    htotal, exponent, -, hpasses⟩, -⟩ := proved
  have hshift {k window : ℕ} (h : shiftOne k = .ok window) : k < 64 ∧ window = 2 ^ k := by
    unfold shiftOne at h
    split at h
    · exact ⟨by assumption, (Outcome.pure_eq_ok.mp h).symm⟩
    · exact absurd h (by simp)
  obtain ⟨l, hl⟩ := Nat.exists_eq_succ_of_ne_zero consistent.stride.ne'
  rw [hl, List.range_succ, List.reverse_append] at hpasses
  change List.foldlM _ _ (l :: (List.range l).reverse) = _ at hpasses
  obtain ⟨first, hfirst, -⟩ := Outcome.foldlM_cons_eq_ok.mp hpasses
  simp only [checkpointPass, Outcome.bind_eq_ok] at hfirst
  obtain ⟨window, hwindow, blocks, hblocks, -⟩ := hfirst
  obtain ⟨last, hlast⟩ : ∃ last, parameters.checkpointCount = last + 1 := by
    refine Nat.exists_eq_succ_of_ne_zero ?_
    have := le_divCeil_mul (n := rounds) (Nat.mul_pos consistent.window consistent.stride)
    rw [← consistent.checkpoints] at this
    intro hzero
    rw [hzero] at this
    omega
  -- the first pass looks at the highest position first, so the end of its block has been checked
  have hend : ∃ position finish, checkpointPosition last l parameters.l = .ok position ∧
      blockEnd position parameters.k = .ok finish := by
    unfold getBlocksForPass at hblocks
    rw [hlast] at hblocks
    simp only [Outcome.bind_eq_ok] at hblocks
    obtain ⟨found, hfound, -⟩ := hblocks
    cases last with
    | zero =>
      simp only [lastBlockIndex, Outcome.bind_eq_ok] at hfound
      obtain ⟨position, hposition, finish, hfinish, -⟩ := hfound
      exact ⟨position, finish, hposition, hfinish⟩
    | succ last =>
      simp only [lastBlockIndex, Outcome.bind_eq_ok] at hfound
      obtain ⟨position, hposition, finish, hfinish, -⟩ := hfound
      exact ⟨position, finish, hposition, hfinish⟩
  refine ⟨(hshift hwindow).1, ?_, ?_⟩
  · obtain ⟨position, finish, hposition, hfinish⟩ := hend
    simp only [checkpointPosition, blockEnd, Outcome.bind_eq_ok, Outcome.ofOption_eq_ok,
      Option.bind_eq_some_iff, checkedAdd_eq_some] at hposition hfinish
    obtain ⟨product, hproduct, rfl, -⟩ := hposition
    obtain ⟨next, ⟨rfl, -⟩, hfinish⟩ := hfinish
    obtain ⟨rfl, -⟩ := hchecked hproduct
    obtain ⟨rfl, hle⟩ := hchecked hfinish
    have hcount : parameters.checkpointCount * parameters.l = last * parameters.l + l + 1 := by
      rw [hlast, Nat.succ_mul]
      omega
    rwa [hcount]
  · simp only [Option.bind_eq_some_iff, checkedAdd_eq_some] at hwork
    obtain ⟨sum, ⟨rfl, -⟩, rfl, -⟩ := hwork
    obtain ⟨rfl, hle⟩ := hchecked htotal
    rwa [(hshift hrow).2, (hshift hcolumn).2] at hle

theorem proveConstantMemory_eq (large : 1 < challenge) {generator : G}
    (drawn : getB generator (generator ^ 2 ^ rounds) = .ok challenge) :
    proveConstantMemory getB generator rounds
      = .ok (generator ^ 2 ^ rounds, generator ^ (2 ^ rounds / challenge)) := by
  unfold proveConstantMemory
  dsimp only
  rw [square_fold]
  refine Outcome.bind_eq_ok.mpr ⟨_, drawn, ?_⟩
  rw [divide_rounds large]
  rfl

/-- **The provers agree.** In every commutative group, for every number of rounds, window and
challenge larger than the window, the constant-memory prover returns the power of the generator
with the quotient of the powers of two, the checkpoint prover returns the same wherever its
integers fit and an error elsewhere, and the power verifies. -/
theorem provers_agree (consistent : parameters.For rounds) (some_rounds : 0 < rounds)
    (large : 2 ^ parameters.k < challenge) {generator : G}
    (drawn : getB generator (generator ^ 2 ^ rounds) = .ok challenge) :
    proveConstantMemory getB generator rounds
        = .ok (generator ^ 2 ^ rounds, generator ^ (2 ^ rounds / challenge)) ∧
      (parameters.Fits rounds → proveCheckpointed getB generator rounds parameters
        = .ok (generator ^ 2 ^ rounds, generator ^ (2 ^ rounds / challenge))) ∧
      ((proveCheckpointed getB generator rounds parameters).isOk = true ↔
        parameters.Fits rounds) ∧
      (generator ^ (2 ^ rounds / challenge)) ^ challenge * generator ^ (2 ^ rounds % challenge)
        = generator ^ 2 ^ rounds := by
  have hone : 1 < challenge := Nat.one_le_two_pow.trans_lt large
  refine ⟨proveConstantMemory_eq hone drawn,
    fun fits => proveCheckpointed_eq fits consistent some_rounds large drawn, ⟨?_, ?_⟩, ?_⟩
  · intro proved
    cases hproved : proveCheckpointed getB generator rounds parameters with
    | ok result => exact fits_of_proveCheckpointed consistent some_rounds hproved
    | error e =>
      rw [hproved] at proved
      cases proved
  · intro fits
    rw [proveCheckpointed_eq fits consistent some_rounds large drawn]
    rfl
  · rw [← pow_mul, ← pow_add, Nat.mul_comm, Nat.div_add_mod]

end Vdf

end Iuna

namespace Iuna.Toy

open Vdf

/-- A window of two bits over two strides for five rounds, which the stride does not divide. -/
def fiveRounds : ProofParameters := { k := 2, l := 2, checkpointCount := 2, bucketCount := 4 }

/-- The provers over the integers, with the challenge seven. -/
theorem provers_agree_fiveRounds :
    proveCheckpointed (fun _ _ => .ok 7) (Multiplicative.ofAdd (1 : ℤ)) 5 fiveRounds
        = .ok (Multiplicative.ofAdd 1 ^ 2 ^ 5, Multiplicative.ofAdd 1 ^ (2 ^ 5 / 7)) ∧
      proveConstantMemory (fun _ _ => .ok 7) (Multiplicative.ofAdd (1 : ℤ)) 5
        = .ok (Multiplicative.ofAdd 1 ^ 2 ^ 5, Multiplicative.ofAdd 1 ^ (2 ^ 5 / 7)) := by
  have hconsistent : fiveRounds.For 5 := ⟨by decide, by decide, by decide, by decide⟩
  have hfits : fiveRounds.Fits 5 := ⟨by decide, by decide, by decide⟩
  obtain ⟨hconstant, hcheckpoint, -⟩ := @provers_agree fiveRounds 5 7 _ _
    (fun _ _ => .ok 7) hconsistent (by decide) (by decide) (Multiplicative.ofAdd (1 : ℤ)) rfl
  exact ⟨hcheckpoint hfits, hconstant⟩

/-- A single round with a window of one bit and very long strides. -/
def longStrides : ProofParameters :=
  { k := 1, l := 2 ^ 62, checkpointCount := 1, bucketCount := 2 }

/-- **An overflow.** The amount of work of long strides does not fit, and the checkpoint prover
reports an error. -/
theorem longStrides_overflow :
    longStrides.For 1 ∧ 0 < 1 ∧ 0 < longStrides.k ∧ 0 < longStrides.l ∧ 2 ^ longStrides.k < 3 ∧
      ¬ ∃ result, proveCheckpointed (fun _ _ => .ok 3) (Multiplicative.ofAdd (1 : ℤ)) 1 longStrides
        = .ok result := by
  have hconsistent : longStrides.For 1 := ⟨by decide, by decide, by decide, by decide⟩
  refine ⟨hconsistent, by decide, by decide, by decide, by decide, ?_⟩
  rintro ⟨result, hresult⟩
  have hfits := fits_of_proveCheckpointed hconsistent (by decide) hresult
  exact absurd hfits.work (by decide)

end Iuna.Toy
