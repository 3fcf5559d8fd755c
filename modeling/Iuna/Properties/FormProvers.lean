import Iuna.Domain.FormProvers
import Iuna.Properties.FormPowers
import Iuna.Properties.Provers

/-!
# The provers in the group of classes

The provers on limbs simulate the provers over the group of classes, step by step: related
operands give related results, a returned error is one that the group prover returns, and the only
panic is the fault of a division.
-/

namespace Iuna

namespace Vdf

open LimbInt Fueled

open BinaryForm (Discriminant FormOf FormClass)

variable {D : Discriminant}

/-! ## Simulation -/

/-- How a computation may fail that simulates a result. -/
def Refusal {β : Type} (result : Result β) (fault : ProverFault) : Prop :=
  fault = .panic .indexOutOfRange ∨ ∃ error, fault = .returned error ∧ result = .error error

/-- A computation settles on a value related to the result, or on an error of it. -/
def Simulates {α β : Type} (R : α → β → Prop) (run : ℕ → Proving α) (result : Result β) : Prop :=
  Settles (Refusal result) (fun a => ∃ b, result = .ok b ∧ R a b) run

namespace Simulates

variable {α β σ τ : Type} {R : α → β → Prop}

lemma pure {a : α} {b : β} (h : R a b) : Simulates R (fun _ => Pure.pure a) (.ok b) :=
  Settles.pure ⟨b, rfl, h⟩

lemma mono {R' : α → β → Prop} {run : ℕ → Proving α} {result : Result β}
    (h : Simulates R run result) (imp : ∀ a b, R a b → R' a b) : Simulates R' run result := by
  refine Settles.mono h ?_
  rintro a ⟨b, hb, hR⟩
  exact ⟨b, hb, imp a b hR⟩

/-- The values of a simulation of a success. -/
lemma settles {bad : ProverFault → Prop} {run : ℕ → Proving α} {b : β}
    (h : Simulates R run (.ok b)) (panic : bad (.panic .indexOutOfRange)) :
    Settles bad (fun a => R a b) run := by
  refine (Settles.mono h ?_).weaken ?_
  · rintro a ⟨b', hb', hR⟩
    cases hb'
    exact hR
  · rintro fault (rfl | ⟨error, -, herror⟩)
    · exact panic
    · cases herror

/-- Another value in the place of the one that the group prover comes to. -/
lemma toOk {R' : α → τ → Prop} {run : ℕ → Proving α} {b : β} {c : τ}
    (h : Simulates R run (.ok b)) (imp : ∀ a, R a b → R' a c) : Simulates R' run (.ok c) :=
  (h.settles (.inl rfl)).mono fun a hR => ⟨c, rfl, imp a hR⟩

/-- A step of the limbs alone. -/
lemma bindOk {R' : σ → τ → Prop} {run : ℕ → Proving α} {b : β} {result : Result τ}
    {f : ℕ → α → Proving σ} (h : Simulates R run (.ok b))
    (rest : ∀ a, R a b → Simulates R' (fun fuel => f fuel a) result) :
    Simulates R' (fun fuel => run fuel >>= f fuel) result :=
  (h.settles (.inl rfl)).bind rest

lemma bind {R' : σ → τ → Prop} {run : ℕ → Proving α} {result : Result β}
    {f : ℕ → α → Proving σ} {g : β → Result τ} (h : Simulates R run result)
    (rest : ∀ a b, result = .ok b → R a b → Simulates R' (fun fuel => f fuel a) (g b)) :
    Simulates R' (fun fuel => run fuel >>= f fuel) (result >>= g) := by
  cases result with
  | error error =>
    have hfails : Settles (Refusal (Except.error error : Result τ)) (fun _ => False) run := by
      refine (Settles.mono h ?_).weaken ?_
      · rintro a ⟨b, hb, -⟩
        cases hb
      · rintro fault (hpanic | ⟨other, hother, herror⟩)
        · exact .inl hpanic
        · cases herror
          exact .inr ⟨error, hother, rfl⟩
    exact hfails.bind fun a hfalse => hfalse.elim
  | ok b => exact h.bindOk fun a hR => rest a b rfl hR

/-- A last step of the limbs alone. -/
lemma andThen {R' : α → β → Prop} {run : ℕ → Proving α} {result : Result β}
    {f : ℕ → α → Proving α} (h : Simulates R run result)
    (rest : ∀ a b, R a b → Simulates R' (fun fuel => f fuel a) (.ok b)) :
    Simulates R' (fun fuel => run fuel >>= f fuel) result := by
  have hbind : (result >>= fun b => .ok b) = result := by cases result <;> rfl
  rw [← hbind]
  exact h.bind fun a b _ hR => rest a b hR

/-- A computation that both levels share. -/
lemma ofResult (result : Result α) :
    Simulates Eq (fun _ => Proving.ofResult result) result := by
  cases result with
  | error error => exact ⟨.error (.returned error), .inr ⟨error, rfl, rfl⟩, 0, fun _ _ => rfl⟩
  | ok a => exact ⟨.ok a, ⟨a, rfl, rfl⟩, 0, fun _ _ => rfl⟩

/-- An operation on limbs. -/
lemma ofTurns {P : α → Prop} {run : ℕ → Turns α} (h : Settles Overrun P run) {b : β}
    (imp : ∀ a, P a → R a b) : Simulates R (fun fuel => Proving.ofTurns (run fuel)) (.ok b) := by
  obtain ⟨outcome, holds, enough, hrun⟩ := h
  refine ⟨outcome.mapError .panic, ?_, enough, fun fuel hfuel => ?_⟩
  · cases outcome with
    | error fault => exact .inl (congrArg ProverFault.panic holds)
    | ok a => exact ⟨b, rfl, imp a holds⟩
  · simp only [hrun fuel hfuel]
    rfl

/-- The loop rule. -/
lemma foldlM {S : σ → τ → Prop} {f : ℕ → α → σ → Proving α} {g : β → τ → Result β}
    (step : ∀ a b x y, R a b → S x y → Simulates R (fun fuel => f fuel a x) (g b y))
    {xs : List σ} {ys : List τ} (hlists : List.Forall₂ S xs ys) {a : α} {b : β} (hR : R a b) :
    Simulates R (fun fuel => xs.foldlM (f fuel) a) (ys.foldlM g b) := by
  induction hlists generalizing a b with
  | nil => exact .pure hR
  | cons hhead _ ih =>
    simp only [List.foldlM_cons]
    exact (step _ _ _ _ hR hhead).bind fun a' b' _ hR' => ih hR'

/-- The loop rule where the group prover does not fail. -/
lemma foldl {S : σ → τ → Prop} {f : ℕ → α → σ → Proving α} {g : β → τ → β}
    (step : ∀ a b x y, R a b → S x y → Simulates R (fun fuel => f fuel a x) (.ok (g b y)))
    {xs : List σ} {ys : List τ} (hlists : List.Forall₂ S xs ys) {a : α} {b : β} (hR : R a b) :
    Simulates R (fun fuel => xs.foldlM (f fuel) a) (.ok (ys.foldl g b)) := by
  have hpure : ∀ (ys : List τ) (b : β), ys.foldlM (fun b y => (.ok (g b y) : Result β)) b
      = .ok (ys.foldl g b) := by
    intro ys
    induction ys with
    | nil => exact fun b => rfl
    | cons y ys ih => exact fun b => ih (g b y)
  rw [← hpure]
  exact foldlM step hlists hR

end Simulates

/-! ## Buckets -/

/-- Limbs of a form of a class. -/
def Rep (form : FormLimbs) (x : FormClass D) : Prop := Represents x form

/-- Lists of places with forms of the same classes. -/
abbrev SameBuckets (buckets : List (Option FormLimbs)) (classes : List (Option (FormClass D))) :
    Prop :=
  List.Forall₂ (Option.Rel Rep) buckets classes

lemma SameBuckets.get {buckets : List (Option FormLimbs)} {classes : List (Option (FormClass D))}
    (h : SameBuckets buckets classes) (index : ℕ) :
    Option.Rel Rep (buckets[index]?).join (classes[index]?).join := by
  induction h generalizing index with
  | nil => exact .none
  | cons head _ ih =>
    cases index with
    | zero => exact head
    | succ index => simpa only [List.getElem?_cons_succ] using ih index

lemma SameBuckets.set {buckets : List (Option FormLimbs)} {classes : List (Option (FormClass D))}
    (h : SameBuckets buckets classes) (index : ℕ) {place : Option FormLimbs}
    {x : Option (FormClass D)} (hplace : Option.Rel Rep place x) :
    SameBuckets (buckets.set index place) (classes.set index x) := by
  induction h generalizing index with
  | nil => exact .nil
  | cons head tail ih =>
    cases index with
    | zero => exact .cons hplace tail
    | succ index => exact .cons head (ih index)

lemma sameBuckets_replicate (count : ℕ) :
    SameBuckets (D := D) (List.replicate count none) (List.replicate count none) := by
  induction count with
  | zero => exact .nil
  | succ count ih => exact .cons .none ih

/-! ## The parameters -/

lemma divCeil_le (n : ℕ) {divisor : ℕ} (positive : 0 < divisor) : divCeil n divisor ≤ n := by
  rw [divCeil, ← Nat.lt_succ_iff, Nat.div_lt_iff_lt_mul positive]
  have := Nat.le_mul_of_pos_right n positive
  rw [Nat.succ_mul]
  omega

lemma divCeil_mul_le (n : ℕ) {divisor : ℕ} (positive : 0 < divisor) :
    divCeil n divisor * divisor ≤ n + divisor := by
  have := Nat.div_mul_le_self (n + divisor - 1) divisor
  rw [divCeil]
  omega

namespace ProofParameters

/-- The integers of modest parameters fit. -/
lemma For.fits {parameters : ProofParameters} {rounds : ℕ} (consistent : parameters.For rounds)
    (window : parameters.k ≤ 16) (stride : parameters.l < 2 ^ 53) (few : rounds < 2 ^ 53) :
    parameters.Fits rounds := by
  obtain ⟨k, l, count, buckets⟩ := parameters
  have hk : 0 < k := consistent.window
  have hl : 0 < l := consistent.stride
  obtain rfl : count = divCeil rounds (k * l) := consistent.checkpoints
  dsimp only at window stride
  have hcount := divCeil_mul_le rounds (Nat.mul_pos hk hl)
  generalize divCeil rounds (k * l) = count at hcount ⊢
  have hwindow : k * l ≤ 16 * l := Nat.mul_le_mul_right l window
  have hmax : u64Max = 2 ^ 64 - 1 := rfl
  refine ⟨by dsimp only; omega, ?_, ?_⟩
  · have heq : k * (count * l) = count * (k * l) := by ring
    dsimp only
    omega
  · have hrows : 2 ^ (k / 2) ≤ 2 ^ 8 := Nat.pow_le_pow_right two_pos (by omega)
    have hcolumns : 2 ^ (k - k / 2) ≤ 2 ^ 8 := Nat.pow_le_pow_right two_pos (by omega)
    have hone : l * count ≤ count * (k * l) := by
      calc l * count = count * (1 * l) := by ring
        _ ≤ count * (k * l) := Nat.mul_le_mul_left count (Nat.mul_le_mul_right l hk)
    have hpasses : l * (2 ^ (k / 2) + 2 ^ (k - k / 2)) ≤ l * 512 :=
      Nat.mul_le_mul_left l (by omega)
    dsimp only
    rw [Nat.add_assoc, Nat.mul_add]
    omega

/-- A longer stride keeps the parameters consistent. -/
lemma For.fitCheckpointBudget {parameters : ProofParameters} {rounds : ℕ}
    (consistent : parameters.For rounds) (window : parameters.k ≤ 16)
    (stride : parameters.l < 2 ^ 53) (few : rounds < 2 ^ 53) (limit : ℕ) :
    (parameters.fitCheckpointBudget rounds limit).For rounds ∧
      (parameters.fitCheckpointBudget rounds limit).k = parameters.k ∧
      (parameters.fitCheckpointBudget rounds limit).l < 2 ^ 53 := by
  unfold ProofParameters.fitCheckpointBudget
  split
  · exact ⟨consistent, rfl, stride⟩
  · have hlonger := divCeil_le rounds
      (le_max_right (saturatingMul parameters.k limit) 1)
    dsimp only
    have hl := consistent.stride
    generalize divCeil rounds (max (saturatingMul parameters.k limit) 1) = longer at hlonger ⊢
    have hstride : max parameters.l longer < 2 ^ 53 := max_lt stride (by omega)
    have hpositive : 0 < max parameters.l longer := lt_max_of_lt_left hl
    have hproduct : parameters.k * max parameters.l longer ≤ 16 * max parameters.l longer :=
      Nat.mul_le_mul_right _ window
    refine ⟨⟨consistent.window, hpositive, ?_, consistent.buckets⟩, rfl, hstride⟩
    have hmax : u64Max = 2 ^ 64 - 1 := rfl
    have hproduct' := Nat.mul_pos consistent.window hpositive
    dsimp only
    rw [saturatingMul, min_eq_left (by omega), max_eq_left hproduct']

/-- The parameters of the prover, where their buckets are within the cap. -/
lemma forRounds_fit_for {rounds k l : ℕ} (window : 0 < k) (stride : 0 < l) (modest : l < 2 ^ 53)
    (few : rounds < 2 ^ 53) (limit : ℕ)
    (caps : ((forRounds rounds k l).fitCheckpointBudget rounds limit).bucketCount ≤ maxBuckets) :
    ((forRounds rounds k l).fitCheckpointBudget rounds limit).k ≤ 16 ∧
      ((forRounds rounds k l).fitCheckpointBudget rounds limit).For rounds ∧
      ((forRounds rounds k l).fitCheckpointBudget rounds limit).l < 2 ^ 53 := by
  have hbuckets : ∀ (parameters : ProofParameters) (limit : ℕ),
      (parameters.fitCheckpointBudget rounds limit).bucketCount = parameters.bucketCount := by
    intro parameters limit
    unfold ProofParameters.fitCheckpointBudget
    split <;> rfl
  have hcap : (if k < 64 then 2 ^ k else u64Max) ≤ 2 ^ 16 := by
    rw [hbuckets, forRounds, hbuckets] at caps
    exact caps
  have hwidth : k < 64 := by
    by_contra hwide
    rw [if_neg hwide] at hcap
    exact absurd hcap (by decide)
  rw [if_pos hwidth] at hcap
  have hk : k ≤ 16 := (Nat.pow_le_pow_iff_right one_lt_two).mp hcap
  have hproduct : k * l ≤ 16 * l := Nat.mul_le_mul_right l hk
  have hmax : u64Max = 2 ^ 64 - 1 := rfl
  have hfirst : (⟨k, l, divCeil rounds (max (saturatingMul k l) 1),
      if k < 64 then 2 ^ k else u64Max⟩ : ProofParameters).For rounds := by
    refine ⟨window, stride, ?_, if_pos hwidth⟩
    have hproduct' := Nat.mul_pos window stride
    dsimp only
    rw [saturatingMul, min_eq_left (by omega), max_eq_left hproduct']
  obtain ⟨hfor, hkeep, hlong⟩ := hfirst.fitCheckpointBudget hk modest few Vdf.maxCheckpoints
  have hkeep' : (forRounds rounds k l).k = k := hkeep
  obtain ⟨hfor', hkeep'', hlong'⟩ := hfor.fitCheckpointBudget (hkeep.trans_le hk) hlong few limit
  exact ⟨(hkeep''.trans hkeep').trans_le hk, hfor', hlong'⟩

end ProofParameters

section Prover

variable (group : ClassGroup) (threshold : ℕ) (hdiscriminant : group.discriminant = ofInt D.value)
  (hthreshold : group.threshold = ofInt threshold)

namespace ClassGroup

lemma reduce_simulates {form : FormLimbs} {x : FormClass D} (hform : Rep form x) :
    Simulates Rep (fun fuel => group.reduce fuel form) (.ok x) :=
  .ofTurns (FormLimbs.reduceWithScratch_represents hform group.scratch) fun _ h => h.represents

include hdiscriminant in
lemma one_simulates : Simulates Rep (fun _ => group.one) (.ok (1 : FormClass D)) := by
  simp only [one, hdiscriminant]
  exact .ofTurns (.lift (FormLimbs.identity_represents D)) fun _ h => h.represents

include hdiscriminant hthreshold

lemma compose_simulates {left right : FormLimbs} {x y : FormClass D} (hleft : Rep left x)
    (hright : Rep right y) :
    Simulates Rep (fun fuel => group.compose fuel left right) (.ok (x * y)) := by
  simp only [compose, hdiscriminant, hthreshold]
  exact .ofTurns (FormLimbs.composeUnreduced_represents hleft hright threshold group.scratch)
    fun _ h => h

lemma accumulate_simulates {place : Option FormLimbs} {x : Option (FormClass D)}
    (hplace : Option.Rel Rep place x) {form : FormLimbs} {y : FormClass D} (hform : Rep form y) :
    Simulates (fun form x => Option.Rel Rep (some form) x)
      (fun fuel => group.accumulate fuel place form) (.ok (Vdf.accumulate x y)) := by
  cases hplace with
  | none => exact .pure (.some hform)
  | some hproduct =>
    exact (group.compose_simulates threshold hdiscriminant hthreshold hproduct hform).toOk
      fun _ h => .some h

lemma fillBucket_simulates {buckets : List (Option FormLimbs)}
    {classes : List (Option (FormClass D))} (hbuckets : SameBuckets buckets classes)
    {entry : FormLimbs × Option ℕ} {entry' : FormClass D × Option ℕ}
    (hentry : Rep entry.1 entry'.1 ∧ entry.2 = entry'.2) :
    Simulates SameBuckets (fun fuel => group.fillBucket fuel buckets entry)
      (.ok (Vdf.fillBucket classes entry')) := by
  obtain ⟨form, block⟩ := entry
  obtain ⟨x, block'⟩ := entry'
  obtain ⟨hform, rfl⟩ := hentry
  cases block with
  | none => exact .pure hbuckets
  | some bucket =>
    exact (group.accumulate_simulates threshold hdiscriminant hthreshold (hbuckets.get bucket)
      hform).bindOk fun _ h => .pure (hbuckets.set bucket h)

lemma aggregate_simulates {buckets : List (Option FormLimbs)}
    {classes : List (Option (FormClass D))} (hbuckets : SameBuckets buckets classes)
    (indices : List ℕ) :
    Simulates (Option.Rel Rep) (fun fuel => group.aggregate fuel buckets indices)
      (.ok (Vdf.aggregate classes indices)) := by
  refine .foldl (S := Eq) ?_ (List.forall₂_same.mpr fun _ _ => rfl) .none
  rintro product x index _ hproduct rfl
  have hbucket := hbuckets.get index
  simp only [aggregateBucket]
  generalize (buckets[index]?).join = bucket at hbucket ⊢
  generalize (classes[index]?).join = y at hbucket ⊢
  cases hbucket with
  | none => exact .pure hproduct
  | some hform =>
    exact (group.accumulate_simulates threshold hdiscriminant hthreshold hproduct hform).bindOk
      fun _ h => .pure h

lemma power_simulates {form : FormLimbs} {x : FormClass D} (hform : Rep form x) {exponent : ℕ}
    (hword : exponent < base) :
    Simulates Rep (fun fuel => group.power fuel form exponent) (.ok (x ^ exponent)) := by
  simp only [power, hdiscriminant, hthreshold]
  exact .ofTurns (FormLimbs.fastPow_represents hform threshold group.scratch hword)
    fun _ h => h.represents

lemma composeAggregate_simulates {proof : FormLimbs} {x : FormClass D} (hproof : Rep proof x)
    {exponent : ℕ} (hword : exponent < base) {product : Option FormLimbs}
    {y : Option (FormClass D)} (hproduct : Option.Rel Rep product y) :
    Simulates Rep (fun fuel => group.composeAggregate fuel proof exponent product)
      (.ok (Vdf.composeAggregate x exponent y)) := by
  cases hproduct with
  | none => exact .pure hproof
  | some hform =>
    simp only [composeAggregate, Vdf.composeAggregate]
    by_cases hzero : exponent ≠ 0
    · simp only [if_pos hzero]
      exact (group.power_simulates threshold hdiscriminant hthreshold hform hword).bindOk
        fun _ h => group.compose_simulates threshold hdiscriminant hthreshold hproof h
    · simp only [if_neg hzero]
      exact .pure hproof

/-- The exponents of the rows and of the columns are words. -/
lemma composeBuckets_simulates {buckets : List (Option FormLimbs)}
    {classes : List (Option (FormClass D))} (hbuckets : SameBuckets buckets classes)
    {rowCount columnCount : ℕ} (hcolumns : 0 < columnCount) (hrows : 0 < rowCount)
    (hword : rowCount * columnCount ≤ base) {proof : FormLimbs} {x : FormClass D}
    (hproof : Rep proof x) :
    Simulates Rep (fun fuel => group.composeBuckets fuel buckets rowCount columnCount proof)
      (.ok (Vdf.composeBuckets classes rowCount columnCount x)) := by
  have hrange : ∀ count, List.Forall₂ (fun i j => i = j ∧ i < count) (List.range count)
      (List.range count) := fun count =>
    List.forall₂_same.mpr fun _ hi => ⟨rfl, List.mem_range.mp hi⟩
  have hrowLoop := Simulates.foldl (R := Rep (D := D))
    (f := fun fuel => group.composeRow fuel buckets columnCount)
    (g := fun proof b1 => Vdf.composeAggregate proof (b1 * columnCount)
      (Vdf.aggregate classes ((List.range columnCount).map fun b0 => b1 * columnCount + b0)))
    (by
      rintro form y b1 _ hform ⟨rfl, hb1⟩
      have hb1' : b1 * columnCount < base :=
        ((Nat.mul_lt_mul_right hcolumns).mpr hb1).trans_le hword
      exact (group.aggregate_simulates threshold hdiscriminant hthreshold hbuckets _).bindOk
        fun _ h => group.composeAggregate_simulates threshold hdiscriminant hthreshold hform
          hb1' h) (hrange rowCount) hproof
  refine hrowLoop.bindOk fun form hform => ?_
  refine Simulates.foldl ?_ (hrange columnCount) hform
  rintro form y b0 _ hform ⟨rfl, hb0⟩
  have hb0' : b0 < base :=
    hb0.trans_le ((Nat.le_mul_of_pos_left columnCount hrows).trans hword)
  exact (group.aggregate_simulates threshold hdiscriminant hthreshold hbuckets _).bindOk
    fun _ h => group.composeAggregate_simulates threshold hdiscriminant hthreshold hform hb0' h

/-- One pass of the checkpoint prover. -/
lemma checkpointPass_simulates {checkpoints : List FormLimbs} {classes : List (FormClass D)}
    (hcheckpoints : List.Forall₂ Rep checkpoints classes) (rounds : ℕ)
    (parameters : ProofParameters) (challenge step : ℕ) {proof : FormLimbs} {x : FormClass D}
    (hproof : Rep proof x) (j : ℕ) :
    Simulates Rep
      (fun fuel => group.checkpointPass fuel checkpoints rounds parameters challenge step proof j)
      (Vdf.checkpointPass classes rounds parameters challenge step x j) := by
  have hzip : ∀ blocks : List (Option ℕ), List.Forall₂
      (fun (entry : FormLimbs × Option ℕ) (entry' : FormClass D × Option ℕ) =>
        Rep entry.1 entry'.1 ∧ entry.2 = entry'.2)
      (checkpoints.zip blocks) (classes.zip blocks) := by
    clear hproof
    intro blocks
    induction hcheckpoints generalizing blocks with
    | nil => exact .nil
    | cons head _ ih =>
      cases blocks with
      | nil => exact .nil
      | cons block blocks => exact .cons ⟨head, rfl⟩ (ih blocks)
  have hshift : ∀ {k window : ℕ}, shiftOne k = .ok window → k < 64 ∧ window = 2 ^ k := by
    intro k window h
    unfold shiftOne at h
    split at h
    · exact ⟨by assumption, (Except.ok.inj h).symm⟩
    · cases h
  have hbase : base = 2 ^ 64 := rfl
  refine (Simulates.ofResult (shiftOne parameters.k)).bind ?_
  rintro window _ hwindow rfl
  obtain ⟨hk, rfl⟩ := hshift hwindow
  refine (group.power_simulates threshold hdiscriminant hthreshold hproof
    (hbase ▸ Nat.pow_lt_pow_right one_lt_two hk)).bindOk fun form hform => ?_
  refine (Simulates.ofResult (getBlocksForPass j parameters rounds challenge step)).bind ?_
  rintro blocks _ - rfl
  have hfill := Simulates.foldl (R := SameBuckets (D := D))
    (f := fun fuel => group.fillBucket fuel) (g := Vdf.fillBucket)
    (by
      intro buckets classes entry entry' hbuckets hentry
      exact group.fillBucket_simulates threshold hdiscriminant hthreshold hbuckets hentry)
    (hzip blocks) (sameBuckets_replicate parameters.bucketCount)
  refine hfill.bindOk fun buckets hbuckets => ?_
  refine (Simulates.ofResult (shiftOne (parameters.k / 2))).bind ?_
  rintro rowCount _ hrow rfl
  refine (Simulates.ofResult (shiftOne (parameters.k - parameters.k / 2))).bind ?_
  rintro columnCount _ hcolumn rfl
  obtain ⟨-, rfl⟩ := hshift hrow
  obtain ⟨-, rfl⟩ := hshift hcolumn
  refine group.composeBuckets_simulates threshold hdiscriminant hthreshold hbuckets
    (Nat.two_pow_pos _) (Nat.two_pow_pos _) ?_ hform
  rw [hbase, ← pow_add]
  exact Nat.pow_le_pow_right two_pos (by omega)

lemma generateCheckpointProof_simulates {checkpoints : List FormLimbs}
    {classes : List (FormClass D)} (hcheckpoints : List.Forall₂ Rep checkpoints classes)
    (challenge rounds : ℕ) (parameters : ProofParameters) (generator output : FormClass D) :
    Simulates Rep
      (fun fuel => group.generateCheckpointProof fuel challenge checkpoints rounds parameters)
      (Vdf.generateCheckpointProof (fun _ _ => .ok challenge) generator output classes rounds
        parameters) := by
  refine (Simulates.ofResult (shiftOne (parameters.k / 2))).bind ?_
  rintro rowCount _ - rfl
  refine (Simulates.ofResult (shiftOne (parameters.k - parameters.k / 2))).bind ?_
  rintro columnCount _ - rfl
  refine (Simulates.ofResult _).bind ?_
  rintro workPerPass _ - rfl
  refine (Simulates.ofResult _).bind ?_
  rintro work _ - rfl
  refine (group.one_simulates hdiscriminant).bindOk fun form hform => ?_
  refine (Simulates.ofResult _).bind ?_
  rintro exponent _ - rfl
  refine Simulates.andThen (R := Rep) (Simulates.foldlM (S := Eq) ?_
    (List.forall₂_same.mpr fun _ _ => rfl) hform) fun form x h =>
      group.reduce_simulates h
  rintro proof x j _ hproof rfl
  exact group.checkpointPass_simulates threshold hdiscriminant hthreshold hcheckpoints rounds
    parameters challenge _ hproof j

lemma square_simulates {form : FormLimbs} {x : FormClass D} (hform : Rep form x) :
    Simulates Rep (fun fuel => group.square fuel form) (.ok (x * x)) := by
  simp only [square, hdiscriminant, hthreshold]
  exact .ofTurns (FormLimbs.nuduplReduce_represents hform threshold group.scratch)
    fun _ h => h.represents

lemma multiply_simulates {left right : FormLimbs} {x y : FormClass D} (hleft : Rep left x)
    (hright : Rep right y) :
    Simulates Rep (fun fuel => group.multiply fuel left right) (.ok (x * y)) := by
  simp only [multiply, hdiscriminant, hthreshold]
  exact .ofTurns (FormLimbs.nucompReduce_represents hleft hright threshold group.scratch)
    fun _ h => h.1

/-! ## The two provers -/

/-- The outputs of a prover: the power of the generator, and its power by the quotient of the power
of two by the challenge that is drawn for the output. -/
def Proved (getB : FormLimbs → FormLimbs → Result ℕ) (generator : FormLimbs) (x : FormClass D)
    (rounds : ℕ) (result : FormLimbs × FormLimbs) : Prop :=
  ∃ challenge, getB generator result.1 = .ok challenge ∧
    Represents (x ^ 2 ^ rounds) result.1 ∧ Represents (x ^ (2 ^ rounds / challenge)) result.2

/-- How a prover may fail: by the fault of a division, or because no challenge is drawn. -/
def Refused (getB : FormLimbs → FormLimbs → Result ℕ) (generator : FormLimbs)
    (fault : ProverFault) : Prop :=
  fault = .panic .indexOutOfRange ∨
    ∃ output error, getB generator output = .error error ∧ fault = .returned error

lemma squares_simulates {generator : FormLimbs} {x : FormClass D} (hgenerator : Rep generator x)
    (stride rounds : ℕ) :
    Simulates (fun state state' => Rep state.1 state'.1 ∧ List.Forall₂ Rep state.2 state'.2)
      (fun fuel => (List.range rounds).foldlM (group.squareWithCheckpoint fuel stride)
        (generator, []))
      (.ok ((List.range rounds).foldl (Vdf.squareWithCheckpoint stride) (x, []))) := by
  refine Simulates.foldl (S := Eq) ?_ (List.forall₂_same.mpr fun _ _ => rfl) ⟨hgenerator, .nil⟩
  rintro ⟨output, checkpoints⟩ ⟨y, ys⟩ completed _ ⟨houtput, hcheckpoints⟩ rfl
  refine (group.square_simulates threshold hdiscriminant hthreshold houtput).bindOk
    fun form hform => .pure ⟨hform, ?_⟩
  simp only [Vdf.squareWithCheckpoint]
  split
  · exact List.rel_append hcheckpoints (.cons houtput .nil)
  · exact hcheckpoints

/-- Where its integers fit and the challenges are larger than its window,
the checkpoint prover ends with the powers of the class of its generator, or refuses. -/
lemma proveCheckpointed_represents {getB : FormLimbs → FormLimbs → Result ℕ}
    {parameters : ProofParameters} {rounds : ℕ} (consistent : parameters.For rounds)
    (fits : parameters.Fits rounds) (some_rounds : 0 < rounds)
    (large : ∀ left right challenge, getB left right = .ok challenge →
      2 ^ parameters.k < challenge)
    {generator : FormLimbs} {x : FormClass D} (hgenerator : Represents x generator) :
    Settles (Refused getB generator) (Proved getB generator x rounds) fun fuel =>
      group.proveCheckpointed fuel getB generator rounds parameters := by
  have hclass : ∀ challenge, 2 ^ parameters.k < challenge → ∃ stride,
      (orError "checkpoint stride overflow" (checkedMul parameters.k parameters.l))
        = .ok stride ∧
      ((List.range rounds).foldl (Vdf.squareWithCheckpoint stride) (x, [])).1
        = x ^ 2 ^ rounds ∧
      Vdf.generateCheckpointProof (fun _ _ => .ok challenge) x
          ((List.range rounds).foldl (Vdf.squareWithCheckpoint stride) (x, [])).1
          ((List.range rounds).foldl (Vdf.squareWithCheckpoint stride) (x, [])).2 rounds parameters
        = .ok (x ^ (2 ^ rounds / challenge)) := by
    intro challenge hlarge
    have hproved : Vdf.proveCheckpointed (fun _ _ => .ok challenge) x rounds parameters
        = .ok (x ^ 2 ^ rounds, x ^ (2 ^ rounds / challenge)) :=
      proveCheckpointed_eq fits consistent some_rounds hlarge rfl
    obtain ⟨stride, hstride, proof, hproof, heq⟩ := by
      simpa only [Vdf.proveCheckpointed, Outcome.bind_eq_ok, Outcome.pure_eq_ok] using hproved
    obtain ⟨hfirst, hsecond⟩ := Prod.mk.inj heq
    exact ⟨stride, hstride, hfirst, by rw [hproof, hsecond]⟩
  obtain ⟨stride, hstride, houtput, -⟩ := hclass _ (Nat.lt_succ_self (2 ^ parameters.k))
  simp only [proveCheckpointed, hstride]
  change Settles _ _ fun fuel => (List.range rounds).foldlM
    (group.squareWithCheckpoint fuel stride) (generator, []) >>= _
  refine ((group.squares_simulates threshold hdiscriminant hthreshold hgenerator stride
    rounds).settles (.inl rfl)).bind ?_
  rintro ⟨output, checkpoints⟩ ⟨hrep, hcheckpoints⟩
  rw [houtput] at hrep
  dsimp only at hrep hcheckpoints ⊢
  cases hdrawn : getB generator output with
  | error error => exact ⟨.error (.returned error), .inr ⟨output, error, hdrawn, rfl⟩, 0,
      fun _ _ => rfl⟩
  | ok challenge =>
    obtain ⟨stride', hstride', -, hproof⟩ := hclass challenge (large _ _ _ hdrawn)
    obtain rfl : stride = stride' := Except.ok.inj (hstride.symm.trans hstride')
    have hsimulates := group.generateCheckpointProof_simulates threshold hdiscriminant hthreshold
      hcheckpoints challenge rounds parameters x
      ((List.range rounds).foldl (Vdf.squareWithCheckpoint stride) (x, [])).1
    rw [hproof] at hsimulates
    change Settles _ _ fun fuel => group.generateCheckpointProof fuel challenge checkpoints rounds
      parameters >>= _
    exact (hsimulates.settles (.inl rfl)).bind fun proof hrep' =>
      .pure ⟨challenge, hdrawn, hrep, hrep'⟩

/-- For challenges above one the constant-memory prover ends with the powers of the class of its
generator, or refuses. -/
lemma proveConstantMemory_represents {getB : FormLimbs → FormLimbs → Result ℕ} (rounds : ℕ)
    (large : ∀ left right challenge, getB left right = .ok challenge → 1 < challenge)
    {generator : FormLimbs} {x : FormClass D} (hgenerator : Represents x generator) :
    Settles (Refused getB generator) (Proved getB generator x rounds) fun fuel =>
      group.proveConstantMemory fuel getB generator rounds := by
  have hsquares : Simulates Rep (fun fuel =>
      (List.range rounds).foldlM (fun output _ => group.square fuel output) generator)
      (.ok (x ^ 2 ^ rounds)) := by
    rw [← square_fold]
    refine Simulates.foldl (S := Eq) ?_ (List.forall₂_same.mpr fun _ _ => rfl) hgenerator
    rintro form y _ _ hform -
    exact group.square_simulates threshold hdiscriminant hthreshold hform
  refine (hsquares.settles (.inl rfl)).bind fun output hrep => ?_
  cases hdrawn : getB generator output with
  | error error => exact ⟨.error (.returned error), .inr ⟨output, error, hdrawn, rfl⟩, 0,
      fun _ _ => rfl⟩
  | ok challenge =>
    change Settles _ _ fun fuel => group.one >>= _
    refine ((group.one_simulates hdiscriminant).settles (.inl rfl)).bind fun identity hone => ?_
    have hdivided : Simulates (fun state state' => Rep state.1 state'.1 ∧ state.2 = state'.2)
        (fun fuel => (List.range rounds).foldlM
          (fun state _ => group.divideRound fuel generator challenge state)
          (identity, 1 % challenge))
        (.ok (x ^ (2 ^ rounds / challenge), 2 ^ rounds % challenge)) := by
      rw [← divide_rounds (large _ _ _ hdrawn)]
      refine Simulates.foldl (S := Eq) ?_ (List.forall₂_same.mpr fun _ _ => rfl) ⟨hone, rfl⟩
      rintro ⟨proof, remainder⟩ ⟨y, _⟩ _ _ ⟨hproof, rfl⟩ -
      simp only [divideRound, Vdf.divideRound]
      refine (group.square_simulates threshold hdiscriminant hthreshold hproof).bindOk
        fun squared hsquared => ?_
      by_cases hcarry : challenge ≤ remainder * 2
      · simp only [if_pos hcarry]
        exact (group.multiply_simulates threshold hdiscriminant hthreshold hsquared
          hgenerator).bindOk fun _ h => .pure ⟨h, rfl⟩
      · simp only [if_neg hcarry]
        exact .pure ⟨hsquared, rfl⟩
    exact (hdivided.settles (.inl rfl)).bind fun divided h => .pure ⟨challenge, hdrawn, hrep, h.1⟩

/-- **The prover.** For up to two to the 53 rounds and challenges above the largest number of
buckets, whatever window is estimated and whatever memory it is given, the prover ends with the
powers of the class of its generator, or refuses. -/
theorem prove_represents {getB : FormLimbs → FormLimbs → Result ℕ} {rounds k l : ℕ}
    (some_rounds : 0 < rounds) (few : rounds < 2 ^ 53) (window : 0 < k) (stride : 0 < l)
    (modest : l < 2 ^ 53)
    (large : ∀ left right challenge, getB left right = .ok challenge → maxBuckets < challenge)
    {generator : FormLimbs} {x : FormClass D} (hgenerator : Represents x generator)
    (memoryBudgetBytes : ℕ) :
    Settles (Refused getB generator) (Proved getB generator x rounds) fun fuel =>
      group.prove fuel getB generator rounds k l memoryBudgetBytes := by
  have hconstant : Settles (Refused getB generator) (Proved getB generator x rounds) fun fuel =>
      group.proveConstantMemory fuel getB generator rounds :=
    group.proveConstantMemory_represents threshold hdiscriminant hthreshold rounds
      (fun left right challenge hdrawn => (by decide : 1 < maxBuckets).trans
        (large left right challenge hdrawn)) hgenerator
  simp only [prove]
  by_cases hmemory : checkpointLimitForMemoryBudget memoryBudgetBytes = 0
  · simpa only [if_pos hmemory] using hconstant
  · simp only [if_neg hmemory]
    split
    · exact hconstant
    · rename_i hcaps
      obtain ⟨-, hbuckets⟩ := not_or.mp hcaps
      obtain ⟨hwindow, consistent, hstride⟩ := ProofParameters.forRounds_fit_for window stride
        modest few
        (checkpointLimitForMemoryBudget memoryBudgetBytes) (not_lt.mp hbuckets)
      refine group.proveCheckpointed_represents threshold hdiscriminant hthreshold consistent
        (consistent.fits hwindow hstride few) some_rounds ?_ hgenerator
      intro left right challenge hdrawn
      exact (consistent.buckets ▸ not_lt.mp hbuckets).trans_lt (large left right challenge hdrawn)

end ClassGroup

end Prover

end Vdf

end Iuna

namespace Iuna.Toy

open Vdf Vdf.LimbInt Fueled

open BinaryForm (FormClass)

/-- The limbs of the class group of twenty-three. -/
def groupOfTwentyThree : ClassGroup := ⟨ofInt twentyThree.value, ofInt (2 : ℕ), .default⟩

/-- Five rounds, with memory for eight checkpoints. -/
theorem prove_represents_fiveRounds :
    Settles (ClassGroup.Refused (fun _ _ => .ok 65537) (.ofForm unequal.form))
      (ClassGroup.Proved (fun _ _ => .ok 65537) (.ofForm unequal.form) (FormClass.mk unequal) 5)
      fun fuel => groupOfTwentyThree.prove fuel (fun _ _ => .ok 65537) (.ofForm unequal.form) 5 2 2
        (checkpointWorkspaceBytes + 8 * checkpointBudgetBytes) := by
  refine groupOfTwentyThree.prove_represents 2 rfl rfl (by decide) (by decide) (by decide)
    (by decide) (by decide) ?_ unequal_reduced.represents _
  intro left right challenge hdrawn
  rw [← Except.ok.inj hdrawn]
  decide

end Iuna.Toy
