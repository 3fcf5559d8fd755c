import Iuna.Library.Outcome
import Iuna.Library.Runs

/-!
# Fallible functions on a mutable state

A function that takes `&mut σ` and returns a `Result` either succeeds and leaves a new state, or
fails and leaves whatever it has written so far.  `Mutate ε σ α` is such a function.  As in
`Outcome`, what a caller needs from a successful call is its inversion: `bind_eq_ok` and the
lemmas for the primitive steps; `forM_run` turns a successful loop into a labelled run, so that
the rules for runs apply to it.
-/

/-- A function on `&mut σ`: what it has written stays when it fails. -/
abbrev Mutate (ε σ α : Type) := EStateM ε σ α

namespace Mutate

open Runs

variable {ε σ ρ α β τ : Type}

/-- A fallible computation that does not touch the state. -/
def lift (x : Except ε α) : Mutate ε σ α := fun s =>
  match x with
  | .ok a => .ok a s
  | .error e => .error e s

instance : MonadLift (Except ε) (EStateM ε σ) where
  monadLift x := lift x

/-- Run on a part of a larger state, writing the part back. -/
def zoom (get : ρ → σ) (set : ρ → σ → ρ) (x : Mutate ε σ α) : Mutate ε ρ α := fun r =>
  match x (get r) with
  | .ok a s => .ok a (set r s)
  | .error e s => .error e (set r s)

/-- The result of a run together with the state it leaves. -/
def outcome (x : Mutate ε σ α) (s : σ) : Except ε (α × σ) :=
  match x s with
  | .ok a s' => .ok (a, s')
  | .error e _ => .error e

/-- Whether a run succeeds, with the state it leaves either way. -/
def attempt (x : Mutate ε σ α) (s : σ) : Bool × σ :=
  match x s with
  | .ok _ s' => (true, s')
  | .error _ s' => (false, s')

variable {x : Mutate ε σ α} {f : α → Mutate ε σ β} {s s' : σ} {a a' : α} {b : β}

@[simp] lemma bind_eq_ok :
    (x >>= f) s = .ok b s' ↔ ∃ a m, x s = .ok a m ∧ f a m = .ok b s' := by
  simp only [bind, EStateM.bind]
  cases h : x s with
  | ok a m => simp
  | error e m => simp

@[simp] lemma pure_eq_ok : (pure a : Mutate ε σ α) s = .ok a' s' ↔ a = a' ∧ s = s' := by
  simp [pure, EStateM.pure]

@[simp] lemma map_eq_ok {g : α → β} :
    (g <$> x) s = .ok b s' ↔ ∃ a, x s = .ok a s' ∧ g a = b := by
  simp only [Functor.map, EStateM.map]
  cases h : x s with
  | ok a m => simp; aesop
  | error e m => simp

@[simp] lemma lift_eq_ok {y : Except ε α} :
    (lift y : Mutate ε σ α) s = .ok a s' ↔ y = .ok a ∧ s = s' := by
  cases y <;> simp [lift]

@[simp] lemma liftM_eq_lift {y : Except ε α} : (liftM y : Mutate ε σ α) = lift y := rfl

@[simp] lemma monadLift_eq_lift {y : Except ε α} : (monadLift y : Mutate ε σ α) = lift y := rfl

@[simp] lemma get_eq_ok {r : σ} : (get : Mutate ε σ σ) s = .ok r s' ↔ s = r ∧ s = s' := by
  simp [get, getThe, MonadStateOf.get, EStateM.get]

@[simp] lemma set_eq_ok {r : σ} {u : PUnit} :
    (set r : Mutate ε σ PUnit) s = .ok u s' ↔ r = s' := by
  simp [set, MonadStateOf.set, EStateM.set]

@[simp] lemma modify_eq_ok {g : σ → σ} {u : PUnit} :
    (modify g : Mutate ε σ PUnit) s = .ok u s' ↔ g s = s' := by
  simp [modify, modifyGet, MonadStateOf.modifyGet, EStateM.modifyGet]

@[simp] lemma throw_ne_ok {e : ε} : (throw e : Mutate ε σ α) s = .ok a s' ↔ False := by
  simp [throw, throwThe, MonadExceptOf.throw, EStateM.throw]

/-! The primitive steps in front of a continuation, which is how they occur in a program. -/

@[simp] lemma get_bind_eq_ok {g : σ → Mutate ε σ β} :
    (get >>= g) s = .ok b s' ↔ g s s = .ok b s' := Iff.rfl

@[simp] lemma set_bind_eq_ok {r : σ} {g : PUnit → Mutate ε σ β} :
    (set r >>= g) s = .ok b s' ↔ g ⟨⟩ r = .ok b s' := Iff.rfl

@[simp] lemma modify_bind_eq_ok {m : σ → σ} {g : PUnit → Mutate ε σ β} :
    (modify m >>= g) s = .ok b s' ↔ g ⟨⟩ (m s) = .ok b s' := Iff.rfl

@[simp] lemma lift_bind_eq_ok {y : Except ε α} :
    (lift y >>= f) s = .ok b s' ↔ ∃ a, y = .ok a ∧ f a s = .ok b s' := by
  cases y with
  | error e => simp [lift]
  | ok a => simp [lift]

lemma zoom_eq_ok {get : ρ → σ} {set : ρ → σ → ρ} {r r' : ρ} :
    zoom get set x r = .ok a r' ↔ ∃ s', x (get r) = .ok a s' ∧ set r s' = r' := by
  unfold zoom
  cases h : x (get r) with
  | ok a s => simp [eq_comm, and_comm]
  | error e s => simp

@[simp] lemma outcome_eq_ok {v : α × σ} : outcome x s = .ok v ↔ x s = .ok v.1 v.2 := by
  unfold outcome
  cases h : x s with
  | ok a s => simp [Prod.ext_iff]
  | error e s => simp

/-! ## Errors

What a failed run leaves behind: the state of the step that failed. -/

variable {e : ε}

lemma bind_eq_error :
    (x >>= f) s = .error e s' ↔
      x s = .error e s' ∨ ∃ a m, x s = .ok a m ∧ f a m = .error e s' := by
  simp only [bind, EStateM.bind]
  cases h : x s with
  | ok a m => simp
  | error e m => simp

lemma lift_eq_error {y : Except ε α} :
    (lift y : Mutate ε σ α) s = .error e s' ↔ y = .error e ∧ s = s' := by
  cases y <;> simp [lift]

lemma lift_bind_eq_error {y : Except ε α} :
    (lift y >>= f) s = .error e s' ↔
      (y = .error e ∧ s = s') ∨ ∃ a, y = .ok a ∧ f a s = .error e s' := by
  rw [bind_eq_error, lift_eq_error]
  simp only [lift_eq_ok]
  constructor
  · rintro (h | ⟨a, m, ⟨ha, rfl⟩, h⟩)
    · exact .inl h
    · exact .inr ⟨a, ha, h⟩
  · rintro (h | ⟨a, ha, h⟩)
    · exact .inl h
    · exact .inr ⟨a, s, ⟨ha, rfl⟩, h⟩

lemma pure_ne_error : (pure a : Mutate ε σ α) s ≠ .error e s' := by
  simp [pure, EStateM.pure]

lemma modify_ne_error {g : σ → σ} : (modify g : Mutate ε σ PUnit) s ≠ .error e s' := by
  simp [modify, modifyGet, MonadStateOf.modifyGet, EStateM.modifyGet]

lemma get_bind_eq_error {g : σ → Mutate ε σ β} :
    (get >>= g) s = .error e s' ↔ g s s = .error e s' := Iff.rfl

lemma set_bind_eq_error {r : σ} {g : PUnit → Mutate ε σ β} :
    (set r >>= g) s = .error e s' ↔ g ⟨⟩ r = .error e s' := Iff.rfl

lemma modify_bind_eq_error {m : σ → σ} {g : PUnit → Mutate ε σ β} :
    (modify m >>= g) s = .error e s' ↔ g ⟨⟩ (m s) = .error e s' := Iff.rfl

lemma zoom_eq_error {get : ρ → σ} {set : ρ → σ → ρ} {r r' : ρ} :
    zoom get set x r = .error e r' ↔ ∃ s', x (get r) = .error e s' ∧ set r s' = r' := by
  unfold zoom
  cases h : x (get r) with
  | ok a s => simp
  | error e s => simp [eq_comm, and_comm]

/-- The state that an attempt leaves is that of its success or of its failure. -/
lemma attempt_cases (x : Mutate ε σ α) (s : σ) :
    (∃ a s', x s = .ok a s' ∧ attempt x s = (true, s'))
      ∨ ∃ e s', x s = .error e s' ∧ attempt x s = (false, s') := by
  unfold attempt
  cases h : x s with
  | ok a s' => exact .inl ⟨a, s', rfl, rfl⟩
  | error e s' => exact .inr ⟨e, s', rfl, rfl⟩

/-! ## Loops -/

/-- A successful loop is a run of its rounds, labelled with the elements. -/
theorem forM_run {g : τ → Mutate ε σ PUnit} {xs : List τ} {u : PUnit} :
    (forM xs g) s = .ok u s' ↔ Run (fun s x s' => g x s = .ok ⟨⟩ s') s xs s' := by
  induction xs generalizing s with
  | nil => simp
  | cons x xs ih =>
    rw [List.forM_cons, bind_eq_ok, run_cons_iff]
    constructor
    · rintro ⟨_, m, hx, hxs⟩
      exact ⟨m, hx, ih.mp hxs⟩
    · rintro ⟨m, hx, hxs⟩
      exact ⟨⟨⟩, m, hx, ih.mpr hxs⟩

lemma foldlM_cons_eq_ok {g : α → τ → Mutate ε σ α} {x : τ} {xs : List τ} :
    ((x :: xs).foldlM g a) s = .ok a' s' ↔
      ∃ b m, g a x s = .ok b m ∧ (xs.foldlM g b) m = .ok a' s' := by
  rw [List.foldlM_cons, bind_eq_ok]

/-- A successful loop with local variables is a run on the variables and the state together. -/
theorem foldlM_run {g : α → τ → Mutate ε σ α} {xs : List τ} :
    (xs.foldlM g a) s = .ok a' s' ↔
      Run (fun before x after => g before.1 x before.2 = .ok after.1 after.2) (a, s) xs
        (a', s') := by
  induction xs generalizing a s with
  | nil => simp [List.foldlM_nil]
  | cons x xs ih =>
    rw [foldlM_cons_eq_ok, run_cons_iff]
    constructor
    · rintro ⟨b, m, hx, hxs⟩
      exact ⟨(b, m), hx, ih.mp hxs⟩
    · rintro ⟨⟨b, m⟩, hx, hxs⟩
      exact ⟨b, m, hx, ih.mpr hxs⟩

/-- The loop rule: what one round preserves, a successful loop preserves. -/
theorem forM_invariant {g : τ → Mutate ε σ PUnit} (I : σ → Prop) {xs : List τ} {u : PUnit}
    (step : ∀ x ∈ xs, ∀ s s', I s → g x s = .ok ⟨⟩ s' → I s')
    (start : I s) (run : (forM xs g) s = .ok u s') : I s' := by
  induction xs generalizing s with
  | nil => simpa using (show s = s' by simpa using run) ▸ start
  | cons x xs ih =>
    rw [List.forM_cons, bind_eq_ok] at run
    obtain ⟨_, m, hx, hxs⟩ := run
    exact ih (fun y hy => step y (List.mem_cons_of_mem _ hy))
      (step x List.mem_cons_self s m start hx) hxs

end Mutate
