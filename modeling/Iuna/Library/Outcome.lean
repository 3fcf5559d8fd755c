import Mathlib

/-!
# Fallible computations: inversion and loop rules

A fallible function returns `Except ε α`.  What a caller needs from a successful call is always
the same: which of its guards held, which intermediate values it obtained, and what a loop over
a list preserved.  This module states these facts once, for arbitrary errors and values.

* `bind_eq_ok`, `map_eq_ok`, `bailIf_eq_ok`, `ofOption_eq_ok` invert one step of a computation,
  `error_of_bind` a step that failed.
* `foldlM_prefix` is the loop rule: what one round preserves, a whole successful loop preserves.
* `forM_eq_ok` says that a checking loop succeeds exactly when every check does.
-/

namespace Outcome

universe u v

variable {ε : Type u} {α β σ τ : Type v}

/-! ## One step -/

/-- The check `if condition { bail!(error) }`. -/
def bailIf (condition : Prop) [Decidable condition] (error : ε) : Except ε PUnit.{v + 1} :=
  if condition then .error error else .ok ⟨⟩

/-- An optional value with the error reported when it is absent. -/
def ofOption (error : ε) : Option α → Except ε α
  | none => .error error
  | some a => .ok a

/-- Replace the error of a failed computation, as a context wrapper does. -/
def mapErr (f : ε → ε) : Except ε α → Except ε α
  | .error e => .error (f e)
  | .ok a => .ok a

@[simp] lemma bind_eq_ok {x : Except ε α} {f : α → Except ε β} {b : β} :
    x >>= f = .ok b ↔ ∃ a, x = .ok a ∧ f a = .ok b := by
  cases x with
  | error e => simp [bind, Except.bind]
  | ok a => simp [bind, Except.bind]

lemma error_of_bind {x : Except ε α} {f : α → Except ε β} {e : ε} (h : x >>= f = .error e) :
    x = .error e ∨ ∃ a, x = .ok a ∧ f a = .error e := by
  cases x with
  | error error => exact .inl (congrArg Except.error (Except.error.inj h))
  | ok a => exact .inr ⟨a, rfl, h⟩

@[simp] lemma map_eq_ok {x : Except ε α} {f : α → β} {b : β} :
    f <$> x = .ok b ↔ ∃ a, x = .ok a ∧ f a = b := by
  cases x with
  | error e => simp [Functor.map, Except.map]
  | ok a => simp [Functor.map, Except.map]

@[simp] lemma pure_eq_ok {a b : α} : (pure a : Except ε α) = .ok b ↔ a = b := by
  simp [pure, Except.pure]

@[simp] lemma throw_ne_ok {e : ε} {a : α} : (throw e : Except ε α) = .ok a ↔ False := by
  simp [throw, throwThe, MonadExceptOf.throw]

@[simp] lemma bailIf_eq_ok {c : Prop} [Decidable c] {e : ε} {u : PUnit.{v + 1}} :
    bailIf c e = .ok u ↔ ¬ c := by
  unfold bailIf
  by_cases h : c <;> simp [h]

@[simp] lemma ofOption_eq_ok {e : ε} {o : Option α} {a : α} :
    ofOption e o = .ok a ↔ o = some a := by
  cases o <;> simp [ofOption]

@[simp] lemma mapErr_eq_ok {f : ε → ε} {x : Except ε α} {a : α} :
    mapErr f x = .ok a ↔ x = .ok a := by
  cases x <;> simp [mapErr]

/-- Whether a computation succeeds. -/
def succeeds : Except ε α → Bool
  | .ok _ => true
  | .error _ => false

@[simp] lemma succeeds_iff {x : Except ε α} : succeeds x = true ↔ ∃ a, x = .ok a := by
  cases x <;> simp [succeeds]

/-! ## Loops -/

@[simp] lemma foldlM_nil_eq_ok {f : σ → τ → Except ε σ} {s s' : σ} :
    [].foldlM f s = .ok s' ↔ s = s' := by
  simp [List.foldlM_nil]

@[simp] lemma foldlM_cons_eq_ok {f : σ → τ → Except ε σ} {x : τ} {xs : List τ} {s s' : σ} :
    (x :: xs).foldlM f s = .ok s' ↔ ∃ m, f s x = .ok m ∧ xs.foldlM f m = .ok s' := by
  simp [List.foldlM_cons]

/-- The loop rule with the consumed prefix in view: a relation between the elements already
processed and the state reached holds after the loop for the whole list. -/
theorem foldlM_prefix {f : σ → τ → Except ε σ} (R : List τ → σ → Prop) {xs : List τ} {s s' : σ}
    (start : R [] s)
    (step : ∀ done x s s', x ∈ xs → R done s → f s x = .ok s' → R (done ++ [x]) s')
    (run : xs.foldlM f s = .ok s') : R xs s' := by
  suffices general : ∀ (todo done : List τ) (s : σ), (∀ x ∈ todo, x ∈ xs) → R done s →
      todo.foldlM f s = .ok s' → R (done ++ todo) s' by
    simpa using general xs [] s (fun _ h => h) start run
  intro todo
  induction todo with
  | nil =>
    intro done s _ hR hrun
    simpa [← foldlM_nil_eq_ok.mp hrun] using hR
  | cons x todo ih =>
    intro done s hsub hR hrun
    obtain ⟨m, hm, hrest⟩ := foldlM_cons_eq_ok.mp hrun
    have hstep := step done x s m (hsub x List.mem_cons_self) hR hm
    simpa using ih (done ++ [x]) m (fun y hy => hsub y (List.mem_cons_of_mem _ hy)) hstep hrest

/-- A checking loop succeeds exactly when every element passes its check. -/
@[simp] lemma forM_eq_ok {f : τ → Except ε PUnit.{v + 1}} {xs : List τ} {u : PUnit.{v + 1}} :
    forM xs f = .ok u ↔ ∀ x ∈ xs, f x = .ok ⟨⟩ := by
  induction xs with
  | nil => simp [pure, Except.pure]
  | cons x xs ih =>
    simp only [List.forM_cons, bind_eq_ok, ih, List.mem_cons, forall_eq_or_imp]
    constructor
    · rintro ⟨_, hx, hxs⟩
      exact ⟨hx, hxs⟩
    · rintro ⟨hx, hxs⟩
      exact ⟨_, hx, hxs⟩

/-- Each element of the second of two paired lists has a partner in the first. -/
lemma exists_partner {R : τ → α → Prop} {xs : List τ} {ys : List α} (h : List.Forall₂ R xs ys)
    {y : α} (hy : y ∈ ys) : ∃ x ∈ xs, R x y := by
  induction h with
  | nil => cases hy
  | cons head _ ih =>
    rcases List.mem_cons.mp hy with rfl | hy
    · exact ⟨_, List.mem_cons_self, head⟩
    · obtain ⟨x, hx, hR⟩ := ih hy
      exact ⟨x, List.mem_cons_of_mem _ hx, hR⟩

/-- Each element of the first of two paired lists has a partner in the second. -/
lemma exists_image {R : τ → α → Prop} {xs : List τ} {ys : List α} (h : List.Forall₂ R xs ys)
    {x : τ} (hx : x ∈ xs) : ∃ y ∈ ys, R x y :=
  exists_partner h.flip hx

/-- A successful traversal pairs every element with its image, in order. -/
lemma mapM_eq_ok {f : τ → Except ε α} {xs : List τ} {ys : List α} :
    xs.mapM f = .ok ys ↔ List.Forall₂ (fun x y => f x = .ok y) xs ys := by
  induction xs generalizing ys with
  | nil =>
    simp only [List.mapM_nil, pure_eq_ok, List.forall₂_nil_left_iff]
    exact eq_comm
  | cons x xs ih =>
    simp only [List.mapM_cons, bind_eq_ok, pure_eq_ok, ih]
    constructor
    · rintro ⟨a, ha, bs, hbs, rfl⟩
      exact .cons ha hbs
    · intro h
      cases h with
      | cons ha hbs => exact ⟨_, ha, _, hbs, rfl⟩

end Outcome
