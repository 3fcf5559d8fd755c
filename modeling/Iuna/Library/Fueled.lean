import Mathlib

/-!
# Computations with fuel

A computation of `ExceptT ε Option` that takes fuel ends with a value or an error, or runs out of
fuel.  `Settles bad post run` says that from some fuel on it has one outcome, an error of `bad` or
a value of `post`; the rules below follow the steps of a computation.
-/

namespace Fueled

variable {ε α β : Type} {bad : ε → Prop}

/-- An outcome: an error of `bad`, or a value of `post`. -/
def Holds (bad : ε → Prop) (post : α → Prop) : Except ε α → Prop
  | .error e => bad e
  | .ok a => post a

/-- From some fuel on there is one outcome, and it holds. -/
def Settles (bad : ε → Prop) (post : α → Prop) (run : ℕ → ExceptT ε Option α) : Prop :=
  ∃ outcome, Holds bad post outcome ∧ ∃ enough, ∀ fuel, enough ≤ fuel →
    run fuel = ExceptT.mk (some outcome)

/-! ## Outcomes -/

lemma Holds.mono {post post' : α → Prop} {x : Except ε α} (h : Holds bad post x)
    (imp : ∀ a, post a → post' a) : Holds bad post' x := by
  cases x with
  | error e => exact h
  | ok a => exact imp a h

lemma Holds.weaken {bad' : ε → Prop} {post : α → Prop} {x : Except ε α} (h : Holds bad post x)
    (imp : ∀ e, bad e → bad' e) : Holds bad' post x := by
  cases x with
  | error e => exact imp e h
  | ok a => exact h

lemma Holds.pure {post : α → Prop} {a : α} (h : post a) :
    Holds bad post (Pure.pure a : Except ε α) := h

lemma Holds.ok {post : α → Prop} {a : α} (h : post a) : Holds bad post (.ok a : Except ε α) := h

lemma Holds.bind {post : α → Prop} {post' : β → Prop} {x : Except ε α} {f : α → Except ε β}
    (h : Holds bad post x) (rest : ∀ a, post a → Holds bad post' (f a)) :
    Holds bad post' (x >>= f) := by
  cases x with
  | error e => exact h
  | ok a => exact rest a h

/-! ## Computations -/

@[simp] lemma liftM_ok_bind (a : α) (f : α → ExceptT ε Option β) :
    (liftM (.ok a : Except ε α) : ExceptT ε Option α) >>= f = f a := rfl

lemma Settles.mono {post post' : α → Prop} {run : ℕ → ExceptT ε Option α}
    (h : Settles bad post run) (imp : ∀ a, post a → post' a) : Settles bad post' run := by
  obtain ⟨outcome, holds, enough, hrun⟩ := h
  exact ⟨outcome, holds.mono imp, enough, hrun⟩

lemma Settles.weaken {bad' : ε → Prop} {post : α → Prop} {run : ℕ → ExceptT ε Option α}
    (h : Settles bad post run) (imp : ∀ e, bad e → bad' e) : Settles bad' post run := by
  obtain ⟨outcome, holds, enough, hrun⟩ := h
  exact ⟨outcome, holds.weaken imp, enough, hrun⟩

/-- A computation without fuel. -/
lemma Settles.lift {post : α → Prop} {x : Except ε α} (h : Holds bad post x) :
    Settles bad post fun _ => (liftM x : ExceptT ε Option α) :=
  ⟨x, h, 0, fun _ _ => rfl⟩

lemma Settles.pure {post : α → Prop} {a : α} (h : post a) :
    Settles bad post fun _ => (Pure.pure a : ExceptT ε Option α) :=
  ⟨.ok a, h, 0, fun _ _ => rfl⟩

lemma Settles.bind {post : α → Prop} {post' : β → Prop} {run : ℕ → ExceptT ε Option α}
    {f : ℕ → α → ExceptT ε Option β} (h : Settles bad post run)
    (rest : ∀ a, post a → Settles bad post' fun fuel => f fuel a) :
    Settles bad post' fun fuel => run fuel >>= f fuel := by
  obtain ⟨outcome, holds, enough, hrun⟩ := h
  cases outcome with
  | error e =>
    refine ⟨.error e, holds, enough, fun fuel hfuel => ?_⟩
    change run fuel >>= f fuel = _
    rw [hrun fuel hfuel]
    rfl
  | ok a =>
    obtain ⟨outcome, holds', enough', hrest⟩ := rest a holds
    refine ⟨outcome, holds', max enough enough', fun fuel hfuel => ?_⟩
    change run fuel >>= f fuel = _
    rw [hrun fuel (le_of_max_le_left hfuel), ← hrest fuel (le_of_max_le_right hfuel)]
    rfl

/-- A computation whose outcome a bound on its fuel fixes. -/
lemma Settles.of_bound {post : α → Prop} {run : ℕ → ExceptT ε Option α} (outcome : Except ε α)
    (holds : Holds bad post outcome) (enough : ℕ)
    (h : ∀ fuel, enough ≤ fuel → run fuel = ExceptT.mk (some outcome)) : Settles bad post run :=
  ⟨outcome, holds, enough, h⟩

end Fueled
