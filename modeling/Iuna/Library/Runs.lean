import Mathlib

/-!
# Labelled runs

A labelled transition relation `step s a t` says that the system can go from `s` to `t` while
doing `a`.  `Run step s labels t` is a finite run with its labels in order.  The rules below are
the ones every state-machine argument needs: runs compose and split along their labels
(`Run.append`, `run_append_iff`), an invariant of one step is an invariant of every run
(`Run.invariant`), and a relation between the labels done so far and the state reached is
carried along a run (`Run.track`).
-/

namespace Runs

universe u v

variable {σ : Type u} {α : Type v}

/-- A finite run, with the labels of its steps in order. -/
inductive Run (step : σ → α → σ → Prop) : σ → List α → σ → Prop
  | nil (s : σ) : Run step s [] s
  | cons {s m t : σ} {a : α} {labels : List α} (head : step s a m) (tail : Run step m labels t) :
      Run step s (a :: labels) t

variable {step : σ → α → σ → Prop} {s m t : σ} {a : α} {labels labels' : List α}

@[simp] lemma run_nil_iff : Run step s [] t ↔ s = t := by
  constructor
  · rintro ⟨⟩
    rfl
  · rintro rfl
    exact .nil s

@[simp] lemma run_cons_iff : Run step s (a :: labels) t ↔ ∃ m, step s a m ∧ Run step m labels t := by
  constructor
  · rintro ⟨⟩
    exact ⟨_, ‹_›, ‹_›⟩
  · rintro ⟨m, head, tail⟩
    exact .cons head tail

/-- Runs split wherever their labels do. -/
lemma run_append_iff :
    Run step s (labels ++ labels') t ↔ ∃ m, Run step s labels m ∧ Run step m labels' t := by
  induction labels generalizing s with
  | nil => simp
  | cons a labels ih =>
    simp only [List.cons_append, run_cons_iff, ih]
    constructor
    · rintro ⟨x, head, m, first, second⟩
      exact ⟨m, ⟨x, head, first⟩, second⟩
    · rintro ⟨m, ⟨x, head, first⟩, second⟩
      exact ⟨x, head, m, first, second⟩

lemma Run.append (first : Run step s labels m) (second : Run step m labels' t) :
    Run step s (labels ++ labels') t :=
  run_append_iff.mpr ⟨m, first, second⟩

lemma Run.snoc (first : Run step s labels m) (last : step m a t) :
    Run step s (labels ++ [a]) t :=
  first.append (.cons last (.nil t))

/-- Every label of a run is the label of one of its steps. -/
lemma Run.step_of_mem (run : Run step s labels t) (h : a ∈ labels) :
    ∃ before after, step before a after := by
  induction run with
  | nil => simp at h
  | cons head _ ih =>
    rcases List.mem_cons.mp h with rfl | h
    · exact ⟨_, _, head⟩
    · exact ih h

/-- What one step preserves, every run preserves. -/
theorem Run.invariant (I : σ → Prop) (preserve : ∀ s a t, I s → step s a t → I t)
    (run : Run step s labels t) (start : I s) : I t := by
  induction run with
  | nil => exact start
  | cons head _ ih => exact ih (preserve _ _ _ start head)

/-- A relation between the labels done so far and the state reached, extended by one step at a
time, holds of the whole run. -/
theorem Run.track (R : List α → σ → Prop)
    (extend : ∀ done s a t, R done s → step s a t → R (done ++ [a]) t)
    (run : Run step s labels t) (start : R [] s) : R labels t := by
  suffices general : ∀ done, R done s → R (done ++ labels) t by simpa using general [] start
  clear start
  induction run with
  | nil => intro done h; simpa using h
  | cons head _ ih =>
    intro done h
    simpa using ih (done ++ [_]) (extend _ _ _ _ h head)

/-- Runs of one system are runs of another whose steps contain its steps. -/
lemma Run.mono {step' : σ → α → σ → Prop} (sub : ∀ s a t, step s a t → step' s a t)
    (run : Run step s labels t) : Run step' s labels t := by
  induction run with
  | nil => exact .nil _
  | cons head _ ih => exact .cons (sub _ _ _ head) ih

end Runs
