import Iuna.Library.Mutation

/-!
# What a fallible function preserves

A function on `&mut σ` that fails leaves what it has written.  `Preserves I x` says that `I` holds
afterwards in either case, so that it composes without regard to errors.
-/

namespace Mutate

variable {ε σ ρ α β τ : Type} {I : σ → Prop}

/-- The state that a run leaves, whether it succeeds or fails. -/
def after (x : Mutate ε σ α) (s : σ) : σ :=
  match x s with
  | .ok _ s' => s'
  | .error _ s' => s'

/-- `x` leaves `I` intact. -/
def Preserves (I : σ → Prop) (x : Mutate ε σ α) : Prop := ∀ s, I s → I (after x s)

lemma after_of_ok {x : Mutate ε σ α} {s s' : σ} {a : α} (h : x s = .ok a s') : after x s = s' := by
  rw [after, h]

lemma after_of_error {x : Mutate ε σ α} {s s' : σ} {e : ε} (h : x s = .error e s') :
    after x s = s' := by
  rw [after, h]

@[simp] lemma after_get_bind {f : σ → Mutate ε σ β} {s : σ} :
    after (get >>= f) s = after (f s) s := rfl

@[simp] lemma after_modify {g : σ → σ} {s : σ} : after (modify g : Mutate ε σ PUnit) s = g s := rfl

@[simp] lemma after_pure {a : α} {s : σ} : after (pure a : Mutate ε σ α) s = s := rfl

lemma after_lift_bind {x : Except ε α} {a : α} {f : α → Mutate ε σ β} {s : σ} (h : x = .ok a) :
    after ((lift x : Mutate ε σ α) >>= f) s = after (f a) s := by
  subst h
  rfl

lemma after_lift_bind_error {x : Except ε α} {e : ε} {f : α → Mutate ε σ β} {s : σ}
    (h : x = .error e) : after ((lift x : Mutate ε σ α) >>= f) s = s := by
  subst h
  rfl

lemma after_bind_of_ok {x : Mutate ε σ α} {f : α → Mutate ε σ β} {s s' : σ} {a : α}
    (h : x s = .ok a s') : after (x >>= f) s = after (f a) s' := by
  simp only [after, bind, EStateM.bind, h]

lemma after_bind_of_error {x : Mutate ε σ α} {f : α → Mutate ε σ β} {s s' : σ} {e : ε}
    (h : x s = .error e s') : after (x >>= f) s = s' := by
  simp only [after, bind, EStateM.bind, h]

lemma Preserves.of_ok {x : Mutate ε σ α} {s s' : σ} {a : α} (preserves : Preserves I x)
    (h : x s = .ok a s') (hs : I s) : I s' :=
  after_of_ok h ▸ preserves s hs

lemma Preserves.of_error {x : Mutate ε σ α} {s s' : σ} {e : ε} (preserves : Preserves I x)
    (h : x s = .error e s') (hs : I s) : I s' :=
  after_of_error h ▸ preserves s hs

lemma preserves_pure (a : α) : Preserves I (pure a : Mutate ε σ α) := fun _ hs => hs

lemma preserves_lift (x : Except ε α) : Preserves I (lift x : Mutate ε σ α) := by
  intro s hs
  cases x <;> exact hs

lemma preserves_modify {g : σ → σ} (h : ∀ s, I s → I (g s)) :
    Preserves I (modify g : Mutate ε σ PUnit) := h

lemma preserves_set {s' : σ} (h : I s') : Preserves I (set s' : Mutate ε σ PUnit) := fun _ _ => h

/-- Reading the state: the continuation runs on the state that it is given. -/
lemma preserves_get_bind {f : σ → Mutate ε σ β} (h : ∀ s, I s → I (after (f s) s)) :
    Preserves I (get >>= f) := h

lemma preserves_bind {x : Mutate ε σ α} {f : α → Mutate ε σ β} (hx : Preserves I x)
    (hf : ∀ a, Preserves I (f a)) : Preserves I (x >>= f) := by
  intro s hs
  cases hxs : x s with
  | ok a m =>
    rw [after_bind_of_ok hxs]
    exact hf a m (hx.of_ok hxs hs)
  | error e m =>
    rw [after_bind_of_error hxs]
    exact hx.of_error hxs hs

/-- A fallible step in front of a continuation: what it returns may be used. -/
lemma holds_lift_bind {x : Except ε α} {f : α → Mutate ε σ β} {s : σ} (hs : I s)
    (h : ∀ a, x = .ok a → I (after (f a) s)) : I (after ((lift x : Mutate ε σ α) >>= f) s) := by
  cases x with
  | ok a => exact h a rfl
  | error e => exact hs

lemma preserves_ite {c : Prop} [Decidable c] {x y : Mutate ε σ α} (hx : Preserves I x)
    (hy : Preserves I y) : Preserves I (if c then x else y) := by
  split
  · exact hx
  · exact hy

lemma preserves_forM {items : List α} {f : α → Mutate ε σ PUnit}
    (h : ∀ a ∈ items, Preserves I (f a)) : Preserves I (forM items f) := by
  induction items with
  | nil => exact preserves_pure _
  | cons item items ih =>
    rw [List.forall_mem_cons] at h
    rw [List.forM_cons]
    exact preserves_bind h.1 fun _ => ih h.2

/-- A run on a part of the state. -/
lemma preserves_zoom {J : ρ → Prop} {get : ρ → σ} {set : ρ → σ → ρ} {x : Mutate ε σ α}
    (preserves : Preserves I x) (hget : ∀ r, J r → I (get r))
    (hset : ∀ r s, J r → I s → J (set r s)) : Preserves J (zoom get set x) := by
  intro r hr
  have hs := preserves (get r) (hget r hr)
  cases hx : x (get r) with
  | ok a s =>
    have hzoom : after (zoom get set x) r = set r s := by
      simp only [after, zoom, hx]
    rw [hzoom]
    exact hset r s hr (after_of_ok hx ▸ hs)
  | error e s =>
    have hzoom : after (zoom get set x) r = set r s := by
      simp only [after, zoom, hx]
    rw [hzoom]
    exact hset r s hr (after_of_error hx ▸ hs)

end Mutate
