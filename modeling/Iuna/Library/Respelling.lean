import Iuna.Library.Wire

/-!
# Canonical spellings of a table-driven codec

A lenient reader accepts several spellings of one value; a strict reader accepts only the one
that the writer produces.  All three work under a state (the tables of references), which every
part of a format may change.

`Respells s read strict write` says of what `read` accepts in the state `s`: the writer leaves the
same state behind and never needs more bytes, and it reproduces the bytes exactly when `strict`
accepts them.  That a rewritten part is never longer is what makes the notion compose: the parts
of a reproduced sequence line up, so every one of them is reproduced (`Respells.pair`).
-/

namespace Respelling

open Wire (Reader)

universe u

variable {σ α β : Type} {ε : Type}

/-- A reader under a state. -/
abbrev StatefulReader (σ ε : Type) (α : Type) := StateT σ (Reader ε) α

/-- A writer under a state: the bytes appended, and the state afterwards. -/
abbrev StatefulWriter (σ ε : Type) := StateT σ (Except ε) (List UInt8)

/-- `read` accepts `bytes` in the state `s`. -/
abbrev Accepts (read : StatefulReader σ ε α) (s : σ) (bytes : List UInt8) (a : α) (s' : σ)
    (rest : List UInt8) : Prop :=
  read s bytes = .ok ((a, s'), rest)

/-! ## Inversion -/

instance : LawfulMonad (Reader ε) := LawfulMonad.mk' _
  (fun r => by
    funext bytes
    show Reader.bind r _ bytes = r bytes
    unfold Reader.bind
    cases r bytes with
    | error e => rfl
    | ok result => rfl)
  (fun a f => rfl)
  (fun r f g => by
    funext bytes
    show Reader.bind (Reader.bind r f) g bytes = Reader.bind r (fun a => Reader.bind (f a) g) bytes
    unfold Reader.bind
    cases r bytes with
    | error e => rfl
    | ok result => rfl)

lemma read_bind_eq_ok {r : StatefulReader σ ε α} {f : α → StatefulReader σ ε β} {s : σ}
    {bytes : List UInt8} {x : (β × σ) × List UInt8} :
    (r >>= f) s bytes = .ok x ↔
      ∃ a s' rest, Accepts r s bytes a s' rest ∧ f a s' rest = .ok x := by
  show Reader.bind (r s) (fun p => f p.1 p.2) bytes = .ok x ↔ _
  unfold Reader.bind
  cases h : r s bytes with
  | error e => simp [Accepts, h]
  | ok result =>
    obtain ⟨⟨a, s'⟩, rest⟩ := result
    simp [Accepts, h]

lemma read_pure_eq_ok {a : α} {s : σ} {bytes : List UInt8} {x : (α × σ) × List UInt8} :
    (pure a : StatefulReader σ ε α) s bytes = .ok x ↔ x = ((a, s), bytes) := by
  show Except.ok _ = Except.ok x ↔ _
  simp [eq_comm]

lemma read_lift_eq_ok {y : Except ε α} {s : σ} {bytes : List UInt8} {x : (α × σ) × List UInt8} :
    (StateT.lift (Reader.lift y) : StatefulReader σ ε α) s bytes = .ok x ↔
      ∃ a, y = .ok a ∧ x = ((a, s), bytes) := by
  show Reader.bind (Reader.lift y) (fun a => Reader.pure (a, s)) bytes = .ok x ↔ _
  cases y with
  | error e => simp [Reader.bind, Reader.lift]
  | ok a => simp [Reader.bind, Reader.lift, Reader.pure, eq_comm]

lemma write_bind_eq_ok {w : StateT σ (Except ε) α} {f : α → StateT σ (Except ε) β} {s : σ}
    {x : β × σ} :
    (w >>= f) s = .ok x ↔ ∃ a s', w s = .ok (a, s') ∧ f a s' = .ok x := by
  show (w s >>= fun p => f p.1 p.2) = .ok x ↔ _
  simp

lemma write_pure_eq_ok {a : α} {s : σ} {x : α × σ} :
    (pure a : StateT σ (Except ε) α) s = .ok x ↔ x = (a, s) := by
  show Except.ok _ = Except.ok x ↔ _
  simp [eq_comm]

lemma accepts_pure {a b : α} {s s' : σ} {bytes rest : List UInt8} :
    Accepts (pure a : StatefulReader σ ε α) s bytes b s' rest ↔ (b = a ∧ s' = s) ∧ rest = bytes := by
  rw [Accepts, read_pure_eq_ok, Prod.mk.injEq, Prod.mk.injEq]

lemma writes_pure {a b : α} {s t : σ} :
    (pure a : StateT σ (Except ε) α) s = .ok (b, t) ↔ b = a ∧ t = s := by
  rw [write_pure_eq_ok, Prod.mk.injEq]

/-! ## Respelling -/

/-- What the writer and the strict reader make of one accepted spelling. -/
structure Respelled (s s' : σ) (strict : StatefulReader σ ε α) (write : α → StatefulWriter σ ε)
    (a : α) (spelling rest : List UInt8) : Prop where
  frame : ∀ out t, write a s = .ok (out, t) → t = s' ∧ out.length ≤ spelling.length
  exact : write a s = .ok (spelling, s') ↔ Accepts strict s (spelling ++ rest) a s' rest
  agree : ∀ x, strict s (spelling ++ rest) = .ok x → x = ((a, s'), rest)

lemma Respelled.agrees {s s' t : σ} {strict : StatefulReader σ ε α} {write : α → StatefulWriter σ ε}
    {a b : α} {spelling rest rest' : List UInt8} (h : Respelled s s' strict write a spelling rest)
    (hb : Accepts strict s (spelling ++ rest) b t rest') : (b = a ∧ t = s') ∧ rest' = rest := by
  simpa only [Prod.mk.injEq] using h.agree _ hb

/-- Every accepted spelling is a prefix that the writer reproduces exactly when the strict reader
accepts it. -/
def Respells (s : σ) (read strict : StatefulReader σ ε α) (write : α → StatefulWriter σ ε) : Prop :=
  ∀ bytes a s' rest, Accepts read s bytes a s' rest →
    ∃ spelling, bytes = spelling ++ rest ∧ Respelled s s' strict write a spelling rest

/-- One part after another. -/
def pair (first : StatefulReader σ ε α) (second : α → StatefulReader σ ε β) :
    StatefulReader σ ε (α × β) := do
  let a ← first
  let b ← second a
  pure (a, b)

def pairWriter (first : α → StatefulWriter σ ε) (second : α → β → StatefulWriter σ ε) :
    α × β → StatefulWriter σ ε := fun p => (do
  let bytes ← first p.1
  let bytes' ← second p.1 p.2
  pure (bytes ++ bytes') : StateT σ (Except ε) (List UInt8))

lemma accepts_pair {r : StatefulReader σ ε α} {k : α → StatefulReader σ ε β} {s : σ}
    {bytes : List UInt8} {x : ((α × β) × σ) × List UInt8} :
    pair r k s bytes = .ok x ↔ ∃ a s₁ rest₁ b s' rest,
      Accepts r s bytes a s₁ rest₁ ∧ Accepts (k a) s₁ rest₁ b s' rest ∧ x = (((a, b), s'), rest) := by
  unfold pair
  simp only [read_bind_eq_ok, read_pure_eq_ok]
  constructor
  · rintro ⟨a, s₁, rest₁, h₁, b, s', rest, h₂, rfl⟩
    exact ⟨a, s₁, rest₁, b, s', rest, h₁, h₂, rfl⟩
  · rintro ⟨a, s₁, rest₁, b, s', rest, h₁, h₂, rfl⟩
    exact ⟨a, s₁, rest₁, h₁, b, s', rest, h₂, rfl⟩

lemma accepts_pair_mk {r : StatefulReader σ ε α} {k : α → StatefulReader σ ε β} {s s' : σ}
    {bytes rest : List UInt8} {a : α} {b : β} (h : Accepts (pair r k) s bytes (a, b) s' rest) :
    ∃ s₁ rest₁, Accepts r s bytes a s₁ rest₁ ∧ Accepts (k a) s₁ rest₁ b s' rest := by
  obtain ⟨a', s₁, rest₁, b', s₂, rest₂, h₁, h₂, hx⟩ := accepts_pair.mp h
  obtain ⟨⟨⟨rfl, rfl⟩, rfl⟩, rfl⟩ : ((a = a' ∧ b = b') ∧ s' = s₂) ∧ rest = rest₂ := by
    simpa only [Prod.mk.injEq] using hx
  exact ⟨s₁, rest₁, h₁, h₂⟩

lemma pairWriter_eq_ok {w : α → StatefulWriter σ ε} {v : α → β → StatefulWriter σ ε} {a : α} {b : β}
    {s : σ} {x : List UInt8 × σ} :
    pairWriter w v (a, b) s = .ok x ↔ ∃ out t out' t',
      w a s = .ok (out, t) ∧ v a b t = .ok (out', t') ∧ x = (out ++ out', t') := by
  unfold pairWriter
  simp only [write_bind_eq_ok, write_pure_eq_ok]
  constructor
  · rintro ⟨out, t, h₁, out', t', h₂, rfl⟩
    exact ⟨out, t, out', t', h₁, h₂, rfl⟩
  · rintro ⟨out, t, out', t', h₁, h₂, rfl⟩
    exact ⟨out, t, h₁, out', t', h₂, rfl⟩

/-- A reproduced sequence is reproduced part by part: no part is longer than its spelling, so none
can be shorter either. -/
lemma Respells.pair {s : σ} {r₁ c₁ : StatefulReader σ ε α} {w₁ : α → StatefulWriter σ ε}
    {r₂ c₂ : α → StatefulReader σ ε β} {w₂ : α → β → StatefulWriter σ ε}
    (first : Respells s r₁ c₁ w₁)
    (second : ∀ bytes a s' rest, Accepts r₁ s bytes a s' rest →
      Respells s' (r₂ a) (c₂ a) (w₂ a)) :
    Respells s (Respelling.pair r₁ r₂) (Respelling.pair c₁ c₂) (pairWriter w₁ w₂) := by
  rintro bytes x s' rest h
  obtain ⟨a, s₁, rest₁, b, s₂, rest₂, h₁, h₂, hx⟩ := accepts_pair.mp h
  obtain ⟨rfl, rfl, rfl⟩ : x = (a, b) ∧ s' = s₂ ∧ rest = rest₂ := by simpa [and_assoc] using hx
  obtain ⟨p₁, rfl, part₁⟩ := first _ _ _ _ h₁
  obtain ⟨p₂, rfl, part₂⟩ := second _ _ _ _ h₁ _ _ _ _ h₂
  refine ⟨p₁ ++ p₂, (List.append_assoc _ _ _).symm, ?_, ?_, ?_⟩
  · intro out t hout
    obtain ⟨o₁, t₁, o₂, t₂, hw₁, hw₂, hout⟩ := pairWriter_eq_ok.mp hout
    obtain ⟨rfl, rfl⟩ : out = o₁ ++ o₂ ∧ t = t₂ := by simpa using hout
    obtain ⟨rfl, le₁⟩ := part₁.frame _ _ hw₁
    obtain ⟨rfl, le₂⟩ := part₂.frame _ _ hw₂
    refine ⟨rfl, ?_⟩
    simp only [List.length_append]
    omega
  · constructor
    · intro hout
      obtain ⟨o₁, t₁, o₂, t₂, hw₁, hw₂, hout⟩ := pairWriter_eq_ok.mp hout
      obtain ⟨happ, rfl⟩ : p₁ ++ p₂ = o₁ ++ o₂ ∧ s' = t₂ := by simpa using hout
      obtain ⟨rfl, le₁⟩ := part₁.frame _ _ hw₁
      obtain ⟨-, le₂⟩ := part₂.frame _ _ hw₂
      have hlength := congrArg List.length happ
      simp only [List.length_append] at hlength
      obtain ⟨rfl, rfl⟩ := List.append_inj happ (by omega)
      rw [Accepts, List.append_assoc]
      exact accepts_pair.mpr ⟨a, _, _, b, s', rest, part₁.exact.mp hw₁, part₂.exact.mp hw₂, rfl⟩
    · intro hstrict
      rw [Accepts, List.append_assoc] at hstrict
      obtain ⟨a', t₁, u₁, b', t₂, u₂, hc₁, hc₂, hx⟩ := accepts_pair.mp hstrict
      obtain ⟨⟨rfl, rfl⟩, rfl⟩ := part₁.agrees hc₁
      obtain ⟨⟨rfl, rfl⟩, rfl⟩ := part₂.agrees hc₂
      exact pairWriter_eq_ok.mpr
        ⟨p₁, t₁, p₂, t₂, part₁.exact.mpr hc₁, part₂.exact.mpr hc₂, rfl⟩
  · intro y hstrict
    rw [List.append_assoc] at hstrict
    obtain ⟨a', t₁, u₁, b', t₂, u₂, hc₁, hc₂, rfl⟩ := accepts_pair.mp hstrict
    obtain ⟨⟨rfl, rfl⟩, rfl⟩ := part₁.agrees hc₁
    obtain ⟨⟨rfl, rfl⟩, rfl⟩ := part₂.agrees hc₂
    rfl

/-- Nothing is read and nothing is written. -/
lemma Respells.pure (s : σ) (v : α) {write : α → StatefulWriter σ ε}
    (hwrite : write v s = .ok ([], s)) :
    Respells s (Pure.pure v : StatefulReader σ ε α) (Pure.pure v) write := by
  intro bytes a s' rest h
  obtain ⟨⟨rfl, rfl⟩, rfl⟩ := accepts_pure.mp h
  refine ⟨[], rfl, ?_, ?_, ?_⟩
  · intro out t hout
    obtain ⟨rfl, rfl⟩ : [] = out ∧ s' = t := by simpa [hwrite] using hout
    exact ⟨rfl, Nat.le_refl _⟩
  · exact ⟨fun _ => h, fun _ => hwrite⟩
  · intro x hx
    exact read_pure_eq_ok.mp hx

/-- The value made of the parts is written as the parts are, as far as the strict reader's check
lets it through; where the check fails the parts are longer than what is written. -/
lemma Respells.convert {s : σ} {read strict : StatefulReader σ ε α} {write : α → StatefulWriter σ ε}
    {f : α → Except ε β} {c : α → Except ε Unit} {write' : β → StatefulWriter σ ε}
    {read' strict' : StatefulReader σ ε β}
    (h : Respells s read strict write)
    (hread : read' = (do let a ← read; StateT.lift (Reader.lift (f a))))
    (hstrict : strict' = (do
      let a ← strict
      let _ ← StateT.lift (Reader.lift (c a))
      StateT.lift (Reader.lift (f a))))
    (good : ∀ bytes a b s' rest, Accepts read s bytes a s' rest → f a = .ok b →
      c a = .ok () → write' b s = write a s)
    (bad : ∀ bytes a b s' rest, Accepts read s bytes a s' rest → f a = .ok b →
      c a ≠ .ok () → ∀ out t, write' b s = .ok (out, t) →
        ∃ out', write a s = .ok (out', t) ∧ out.length < out'.length) :
    Respells s read' strict' write' := by
  subst hread hstrict
  intro bytes b s' rest hb
  obtain ⟨a, s₁, rest₁, ha, hlift⟩ := read_bind_eq_ok.mp hb
  obtain ⟨b', hconvert, hsame⟩ := read_lift_eq_ok.mp hlift
  obtain ⟨⟨rfl, rfl⟩, rfl⟩ : (b = b' ∧ s' = s₁) ∧ rest = rest₁ := by simpa using hsame
  obtain ⟨p, rfl, part⟩ := h _ _ _ _ ha
  refine ⟨p, rfl, ?_, ?_, ?_⟩
  · intro out t hout
    by_cases hcheck : c a = .ok ()
    · rw [good _ _ _ _ _ ha hconvert hcheck] at hout
      exact part.frame _ _ hout
    · obtain ⟨out', hout', hlt⟩ := bad _ _ _ _ _ ha hconvert hcheck _ _ hout
      obtain ⟨hstate, hle⟩ := part.frame _ _ hout'
      exact ⟨hstate, by omega⟩
  · constructor
    · intro hout
      by_cases hcheck : c a = .ok ()
      · rw [good _ _ _ _ _ ha hconvert hcheck] at hout
        exact read_bind_eq_ok.mpr ⟨a, s', rest, part.exact.mp hout,
          read_bind_eq_ok.mpr ⟨(), s', rest, read_lift_eq_ok.mpr ⟨(), hcheck, rfl⟩,
            read_lift_eq_ok.mpr ⟨b, hconvert, rfl⟩⟩⟩
      · obtain ⟨out', hout', hlt⟩ := bad _ _ _ _ _ ha hconvert hcheck _ _ hout
        have hle := (part.frame _ _ hout').2
        omega
    · intro hout
      obtain ⟨a', t, u, hc, hrest⟩ := read_bind_eq_ok.mp hout
      obtain ⟨⟨rfl, rfl⟩, rfl⟩ := part.agrees hc
      obtain ⟨_, _, _, hchecked, -⟩ := read_bind_eq_ok.mp hrest
      obtain ⟨_, hcheck, -⟩ := read_lift_eq_ok.mp hchecked
      rw [good _ _ _ _ _ ha hconvert hcheck]
      exact part.exact.mpr hc
  · intro x hx
    obtain ⟨a', t, u, hc, hrest⟩ := read_bind_eq_ok.mp hx
    obtain ⟨⟨rfl, rfl⟩, rfl⟩ := part.agrees hc
    obtain ⟨_, _, _, hchecked, hmade⟩ := read_bind_eq_ok.mp hrest
    obtain ⟨_, -, hstay⟩ := read_lift_eq_ok.mp hchecked
    simp only [Prod.mk.injEq] at hstay
    obtain ⟨⟨-, rfl⟩, rfl⟩ := hstay
    obtain ⟨b', hb', rfl⟩ := read_lift_eq_ok.mp hmade
    rw [hconvert] at hb'
    cases hb'
    rfl

/-- `convert` for a value that is always made. -/
lemma Respells.build {s : σ} {read strict : StatefulReader σ ε α} {write : α → StatefulWriter σ ε}
    {g : α → β} {c : α → Except ε Unit} {write' : β → StatefulWriter σ ε}
    {read' strict' : StatefulReader σ ε β}
    (h : Respells s read strict write)
    (hread : read' = (do let a ← read; Pure.pure (g a)))
    (hstrict : strict' = (do
      let a ← strict
      let _ ← StateT.lift (Reader.lift (c a))
      Pure.pure (g a)))
    (good : ∀ bytes a s' rest, Accepts read s bytes a s' rest → c a = .ok () →
      write' (g a) s = write a s)
    (bad : ∀ bytes a s' rest, Accepts read s bytes a s' rest → c a ≠ .ok () →
      ∀ out t, write' (g a) s = .ok (out, t) →
        ∃ out', write a s = .ok (out', t) ∧ out.length < out'.length) :
    Respells s read' strict' write' := by
  refine h.convert (f := fun a => .ok (g a)) hread hstrict ?_ ?_
  · intro bytes a b s' rest ha hb hcheck
    cases hb
    exact good _ _ _ _ ha hcheck
  · intro bytes a b s' rest ha hb hcheck
    cases hb
    exact bad _ _ _ _ ha hcheck

/-- `convert` where the strict reader checks nothing of its own. -/
lemma Respells.same {s : σ} {read strict : StatefulReader σ ε α} {write : α → StatefulWriter σ ε}
    {f : α → Except ε β} {write' : β → StatefulWriter σ ε}
    {read' strict' : StatefulReader σ ε β}
    (h : Respells s read strict write)
    (hread : read' = (do let a ← read; StateT.lift (Reader.lift (f a))))
    (hstrict : strict' = (do let a ← strict; StateT.lift (Reader.lift (f a))))
    (good : ∀ bytes a b s' rest, Accepts read s bytes a s' rest → f a = .ok b →
      write' b s = write a s) :
    Respells s read' strict' write' :=
  h.convert (c := fun _ => .ok ()) hread hstrict
    (fun _ _ _ _ _ ha hb _ => good _ _ _ _ _ ha hb) (fun _ _ _ _ _ _ _ hbad => absurd rfl hbad)

/-- `build` where the strict reader checks nothing of its own. -/
lemma Respells.map {s : σ} {read strict : StatefulReader σ ε α} {write : α → StatefulWriter σ ε}
    {g : α → β} {write' : β → StatefulWriter σ ε} {read' strict' : StatefulReader σ ε β}
    (h : Respells s read strict write)
    (hread : read' = (do let a ← read; Pure.pure (g a)))
    (hstrict : strict' = (do let a ← strict; Pure.pure (g a)))
    (good : ∀ bytes a s' rest, Accepts read s bytes a s' rest → write' (g a) s = write a s) :
    Respells s read' strict' write' :=
  h.build (c := fun _ => .ok ()) hread hstrict (fun _ _ _ _ ha _ => good _ _ _ _ ha)
    (fun _ _ _ _ _ hbad => absurd rfl hbad)

/-- A value that both readers let through the same check. -/
lemma Respells.checked {s : σ} {read strict : StatefulReader σ ε α} {write : α → StatefulWriter σ ε}
    {γ : Type} {c : α → Except ε γ} {read' strict' : StatefulReader σ ε α}
    (h : Respells s read strict write)
    (hread : read' = (do
      let a ← read
      let _ ← StateT.lift (Reader.lift (c a))
      Pure.pure a))
    (hstrict : strict' = (do
      let a ← strict
      let _ ← StateT.lift (Reader.lift (c a))
      Pure.pure a)) :
    Respells s read' strict' write := by
  have hcheck : ∀ a, (do
      let _ ← StateT.lift (Reader.lift (c a))
      Pure.pure a : StatefulReader σ ε α) = StateT.lift (Reader.lift (do let _ ← c a; .ok a)) := by
    intro a
    cases c a with
    | error e => rfl
    | ok checked => rfl
  refine h.same (f := fun a => do let _ ← c a; .ok a) (by simp only [hread, hcheck])
    (by simp only [hstrict, hcheck]) ?_
  intro bytes a b s' rest _ hb
  cases hc : c a with
  | error e =>
    rw [hc] at hb
    cases hb
  | ok checked =>
    rw [hc] at hb
    cases hb
    rfl

/-- What is read to its end is reproduced exactly when the strict reader accepts it. -/
lemma Respells.reproduced {s s' : σ} {read strict : StatefulReader σ ε α}
    {write : α → StatefulWriter σ ε} {bytes : List UInt8} {a : α} (h : Respells s read strict write)
    (hread : Accepts read s bytes a s' []) :
    (∃ t, write a s = .ok (bytes, t)) ↔ ∃ x, strict s bytes = .ok x := by
  obtain ⟨p, hbytes, part⟩ := h _ _ _ _ hread
  obtain rfl : bytes = p := by simpa using hbytes
  have hexact := part.exact
  rw [Accepts, List.append_nil] at hexact
  constructor
  · rintro ⟨t, ht⟩
    obtain rfl := (part.frame _ _ ht).1
    exact ⟨_, hexact.mp ht⟩
  · rintro ⟨x, hx⟩
    have hsame := part.agree x (by rwa [List.append_nil])
    rw [hsame] at hx
    exact ⟨s', hexact.mpr hx⟩

/-! ## Parts that change the state -/

/-- A change of the state that reads nothing. -/
def step (f : σ → Except ε (β × σ)) : StatefulReader σ ε β := fun s => Reader.lift (f s)

lemma step_eq_ok {f : σ → Except ε (β × σ)} {s : σ} {bytes : List UInt8}
    {x : (β × σ) × List UInt8} :
    step f s bytes = .ok x ↔ ∃ y, f s = .ok y ∧ x = (y, bytes) := by
  unfold step Reader.lift
  cases f s with
  | error e => simp
  | ok y => simp [eq_comm]

/-- A part followed by a change of the state, which the writer makes as well. -/
lemma Respells.advance {s : σ} {read strict : StatefulReader σ ε α} {write : α → StatefulWriter σ ε}
    {f : α → σ → Except ε (β × σ)} {write' : β → StatefulWriter σ ε}
    {read' strict' : StatefulReader σ ε β}
    (h : Respells s read strict write)
    (hread : read' = (do let a ← read; step (f a)))
    (hstrict : strict' = (do let a ← strict; step (f a)))
    (hwrite : ∀ bytes a b s' t rest, Accepts read s bytes a s' rest → f a s' = .ok (b, t) →
      ∀ out u, write' b s = .ok (out, u) ↔ u = t ∧ ∃ u', write a s = .ok (out, u')) :
    Respells s read' strict' write' := by
  subst hread hstrict
  intro bytes b t rest hb
  obtain ⟨a, s', rest', ha, hstep⟩ := read_bind_eq_ok.mp hb
  obtain ⟨y, hf, hsame⟩ := step_eq_ok.mp hstep
  obtain ⟨rfl, rfl⟩ : (b, t) = y ∧ rest = rest' := by simpa only [Prod.mk.injEq] using hsame
  obtain ⟨p, rfl, part⟩ := h _ _ _ _ ha
  refine ⟨p, rfl, ?_, ?_, ?_⟩
  · intro out u hout
    obtain ⟨rfl, u', hout⟩ := (hwrite _ _ _ _ _ _ ha hf _ _).mp hout
    exact ⟨rfl, (part.frame _ _ hout).2⟩
  · rw [hwrite _ _ _ _ _ _ ha hf]
    constructor
    · rintro ⟨-, u', hout⟩
      obtain rfl : u' = s' := (part.frame _ _ hout).1
      exact read_bind_eq_ok.mpr ⟨a, u', rest, part.exact.mp hout,
        step_eq_ok.mpr ⟨(b, t), hf, rfl⟩⟩
    · intro hout
      obtain ⟨a', s₁, rest₁, hc, -⟩ := read_bind_eq_ok.mp hout
      obtain ⟨⟨rfl, rfl⟩, rfl⟩ := part.agrees hc
      exact ⟨rfl, s₁, part.exact.mpr hc⟩
  · intro x hx
    obtain ⟨a', s₁, rest₁, hc, hadvance⟩ := read_bind_eq_ok.mp hx
    obtain ⟨⟨rfl, rfl⟩, rfl⟩ := part.agrees hc
    obtain ⟨y, hy, rfl⟩ := step_eq_ok.mp hadvance
    rw [hf] at hy
    cases hy
    rfl

/-- A part after which both sides change the state in the same way. -/
lemma Respells.modifying {s : σ} {read strict : StatefulReader σ ε α} {write : α → StatefulWriter σ ε}
    (h : Respells s read strict write) (change : α → σ → σ) :
    Respells s
      (do
        let a ← read
        modify (change a)
        Pure.pure a)
      (do
        let a ← strict
        modify (change a)
        Pure.pure a)
      fun a => (do
        let bytes ← write a
        modify (change a)
        Pure.pure bytes : StateT σ (Except ε) (List UInt8)) := by
  refine h.advance (f := fun a t => .ok (a, change a t)) rfl rfl ?_
  intro bytes a b s' t rest ha hf out u
  cases hf
  obtain ⟨p, -, part⟩ := h _ _ _ _ ha
  rw [write_bind_eq_ok]
  constructor
  · rintro ⟨out', t', hout, hrest⟩
    obtain ⟨rfl, -⟩ := part.frame _ _ hout
    cases hrest
    exact ⟨rfl, t', hout⟩
  · rintro ⟨rfl, t', hout⟩
    obtain ⟨rfl, -⟩ := part.frame _ _ hout
    exact ⟨out, t', hout, rfl⟩

/-- A spelling behind a fixed first byte. -/
lemma Respelled.tag {s s' : σ} {k k' : StatefulReader σ ε α}
    {w w' : α → StatefulWriter σ ε} {a : α} {spelling rest : List UInt8} (byte : UInt8)
    (h : Respelled s s' k w a spelling rest)
    (hstrict : ∀ bytes, k' s (byte :: bytes) = k s bytes)
    (hwrite : ∀ out t, w' a s = .ok (out, t) ↔
      ∃ out', w a s = .ok (out', t) ∧ out = byte :: out') :
    Respelled s s' k' w' a (byte :: spelling) rest := by
  refine ⟨?_, ?_, ?_⟩
  · intro out t hout
    obtain ⟨out', hout', rfl⟩ := (hwrite _ _).mp hout
    obtain ⟨hstate, hle⟩ := h.frame _ _ hout'
    exact ⟨hstate, by simpa using hle⟩
  · rw [hwrite, Accepts, List.cons_append, hstrict]
    refine Iff.trans ?_ h.exact
    constructor
    · rintro ⟨out', hout', hsame⟩
      rwa [(List.cons.inj hsame).2]
    · intro hout
      exact ⟨spelling, hout, rfl⟩
  · intro x hx
    rw [List.cons_append, hstrict] at hx
    exact h.agree x hx

/-- The choice of the reader is known. -/
lemma Respells.ite {s : σ} {c : Prop} [Decidable c] {r₁ c₁ r₂ c₂ : StatefulReader σ ε α}
    {w : α → StatefulWriter σ ε} (first : c → Respells s r₁ c₁ w) (second : ¬ c → Respells s r₂ c₂ w) :
    Respells s (if c then r₁ else r₂) (if c then c₁ else c₂) w := by
  by_cases h : c
  · simpa only [if_pos h] using first h
  · simpa only [if_neg h] using second h

end Respelling
