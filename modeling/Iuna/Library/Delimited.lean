import Iuna.Library.Wire
import Mathlib.Data.List.Induction

/-!
# Self-delimiting encodings

A writer is self-delimiting when no encoding is a proper prefix of another one: whatever follows,
two encodings that start the same bytes are equal, and so are the values they were written from
(`Delimits`).  What a value has beyond its encoding is left out by a key.  The rules follow the
structure of a format: integers of a width, arrays of a length, a counted list.

A reader inverts a writer when it reads exactly the encodings of valid values (`Inverts`); the
rules of this second part take a reader apart in the order of its steps.  A writer that a reader
inverts delimits.
-/

namespace Wire

universe u

variable {ε : Type u} {α β κ : Type}

/-! ## Writers -/

/-- Encodings of valid values that start the same bytes are equal, and the values have the same
key. -/
def Delimits (valid : α → Prop) (key : α → κ) (write : α → Except ε (List UInt8)) : Prop :=
  ∀ ⦃a a' w w' t t'⦄, valid a → valid a' → write a = .ok w → write a' = .ok w' →
    w ++ t = w' ++ t' → key a = key a' ∧ w = w'

/-- Encodings of one length delimit themselves. -/
lemma append_inj_of_length {w w' t t' : List UInt8} (length : w.length = w'.length)
    (h : w ++ t = w' ++ t') : w = w' ∧ t = t' :=
  List.append_inj h length

/-- An integer of a width comes apart from what follows it. -/
lemma bigEndian_append_inj {width m n : ℕ} {t t' : List UInt8} (hm : m < 256 ^ width)
    (hn : n < 256 ^ width) (h : bigEndian width m ++ t = bigEndian width n ++ t') :
    m = n ∧ t = t' := by
  obtain ⟨hbytes, hrest⟩ := append_inj_of_length (by simp) h
  exact ⟨(bigEndian_inj hm hn).mp hbytes, hrest⟩

/-- A block of bytes comes apart from what follows it, if its length is written before it. -/
lemma counted_append_inj {width : ℕ} {w w' t t' : List UInt8} (hw : w.length < 256 ^ width)
    (hw' : w'.length < 256 ^ width)
    (h : bigEndian width w.length ++ w ++ t = bigEndian width w'.length ++ w' ++ t') :
    w = w' ∧ t = t' := by
  rw [List.append_assoc, List.append_assoc] at h
  obtain ⟨hlength, h⟩ := bigEndian_append_inj hw hw' h
  exact append_inj_of_length hlength h

/-- Elements that delimit themselves make lists that do, if they have as many elements. -/
lemma Delimits.mapM {valid : α → Prop} {key : α → κ} {write : α → Except ε (List UInt8)}
    (delimits : Delimits valid key write) {as as' : List α} {ws ws' : List (List UInt8)}
    {t t' : List UInt8} (length : as.length = as'.length) (has : ∀ a ∈ as, valid a)
    (has' : ∀ a ∈ as', valid a) (hws : as.mapM write = .ok ws) (hws' : as'.mapM write = .ok ws')
    (h : ws.flatten ++ t = ws'.flatten ++ t') :
    as.map key = as'.map key ∧ ws = ws' ∧ t = t' := by
  have hpairs := Outcome.mapM_eq_ok.mp hws
  have hpairs' := Outcome.mapM_eq_ok.mp hws'
  clear hws hws'
  induction hpairs generalizing as' ws' with
  | nil =>
    cases hpairs' with
    | nil => exact ⟨rfl, rfl, h⟩
    | cons _ _ => cases length
  | @cons a w as ws hhead _ ih =>
    cases hpairs' with
    | nil => cases length
    | @cons a' w' as' ws' hhead' htail' =>
      rw [List.flatten_cons, List.flatten_cons, List.append_assoc, List.append_assoc] at h
      obtain ⟨hkey, rfl⟩ := delimits (has a List.mem_cons_self) (has' a' List.mem_cons_self)
        hhead hhead' h
      have hrest := List.append_cancel_left h
      obtain ⟨hkeys, rfl, hfollow⟩ := ih (Nat.succ.inj length)
        (fun b hb => has b (List.mem_cons_of_mem _ hb))
        (fun b hb => has' b (List.mem_cons_of_mem _ hb)) hrest htail'
      exact ⟨by rw [List.map_cons, List.map_cons, hkey, hkeys], rfl, hfollow⟩

/-! ## Readers -/

/-- A reader accepts exactly the encodings of valid values. -/
def Inverts (r : Reader ε α) (write : α → List UInt8) (valid : α → Prop) : Prop :=
  ∀ bytes a rest, r bytes = .ok (a, rest) ↔ bytes = write a ++ rest ∧ valid a

namespace Reader

@[simp] lemma bind_eq_ok {r : Reader ε α} {f : α → Reader ε β} {bytes rest : List UInt8} {b : β} :
    (r >>= f) bytes = .ok (b, rest) ↔
      ∃ a middle, r bytes = .ok (a, middle) ∧ f a middle = .ok (b, rest) := by
  show Reader.bind r f bytes = _ ↔ _
  unfold Reader.bind
  cases hr : r bytes with
  | error e => simp
  | ok result =>
    obtain ⟨a, middle⟩ := result
    simp

@[simp] lemma pure_eq_ok {a b : α} {bytes rest : List UInt8} :
    (Pure.pure a : Reader ε α) bytes = .ok (b, rest) ↔ a = b ∧ bytes = rest := by
  show Reader.pure a bytes = _ ↔ _
  simp [Reader.pure]

@[simp] lemma lift_eq_ok {x : Except ε α} {a : α} {bytes rest : List UInt8} :
    Reader.lift x bytes = .ok (a, rest) ↔ x = .ok a ∧ bytes = rest := by
  unfold Reader.lift
  cases x <;> simp

/-- Reading in steps does not depend on how the steps are grouped. -/
lemma bind_assoc {γ : Type} (r : Reader ε α) (f : α → Reader ε β) (g : β → Reader ε γ) :
    (r >>= f) >>= g = r >>= fun a => f a >>= g := by
  funext bytes
  show Reader.bind (Reader.bind r f) g bytes = Reader.bind r (fun a => Reader.bind (f a) g) bytes
  unfold Reader.bind
  cases r bytes with
  | error e => rfl
  | ok result => rfl

lemma take_eq_ok {n : ℕ} {error : ε} {bytes taken rest : List UInt8} :
    Reader.take n error bytes = .ok (taken, rest) ↔ bytes = taken ++ rest ∧ taken.length = n := by
  unfold Reader.take
  constructor
  · intro h
    split at h
    · cases h
    · rename_i hlong
      obtain ⟨rfl, rfl⟩ : bytes.take n = taken ∧ bytes.drop n = rest := by simpa using h
      refine ⟨(List.take_append_drop n bytes).symm, ?_⟩
      rw [List.length_take]
      omega
  · intro h
    obtain ⟨rfl, rfl⟩ := h
    simp

end Reader

/-- Big-endian bytes are those of the integer they stand for. -/
lemma bigEndian_ofBigEndian (bytes : List UInt8) :
    bigEndian bytes.length (ofBigEndian bytes) = bytes ∧
      ofBigEndian bytes < 256 ^ bytes.length := by
  induction bytes using List.reverseRecOn with
  | nil => simp [bigEndian, ofBigEndian]
  | append_singleton bytes byte ih =>
    obtain ⟨hbytes, hbound⟩ := ih
    have hvalue : ofBigEndian (bytes ++ [byte]) = 256 * ofBigEndian bytes + byte.toNat := by
      simp [ofBigEndian]
    have hbyte := byte.toNat_lt
    have hquotient : (256 * ofBigEndian bytes + byte.toNat) / 256 = ofBigEndian bytes := by omega
    have hlow : UInt8.ofNat (256 * ofBigEndian bytes + byte.toNat) = byte := by
      apply UInt8.toNat_inj.mp
      rw [UInt8.toNat_ofNat']
      omega
    rw [List.length_append, List.length_singleton, bigEndian, hvalue, hquotient, hbytes, hlow,
      Nat.pow_succ]
    exact ⟨rfl, by omega⟩

/-- A list is read element by element. -/
lemma Inverts.list {r : Reader ε α} {write : α → List UInt8} {valid : α → Prop}
    (inverts : Inverts r write valid) (n : ℕ) :
    Inverts (Reader.list r n) (fun as => as.flatMap write)
      (fun as => as.length = n ∧ ∀ a ∈ as, valid a) := by
  induction n with
  | zero =>
    intro bytes as rest
    show Reader.pure [] bytes = _ ↔ _
    constructor
    · intro h
      obtain ⟨rfl, rfl⟩ : [] = as ∧ bytes = rest := by simpa [Reader.pure] using h
      exact ⟨rfl, rfl, by simp⟩
    · intro h
      obtain ⟨hbytes, hlength, -⟩ := h
      obtain rfl := List.length_eq_zero_iff.mp hlength
      simp [hbytes, Reader.pure]
  | succ n ih =>
    intro bytes as rest
    show (r >>= fun a => Reader.list r n >>= fun as => Pure.pure (a :: as)) bytes = _ ↔ _
    simp only [Reader.bind_eq_ok, Reader.pure_eq_ok, inverts bytes, ih _ _ _]
    constructor
    · intro h
      obtain ⟨a, middle, ⟨rfl, ha⟩, as, last, ⟨rfl, rfl, has⟩, rfl, rfl⟩ := h
      refine ⟨by simp, rfl, ?_⟩
      intro b hb
      rcases List.mem_cons.mp hb with rfl | hb
      · exact ha
      · exact has b hb
    · intro h
      obtain ⟨hbytes, hlength, hvalid⟩ := h
      cases as with
      | nil => cases hlength
      | cons a as =>
        refine ⟨a, as.flatMap write ++ rest, ⟨by simp [hbytes], hvalid a List.mem_cons_self⟩,
          as, rest, ⟨rfl, Nat.succ.inj hlength, ?_⟩, rfl, rfl⟩
        exact fun b hb => hvalid b (List.mem_cons_of_mem _ hb)

/-- What a reader inverts delimits itself. -/
lemma Inverts.append_inj {r : Reader ε α} {write : α → List UInt8} {valid : α → Prop}
    (inverts : Inverts r write valid) {a a' : α} {t t' : List UInt8} (ha : valid a)
    (ha' : valid a') (h : write a ++ t = write a' ++ t') : a = a' ∧ t = t' := by
  have hread := (inverts (write a ++ t) a t).mpr ⟨rfl, ha⟩
  have hread' := (inverts (write a ++ t) a' t').mpr ⟨h, ha'⟩
  have hsame := Except.ok.inj (hread.symm.trans hread')
  exact Prod.mk.inj hsame

end Wire
