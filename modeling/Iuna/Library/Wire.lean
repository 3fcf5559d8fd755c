import Iuna.Library.Outcome

/-!
# Reading back what was written

A reader consumes a prefix of a byte list and returns a value: `Reader ε α` is a state
transformer over the bytes that remain.  `Reads r written a` says that `r` reads exactly the
bytes `written`, whatever follows them, and returns `a`.  A writer and a reader round-trip when
`Reads r (write a) a`, and the rules below follow the structure of both: `Reads.pure` for
nothing, `Reads.bind` for one part after another, `Reads.list` for a counted sequence.

Integers of a fixed width are written big-endian; `ofBigEndian_bigEndian` is their round trip.
-/

namespace Wire

universe u

variable {ε : Type u} {α β : Type}

/-- A reader of a byte list. -/
abbrev Reader (ε : Type u) (α : Type) := List UInt8 → Except ε (α × List UInt8)

namespace Reader

/-- Read nothing. -/
def pure (a : α) : Reader ε α := fun bytes => .ok (a, bytes)

/-- Read one part, then another that may depend on it. -/
def bind (r : Reader ε α) (f : α → Reader ε β) : Reader ε β := fun bytes =>
  match r bytes with
  | .error e => .error e
  | .ok (a, rest) => f a rest

instance : Monad (Reader ε) where
  pure := Reader.pure
  bind := Reader.bind

/-- A computation that reads nothing. -/
def lift (x : Except ε α) : Reader ε α := fun bytes =>
  match x with
  | .error e => .error e
  | .ok a => .ok (a, bytes)

/-- Read a fixed number of bytes. -/
def take (n : ℕ) (error : ε) : Reader ε (List UInt8) := fun bytes =>
  if bytes.length < n then .error error else .ok (bytes.take n, bytes.drop n)

/-- Read a sequence of known length. -/
def list (r : Reader ε α) : ℕ → Reader ε (List α)
  | 0 => Reader.pure []
  | n + 1 => Reader.bind r fun a => Reader.bind (list r n) fun as => Reader.pure (a :: as)

end Reader

/-- `r` reads exactly `written` and returns `a`. -/
def Reads (r : Reader ε α) (written : List UInt8) (a : α) : Prop :=
  ∀ rest, r (written ++ rest) = .ok (a, rest)

lemma Reads.pure (a : α) : Reads (Pure.pure a : Reader ε α) [] a :=
  fun _ => rfl

lemma Reads.bind {r : Reader ε α} {f : α → Reader ε β} {first second : List UInt8} {a : α} {b : β}
    (hr : Reads r first a) (hf : Reads (f a) second b) : Reads (r >>= f) (first ++ second) b := by
  intro rest
  have hfirst := hr (second ++ rest)
  show Reader.bind r f (first ++ second ++ rest) = .ok (b, rest)
  rw [List.append_assoc, Reader.bind, hfirst]
  exact hf rest

/-- A check that succeeds reads nothing. -/
lemma Reads.lift {x : Except ε α} {a : α} (h : x = .ok a) : Reads (Reader.lift x) [] a := by
  intro rest
  rw [h]
  rfl

lemma Reads.bind_pure {r : Reader ε α} {f : α → β} {written : List UInt8} {a : α}
    (hr : Reads r written a) : Reads (r >>= fun x => Pure.pure (f x)) written (f a) := by
  have h := Reads.bind (f := fun x => (Pure.pure (f x) : Reader ε β)) hr (Reads.pure (f a))
  simpa using h

lemma Reads.take {written : List UInt8} {error : ε} :
    Reads (Reader.take written.length error) written written := by
  intro rest
  simp [Reader.take]

/-- A sequence reads back element by element. -/
lemma Reads.list {r : Reader ε α} {write : α → List UInt8} {as : List α}
    (h : ∀ a ∈ as, Reads r (write a) a) : Reads (Reader.list r as.length) (as.flatMap write) as := by
  induction as with
  | nil => exact fun _ => rfl
  | cons a as ih =>
    rw [List.flatMap_cons]
    have htail := ih fun a ha => h a (List.mem_cons_of_mem _ ha)
    exact Reads.bind (f := fun a => Reader.list r as.length >>= fun as => Pure.pure (a :: as))
      (h a List.mem_cons_self) htail.bind_pure

/-! ## Big-endian integers -/

/-- The big-endian bytes of an integer, at a fixed width. -/
def bigEndian : ℕ → ℕ → List UInt8
  | 0, _ => []
  | width + 1, n => bigEndian width (n / 256) ++ [UInt8.ofNat n]

/-- The integer that big-endian bytes stand for. -/
def ofBigEndian (bytes : List UInt8) : ℕ :=
  bytes.foldl (fun value byte => 256 * value + byte.toNat) 0

@[simp] lemma bigEndian_length (width n : ℕ) : (bigEndian width n).length = width := by
  induction width generalizing n with
  | zero => rfl
  | succ width ih => simp [bigEndian, ih]

/-- Reading fixed-width bytes recovers the integer they were written from. -/
lemma ofBigEndian_bigEndian {width n : ℕ} (h : n < 256 ^ width) :
    ofBigEndian (bigEndian width n) = n := by
  induction width generalizing n with
  | zero =>
    have hzero : n = 0 := by simpa using h
    simp [hzero, bigEndian, ofBigEndian]
  | succ width ih =>
    have hdiv : n / 256 < 256 ^ width := by
      rw [Nat.div_lt_iff_lt_mul (by decide)]
      rwa [Nat.pow_succ] at h
    have hrec := ih hdiv
    rw [ofBigEndian] at hrec
    simp only [bigEndian, ofBigEndian, List.foldl_append, hrec, List.foldl_cons, List.foldl_nil,
      UInt8.toNat_ofNat']
    omega

/-- Integers in range have different bytes. -/
lemma bigEndian_inj {width m n : ℕ} (hm : m < 256 ^ width) (hn : n < 256 ^ width) :
    bigEndian width m = bigEndian width n ↔ m = n := by
  refine ⟨fun h => ?_, congrArg _⟩
  rw [← ofBigEndian_bigEndian hm, h, ofBigEndian_bigEndian hn]

/-! ## Base-128 integers -/

/-- The base-128 groups of an integer, lowest first, every group but the last with its high bit
set.  `fuel` bounds the number of groups after the first. -/
def varint : ℕ → ℕ → List UInt8
  | 0, n => [UInt8.ofNat n]
  | fuel + 1, n =>
    if n < 128 then [UInt8.ofNat n] else UInt8.ofNat (n % 128 + 128) :: varint fuel (n / 128)

/-- The number of base-128 groups grows with the integer. -/
lemma varint_length_mono {fuel m n : ℕ} (h : m ≤ n) :
    (varint fuel m).length ≤ (varint fuel n).length := by
  induction fuel generalizing m n with
  | zero => simp [varint]
  | succ fuel ih =>
    unfold varint
    split
    · split <;> simp
    · rw [if_neg (by omega)]
      simpa using ih (Nat.div_le_div_right h)

end Wire
