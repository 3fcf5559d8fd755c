import Iuna.Library.Outcome
import Mathlib.Tactic.IntervalCases
import Std.Data.ExtTreeMap

/-!
# Strings, bytes, checked integers, errors and hexadecimal

The vocabulary of the domain layer.  A Rust `String` is the list of its scalar values (`Str`), a
`Vec<u8>` the list of its bytes, and a fixed array `[u8; N]` a byte list that carries its length
(`FixedBytes N`).  Unsigned integers are natural numbers; where the source adds with
`checked_add`, multiplies with `checked_mul` or saturates, the operation below does the same at
the width of the source's type.

`decode_hex` accepts both cases and `hex_encode` writes the lower case only.  The facts that the
rest of the development needs about them are `decodeHex_hexEncode` (what is written is read back)
and `decodeHex_length` (what is accepted has two characters for each byte returned).
-/

namespace Iuna

/-- A string, as its list of scalar values. -/
abbrev Str := List Char

instance : LawfulBEq Str := inferInstance

abbrev Bytes := List UInt8

/-- A fixed-size byte array `[u8; n]`. -/
abbrev FixedBytes (n : ℕ) := { bytes : Bytes // bytes.length = n }

/-- An ordered map `BTreeMap<K, V>`: extensional, so equal exactly when all lookups agree. -/
abbrev BTreeMap (κ ν : Type) [Ord κ] := Std.ExtTreeMap κ ν compare

/-- An ordered set `BTreeSet<K>`. -/
abbrev BTreeSet (κ : Type) [Ord κ] := Std.ExtTreeMap κ Unit compare

/-- A string literal. -/
def str (s : String) : Str := s.toList

/-! ## Errors -/

/-- `ValidationError`: the failures whose identity drives behaviour outside the domain layer. -/
inductive ValidationError
  | blockConflictsWithLocalChain (height : ℕ)
  | unexpectedBlockHeight (expected actual : ℕ)
  | blockDoesNotExtendLocalTip
  | blockBeforeFinalizerRankSlot (rank minTimestamp : ℕ)
  | blockTimestampTooFarInFuture
  | burnBundleParentMismatch
  | burnAnchorOutsidePendingWindow
  | mineAnchorNotOnChain
  | mineAnchorLimitReached
  | mempoolConflict
  deriving DecidableEq, Repr

/-- An `anyhow` error: a message or a validation failure, under any number of contexts. -/
inductive Error
  | validation (failure : ValidationError)
  | message (text : String)
  | context (text : String) (cause : Error)
  deriving DecidableEq, Repr

abbrev Result (α : Type) := Except Error α

/-- `bail!(text)`. -/
def bail {α : Type} (text : String) : Result α := .error (.message text)

/-- `if condition { bail!(text) }`. -/
abbrev bailIf (condition : Prop) [Decidable condition] (text : String) : Result Unit :=
  Outcome.bailIf condition (Error.message text)

/-- `result.with_context(|| text)`. -/
abbrev withContext {α : Type} (text : String) (x : Result α) : Result α :=
  Outcome.mapErr (Error.context text) x

/-- `option.with_context(|| text)`. -/
abbrev orError {α : Type} (text : String) (x : Option α) : Result α :=
  Outcome.ofOption (Error.message text) x

@[simp] lemma bail_eq_ok {α : Type} {text : String} {a : α} : bail text = .ok a ↔ False := by
  simp [bail]

/-! ## Integers -/

def u32Max : ℕ := 2 ^ 32 - 1

def u64Max : ℕ := 2 ^ 64 - 1

def u128Max : ℕ := 2 ^ 128 - 1

/-- `u64::checked_add`. -/
def checkedAdd (a b : ℕ) : Option ℕ := if a + b ≤ u64Max then some (a + b) else none

/-- `u64::checked_sub`. -/
def checkedSub (a b : ℕ) : Option ℕ := if b ≤ a then some (a - b) else none

/-- `u64::checked_mul`. -/
def checkedMul (a b : ℕ) : Option ℕ := if a * b ≤ u64Max then some (a * b) else none

/-- `u64::saturating_add`. -/
def saturatingAdd (a b : ℕ) : ℕ := min (a + b) u64Max

@[simp] lemma checkedAdd_eq_some {a b c : ℕ} :
    checkedAdd a b = some c ↔ a + b = c ∧ c ≤ u64Max := by
  unfold checkedAdd
  split
  · simp only [Option.some.injEq]
    omega
  · simp only [reduceCtorEq, false_iff, not_and]
    omega

@[simp] lemma checkedSub_eq_some {a b c : ℕ} : checkedSub a b = some c ↔ b + c = a := by
  unfold checkedSub
  split
  · simp only [Option.some.injEq]
    omega
  · simp only [reduceCtorEq, false_iff]
    omega

/-- A loop of checked additions computes the sum, if the sum is in range. -/
lemma foldlM_checkedAdd_eq_ok {α : Type} {f : α → ℕ} {text : String} {xs : List α}
    {start total : ℕ} :
    xs.foldlM (fun sum x => orError text (checkedAdd sum (f x))) start = .ok total ↔
      start + (xs.map f).sum = total ∧ (xs = [] ∨ total ≤ u64Max) := by
  induction xs generalizing start with
  | nil => simp
  | cons x xs ih =>
    simp only [Outcome.foldlM_cons_eq_ok, Outcome.ofOption_eq_ok, checkedAdd_eq_some, ih,
      List.map_cons, List.sum_cons]
    constructor
    · rintro ⟨_, ⟨rfl, hle⟩, rfl, hrest⟩
      refine ⟨by omega, .inr ?_⟩
      rcases hrest with rfl | hrest
      · simpa using hle
      · exact hrest
    · rintro ⟨rfl, hle⟩
      have hle : start + (f x + (xs.map f).sum) ≤ u64Max := by simpa using hle
      exact ⟨_, ⟨rfl, by omega⟩, by omega, .inr hle⟩

/-! ## Text -/

/-- The UTF-8 bytes of a string, `str::as_bytes`. -/
def utf8 (s : Str) : Bytes := s.flatMap String.utf8EncodeChar

/-- `str::len`: the length of a string in bytes. -/
def byteLen (s : Str) : ℕ := (utf8 s).length

/-- The decimal text of an integer, as `format!` writes it. -/
def decimal (n : ℕ) : Str := Nat.toDigits 10 n

/-- Fields joined with a separator, `[…].join(separator)`. -/
def joinWith (separator : Char) : List Str → Str := List.intercalate [separator]

/-- The canonical strings of the protocol are fields joined with colons. -/
def colons (fields : List Str) : Str := joinWith ':' fields

/-- A repeated character, `"f".repeat(n)`. -/
def repeatChar (c : Char) (n : ℕ) : Str := List.replicate n c

/-! ## Hexadecimal -/

/-- `hex_value`. -/
def hexValue (byte : UInt8) : Result ℕ :=
  let code := byte.toNat
  if 0x30 ≤ code ∧ code ≤ 0x39 then .ok (code - 0x30)
  else if 0x61 ≤ code ∧ code ≤ 0x66 then .ok (code - 0x61 + 10)
  else if 0x41 ≤ code ∧ code ≤ 0x46 then .ok (code - 0x41 + 10)
  else bail "invalid hex character"

/-- The loop of `decode_hex` over the pairs of input bytes. -/
def decodeHexPairs : Bytes → Result Bytes
  | high :: low :: rest => do
    let h ← hexValue high
    let l ← hexValue low
    let bytes ← decodeHexPairs rest
    pure (UInt8.ofNat (16 * h + l) :: bytes)
  | _ => .ok []

/-- `decode_hex`. -/
def decodeHex (input : Str) : Result Bytes := do
  bailIf (byteLen input % 2 ≠ 0) "hex string has odd length"
  decodeHexPairs (utf8 input)

/-- A byte list of the right length as a fixed array, or the error built from its length. -/
def fixed (n : ℕ) (bytes : Bytes) (error : String) : Result (FixedBytes n) :=
  if h : bytes.length = n then .ok ⟨bytes, h⟩ else bail error

/-- `decode_hex_array::<N>`. -/
def decodeHexArray (n : ℕ) (input : Str) : Result (FixedBytes n) := do
  let bytes ← decodeHex input
  fixed n bytes s!"expected {n} hex bytes, got {bytes.length}"

/-- `hex_encode`. -/
def hexEncode (bytes : Bytes) : Str :=
  bytes.flatMap fun byte => [Nat.digitChar (byte.toNat / 16), Nat.digitChar (byte.toNat % 16)]

@[simp] lemma fixed_eq_ok {n : ℕ} {bytes : Bytes} {error : String} {array : FixedBytes n} :
    fixed n bytes error = .ok array ↔ array.val = bytes := by
  unfold fixed
  split
  · rename_i h
    simp only [Except.ok.injEq]
    constructor
    · rintro rfl
      rfl
    · intro hval
      exact Subtype.ext hval.symm
  · rename_i h
    simp only [bail_eq_ok, false_iff]
    intro hval
    exact h (hval ▸ array.property)

@[simp] lemma hexEncode_nil : hexEncode [] = [] := rfl

@[simp] lemma hexEncode_cons (byte : UInt8) (bytes : Bytes) :
    hexEncode (byte :: bytes) =
      Nat.digitChar (byte.toNat / 16) :: Nat.digitChar (byte.toNat % 16) :: hexEncode bytes :=
  rfl

@[simp] lemma hexEncode_length (bytes : Bytes) : (hexEncode bytes).length = 2 * bytes.length := by
  induction bytes with
  | nil => rfl
  | cons byte bytes ih =>
    simp only [hexEncode_cons, List.length_cons, ih]
    omega

@[simp] lemma utf8_nil : utf8 [] = [] := rfl

@[simp] lemma utf8_cons (c : Char) (s : Str) : utf8 (c :: s) = String.utf8EncodeChar c ++ utf8 s :=
  rfl

@[simp] lemma utf8_append (s t : Str) : utf8 (s ++ t) = utf8 s ++ utf8 t := by
  simp [utf8]

/-- A hexadecimal digit is one ASCII byte, and reading it gives its value. -/
lemma utf8EncodeChar_digitChar (n : ℕ) (hn : n < 16) :
    ∃ byte, String.utf8EncodeChar (Nat.digitChar n) = [byte] ∧ hexValue byte = .ok n := by
  interval_cases n <;> exact ⟨_, rfl, rfl⟩

/-- The text written for some bytes has two UTF-8 bytes for each of them. -/
lemma utf8_hexEncode_length (bytes : Bytes) : (utf8 (hexEncode bytes)).length = 2 * bytes.length := by
  induction bytes with
  | nil => rfl
  | cons byte bytes ih =>
    have hbyte := byte.toNat_lt
    obtain ⟨high, hhigh, -⟩ := utf8EncodeChar_digitChar (byte.toNat / 16) (by omega)
    obtain ⟨low, hlow, -⟩ := utf8EncodeChar_digitChar (byte.toNat % 16) (by omega)
    simp only [hexEncode_cons, utf8_cons, hhigh, hlow, List.length_append, List.length_cons,
      List.length_nil, ih]
    omega

lemma decodeHexPairs_hexEncode (bytes : Bytes) : decodeHexPairs (utf8 (hexEncode bytes)) = .ok bytes := by
  induction bytes with
  | nil => rfl
  | cons byte bytes ih =>
    have hbyte := byte.toNat_lt
    obtain ⟨high, hhigh, hhighValue⟩ := utf8EncodeChar_digitChar (byte.toNat / 16) (by omega)
    obtain ⟨low, hlow, hlowValue⟩ := utf8EncodeChar_digitChar (byte.toNat % 16) (by omega)
    have hjoin : 16 * (byte.toNat / 16) + byte.toNat % 16 = byte.toNat := by omega
    simp [hexEncode_cons, hhigh, hlow, decodeHexPairs, hhighValue, hlowValue, ih, hjoin,
      bind, Except.bind, pure, Except.pure]

/-- What `hex_encode` writes, `decode_hex` reads back. -/
theorem decodeHex_hexEncode (bytes : Bytes) : decodeHex (hexEncode bytes) = .ok bytes := by
  unfold decodeHex
  simp only [Outcome.bind_eq_ok, Outcome.bailIf_eq_ok]
  refine ⟨⟨⟩, ?_, decodeHexPairs_hexEncode bytes⟩
  simp [byteLen, utf8_hexEncode_length]

/-- `decode_hex` reads back distinct strings from distinct bytes. -/
lemma hexEncode_injective {a b : Bytes} (h : hexEncode a = hexEncode b) : a = b := by
  have ha := decodeHex_hexEncode a
  rw [h, decodeHex_hexEncode b] at ha
  exact (Except.ok.inj ha).symm

/-! ### What the decoder accepts -/

lemma hexValue_ascii {byte : UInt8} {n : ℕ} (h : hexValue byte = .ok n) : byte.toNat < 128 := by
  unfold hexValue at h
  by_contra hlarge
  simp only [show ¬ (0x30 ≤ byte.toNat ∧ byte.toNat ≤ 0x39) by omega,
    show ¬ (0x61 ≤ byte.toNat ∧ byte.toNat ≤ 0x66) by omega,
    show ¬ (0x41 ≤ byte.toNat ∧ byte.toNat ≤ 0x46) by omega, if_false, bail_eq_ok] at h

/-- A character outside ASCII starts with a byte outside ASCII. -/
lemma utf8EncodeChar_ascii_or (c : Char) :
    (c.toNat < 128 ∧ (String.utf8EncodeChar c).length = 1) ∨
      ∃ byte rest, String.utf8EncodeChar c = byte :: rest ∧ 128 ≤ byte.toNat := by
  have high (a b : UInt8) (hb : 128 ≤ b.toNat) : 128 ≤ (a ||| b).toNat := by
    rw [UInt8.toNat_or]
    exact hb.trans Nat.right_le_or
  rcases Char.utf8Size_eq c with h | h | h | h
  · refine .inl ⟨?_, by simp [h]⟩
    have hval := Char.utf8Size_eq_one_iff.mp h
    have hnat : c.val.toNat ≤ 127 := UInt32.le_iff_toNat_le.mp hval
    show c.val.toNat < 128
    omega
  · exact .inr ⟨_, _, String.utf8EncodeChar_eq_cons_cons h, high _ _ (by decide)⟩
  · exact .inr ⟨_, _, String.utf8EncodeChar_eq_cons_cons_cons h, high _ _ (by decide)⟩
  · exact .inr ⟨_, _, String.utf8EncodeChar_eq_cons_cons_cons_cons h, high _ _ (by decide)⟩

/-- A string whose bytes are all ASCII has one byte for each character. -/
lemma utf8_length_of_ascii {s : Str} (h : ∀ byte ∈ utf8 s, byte.toNat < 128) :
    (utf8 s).length = s.length := by
  induction s with
  | nil => rfl
  | cons c s ih =>
    rw [utf8_cons] at h ⊢
    rcases utf8EncodeChar_ascii_or c with ⟨-, hone⟩ | ⟨byte, rest, hcode, hlarge⟩
    · rw [List.length_append, hone, ih fun byte hbyte => h byte (List.mem_append_right _ hbyte),
        List.length_cons]
      omega
    · have hsmall := h byte (by simp [hcode])
      omega

lemma decodeHexPairs_eq_ok : ∀ {input bytes : Bytes}, input.length % 2 = 0 →
    decodeHexPairs input = .ok bytes →
      input.length = 2 * bytes.length ∧ ∀ byte ∈ input, byte.toNat < 128
  | [], bytes, _, h => by
    obtain rfl : [] = bytes := by simpa [decodeHexPairs] using h
    simp
  | [_], _, heven, _ => by simp at heven
  | high :: low :: rest, bytes, heven, h => by
    simp only [decodeHexPairs, Outcome.bind_eq_ok, Outcome.pure_eq_ok] at h
    obtain ⟨n, hn, m, hm, tail, htail, rfl⟩ := h
    have hrest : rest.length % 2 = 0 := by
      simp only [List.length_cons] at heven
      omega
    obtain ⟨hlen, hascii⟩ := decodeHexPairs_eq_ok hrest htail
    refine ⟨by simp [hlen]; omega, ?_⟩
    intro byte hbyte
    rcases List.mem_cons.mp hbyte with rfl | hbyte
    · exact hexValue_ascii hn
    · rcases List.mem_cons.mp hbyte with rfl | hbyte
      · exact hexValue_ascii hm
      · exact hascii byte hbyte

/-- What the decoder accepts has two characters for each byte it returns. -/
theorem decodeHex_length {s : Str} {bytes : Bytes} (h : decodeHex s = .ok bytes) :
    s.length = 2 * bytes.length := by
  simp only [decodeHex, Outcome.bind_eq_ok, Outcome.bailIf_eq_ok, not_not] at h
  obtain ⟨_, heven, hpairs⟩ := h
  obtain ⟨hlen, hascii⟩ := decodeHexPairs_eq_ok heven hpairs
  rw [← utf8_length_of_ascii hascii, hlen]

lemma decodeHexArray_eq_ok {n : ℕ} {s : Str} {array : FixedBytes n} :
    decodeHexArray n s = .ok array ↔ decodeHex s = .ok array.val := by
  simp only [decodeHexArray, Outcome.bind_eq_ok, fixed_eq_ok]
  constructor
  · rintro ⟨bytes, hbytes, hval⟩
    rw [hval, hbytes]
  · intro h
    exact ⟨_, h, rfl⟩

lemma decodeHexArray_length {n : ℕ} {s : Str} {array : FixedBytes n}
    (h : decodeHexArray n s = .ok array) : s.length = 2 * n := by
  rw [decodeHex_length (decodeHexArray_eq_ok.mp h), array.property]

/-- A written array is read back. -/
@[simp] lemma decodeHexArray_hexEncode {n : ℕ} (array : FixedBytes n) :
    decodeHexArray n (hexEncode array.val) = .ok array :=
  decodeHexArray_eq_ok.mpr (decodeHex_hexEncode array.val)

end Iuna
