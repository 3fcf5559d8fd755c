import Iuna.Adapters.StrictCompact
import Iuna.Library.Respelling

/-!
# Integers, bytes and references of the compact codec

The loop of `CompactReader::varint` ors groups of seven bits together and drops what is shifted
beyond 64 bits; `Grouped` says what it makes of the groups it consumed, and from it follows which
spellings `varint` of the writer reproduces.  Byte fields, texts and references to a table are
built on it.
-/

namespace Iuna

open Respelling

/-! ## Integers -/

/-- The integer that base-128 groups stand for, lowest first. -/
def groupsValue (groups : Bytes) : ℕ :=
  groups.foldr (fun byte value => byte.toNat % 128 + 128 * value) 0

lemma groupsValue_varint {fuel n : ℕ} (h : n < 128 ^ (fuel + 1)) :
    groupsValue (Wire.varint fuel n) = n := by
  induction fuel generalizing n with
  | zero =>
    have : n < 128 := by simpa using h
    simp only [Wire.varint, groupsValue, List.foldr_cons, List.foldr_nil, UInt8.toNat_ofNat']
    omega
  | succ fuel ih =>
    unfold Wire.varint
    split
    · simp only [groupsValue, List.foldr_cons, List.foldr_nil, UInt8.toNat_ofNat']
      omega
    · have hdiv : n / 128 < 128 ^ (fuel + 1) := by
        rw [Nat.div_lt_iff_lt_mul (by decide)]
        rwa [Nat.pow_succ] at h
      have hrec := ih hdiv
      rw [groupsValue] at hrec
      simp only [groupsValue, List.foldr_cons, hrec, UInt8.toNat_ofNat']
      omega

lemma u8_eq_ok {s : EncodeTables} {bytes : Bytes} {x : (ℕ × EncodeTables) × Bytes} :
    CompactReader.u8 s bytes = .ok x ↔
      ∃ byte rest, bytes = byte :: rest ∧ x = ((byte.toNat, s), rest) := by
  unfold CompactReader.u8 CompactReader.take
  cases bytes with
  | nil =>
    simp only [read_bind_eq_ok, Accepts]
    constructor
    · rintro ⟨a, s', rest, h, -⟩
      cases h
    · rintro ⟨byte, rest, h, -⟩
      cases h
  | cons byte rest =>
    simp only [read_bind_eq_ok, read_pure_eq_ok, Accepts]
    constructor
    · rintro ⟨a, s', rest', h, rfl⟩
      have h' : Except.ok (([byte], s), rest) = (Except.ok ((a, s'), rest') : Except Error _) := h
      simp only [Except.ok.injEq, Prod.mk.injEq] at h'
      obtain ⟨⟨rfl, rfl⟩, rfl⟩ := h'
      exact ⟨byte, rest, rfl, by simp [Wire.ofBigEndian]⟩
    · rintro ⟨byte', rest', h, rfl⟩
      obtain ⟨rfl, rfl⟩ : byte = byte' ∧ rest = rest' := by simpa using h
      exact ⟨[byte], s, rest, rfl, by simp [Wire.ofBigEndian]⟩

lemma check_eq_ok {α : Type} {y : Result α} {s : EncodeTables} {bytes : Bytes}
    {x : (α × EncodeTables) × Bytes} :
    CompactReader.check y s bytes = .ok x ↔ ∃ a, y = .ok a ∧ x = ((a, s), bytes) :=
  read_lift_eq_ok

lemma fail_ne_ok {α : Type} {text : String} {s : EncodeTables} {bytes : Bytes}
    {x : (α × EncodeTables) × Bytes} : CompactReader.fail text s bytes ≠ .ok x := by
  intro h
  obtain ⟨a, ha, -⟩ := check_eq_ok.mp h
  cases ha

lemma u8_bind_eq_ok {β : Type} {f : ℕ → CompactReader β} {s : EncodeTables} {bytes : Bytes}
    {x : (β × EncodeTables) × Bytes} :
    (CompactReader.u8 >>= f) s bytes = .ok x ↔
      ∃ byte rest, bytes = byte :: rest ∧ f byte.toNat s rest = .ok x := by
  rw [read_bind_eq_ok]
  constructor
  · rintro ⟨a, s', rest, hbyte, h⟩
    obtain ⟨byte, rest', rfl, hx⟩ := u8_eq_ok.mp hbyte
    obtain ⟨⟨rfl, rfl⟩, rfl⟩ : (a = byte.toNat ∧ s' = s) ∧ rest = rest' := by simpa using hx
    exact ⟨byte, rest, rfl, h⟩
  · rintro ⟨byte, rest, rfl, h⟩
    exact ⟨byte.toNat, s, rest, u8_eq_ok.mpr ⟨byte, rest, rfl, rfl⟩, h⟩

lemma check_bind_eq_ok {α β : Type} {y : Result α} {f : α → CompactReader β} {s : EncodeTables}
    {bytes : Bytes} {x : (β × EncodeTables) × Bytes} :
    (CompactReader.check y >>= f) s bytes = .ok x ↔ ∃ a, y = .ok a ∧ f a s bytes = .ok x := by
  rw [read_bind_eq_ok]
  constructor
  · rintro ⟨a, s', rest, hcheck, h⟩
    obtain ⟨a', ha, hx⟩ := check_eq_ok.mp hcheck
    obtain ⟨⟨rfl, rfl⟩, rfl⟩ : (a = a' ∧ s' = s) ∧ rest = bytes := by simpa using hx
    exact ⟨a, ha, h⟩
  · rintro ⟨a, ha, h⟩
    exact ⟨a, s, bytes, check_eq_ok.mpr ⟨a, ha, rfl⟩, h⟩

lemma ite_eq_ok {α : Type} {c : Prop} [Decidable c] {r q : CompactReader α} {s : EncodeTables}
    {bytes : Bytes} {x : (α × EncodeTables) × Bytes} :
    (if c then r else q) s bytes = .ok x ↔ if c then r s bytes = .ok x else q s bytes = .ok x := by
  split <;> rfl

/-- One round of the reading loop. -/
lemma varintLoop_eq_ok {fuel shift value : ℕ} {s : EncodeTables} {bytes : Bytes}
    {x : (ℕ × EncodeTables) × Bytes} :
    CompactReader.varintLoop (fuel + 1) shift value s bytes = .ok x ↔
      ∃ byte rest, bytes = byte :: rest ∧
        if byte.toNat < 128 then
          x = ((value ||| (((byte.toNat % 128) <<< shift) % 2 ^ 64), s), rest)
        else CompactReader.varintLoop fuel (shift + 7)
          (value ||| (((byte.toNat % 128) <<< shift) % 2 ^ 64)) s rest = .ok x := by
  rw [CompactReader.varintLoop, u8_bind_eq_ok]
  simp only [ite_eq_ok, read_pure_eq_ok]

/-- One round of the strict loop. -/
lemma strict_varintLoop_eq_ok {fuel shift value : ℕ} {s : EncodeTables} {bytes : Bytes}
    {x : (ℕ × EncodeTables) × Bytes} :
    Strict.varintLoop (fuel + 1) shift value s bytes = .ok x ↔
      ∃ byte rest, bytes = byte :: rest ∧ ¬ (byte.toNat = 0 ∧ shift ≠ 0) ∧
        ¬ (1 < byte.toNat ∧ shift = 63) ∧
        if byte.toNat < 128 then
          x = ((value ||| (((byte.toNat % 128) <<< shift) % 2 ^ 64), s), rest)
        else Strict.varintLoop fuel (shift + 7)
          (value ||| (((byte.toNat % 128) <<< shift) % 2 ^ 64)) s rest = .ok x := by
  rw [Strict.varintLoop, u8_bind_eq_ok]
  simp only [check_bind_eq_ok, Outcome.bailIf_eq_ok, exists_const, ite_eq_ok, read_pure_eq_ok]

/-- What the loop makes of the groups it consumed. -/
structure Grouped (fuel shift value : ℕ) (s : EncodeTables) (n : ℕ) (spelling rest : Bytes) :
    Prop where
  result : n = value ||| ((groupsValue spelling <<< shift) % 2 ^ 64)
  shorter : (Wire.varint fuel (groupsValue spelling)).length ≤ spelling.length
  exact : Strict.varintLoop (fuel + 1) shift value s (spelling ++ rest) = .ok ((n, s), rest) ↔
    Wire.varint fuel (groupsValue spelling) = spelling ∧
      groupsValue spelling < 2 * 128 ^ fuel ∧ (shift ≠ 0 → groupsValue spelling ≠ 0)
  agree : ∀ x, Strict.varintLoop (fuel + 1) shift value s (spelling ++ rest) = .ok x →
    x = ((n, s), rest)

lemma or_groups {value low high shift : ℕ} (h : low < 128) :
    value ||| ((low <<< shift) % 2 ^ 64) ||| ((high <<< (shift + 7)) % 2 ^ 64) =
      value ||| (((low + 128 * high) <<< shift) % 2 ^ 64) := by
  have hsum : low + 128 * high = high <<< 7 ||| low := by
    rw [← Nat.shiftLeft_add_eq_or_of_lt (by omega : low < 2 ^ 7), Nat.shiftLeft_eq]
    omega
  rw [hsum, Nat.shiftLeft_or_distrib, ← Nat.shiftLeft_add, Nat.or_mod_two_pow, Nat.or_assoc,
    Nat.or_comm (low <<< shift % 2 ^ 64), Nat.add_comm 7]

lemma varintLoop_grouped {fuel shift value : ℕ} {s s' : EncodeTables} {bytes rest : Bytes} {n : ℕ}
    (hshift : 7 * fuel + shift = 63)
    (h : CompactReader.varintLoop (fuel + 1) shift value s bytes = .ok ((n, s'), rest)) :
    ∃ spelling, bytes = spelling ++ rest ∧ s' = s ∧ Grouped fuel shift value s n spelling rest := by
  induction fuel generalizing shift value bytes with
  | zero =>
    obtain ⟨byte, rest', rfl, hround⟩ := varintLoop_eq_ok.mp h
    by_cases hlt : byte.toNat < 128
    · rw [if_pos hlt] at hround
      obtain ⟨⟨rfl, rfl⟩, rfl⟩ : (n = _ ∧ s' = s) ∧ rest = rest' := by
        simpa only [Prod.mk.injEq] using hround
      have hgroups : groupsValue [byte] = byte.toNat := by
        simp only [groupsValue, List.foldr_cons, List.foldr_nil]
        omega
      refine ⟨[byte], rfl, rfl, ?_, ?_, ?_, ?_⟩
      · rw [hgroups, Nat.mod_eq_of_lt hlt]
      · rw [hgroups]
        simp [Wire.varint]
      · rw [hgroups, strict_varintLoop_eq_ok]
        have hwritten : Wire.varint 0 byte.toNat = [byte] := by simp [Wire.varint]
        constructor
        · rintro ⟨byte', rest'', hbytes, hpadded, hwide, -⟩
          obtain ⟨rfl, rfl⟩ : byte = byte' ∧ rest = rest'' := by simpa using hbytes
          exact ⟨hwritten, by omega, by omega⟩
        · rintro ⟨-, hlow, hzero⟩
          exact ⟨byte, rest, rfl, by omega, by omega, by rw [if_pos hlt]⟩
      · intro x hx
        obtain ⟨byte', rest'', hbytes, -, -, hx⟩ := strict_varintLoop_eq_ok.mp hx
        obtain ⟨rfl, rfl⟩ : byte = byte' ∧ rest = rest'' := by simpa using hbytes
        rwa [if_pos hlt] at hx
    · rw [if_neg hlt] at hround
      exact absurd hround fail_ne_ok
  | succ fuel ih =>
    obtain ⟨byte, rest', rfl, hround⟩ := varintLoop_eq_ok.mp h
    by_cases hlt : byte.toNat < 128
    · rw [if_pos hlt] at hround
      obtain ⟨⟨rfl, rfl⟩, rfl⟩ : (n = _ ∧ s' = s) ∧ rest = rest' := by
        simpa only [Prod.mk.injEq] using hround
      have hgroups : groupsValue [byte] = byte.toNat := by
        simp only [groupsValue, List.foldr_cons, List.foldr_nil]
        omega
      have hwritten : Wire.varint (fuel + 1) byte.toNat = [byte] := by simp [Wire.varint, hlt]
      have hpow : 128 ≤ 128 ^ (fuel + 1) := Nat.le_self_pow (by omega) 128
      refine ⟨[byte], rfl, rfl, ?_, ?_, ?_, ?_⟩
      · rw [hgroups, Nat.mod_eq_of_lt hlt]
      · rw [hgroups, hwritten]
      · rw [hgroups, strict_varintLoop_eq_ok]
        constructor
        · rintro ⟨byte', rest'', hbytes, hpadded, hwide, -⟩
          obtain ⟨rfl, rfl⟩ : byte = byte' ∧ rest = rest'' := by simpa using hbytes
          exact ⟨hwritten, by omega, by omega⟩
        · rintro ⟨-, hlow, hzero⟩
          exact ⟨byte, rest, rfl, by omega, by omega, by rw [if_pos hlt]⟩
      · intro x hx
        obtain ⟨byte', rest'', hbytes, -, -, hx⟩ := strict_varintLoop_eq_ok.mp hx
        obtain ⟨rfl, rfl⟩ : byte = byte' ∧ rest = rest'' := by simpa using hbytes
        rwa [if_pos hlt] at hx
    · rw [if_neg hlt] at hround
      obtain ⟨p, rfl, rfl, hp⟩ := ih (by omega) hround
      have hgroups : groupsValue (byte :: p) = byte.toNat % 128 + 128 * groupsValue p := rfl
      have hbyte : byte.toNat < 256 := byte.toNat_lt
      have hlow : byte.toNat % 128 < 128 := Nat.mod_lt _ (by decide)
      refine ⟨byte :: p, rfl, rfl, ?_, ?_, ?_, ?_⟩
      · rw [hp.result, hgroups, or_groups hlow]
      · rw [hgroups]
        unfold Wire.varint
        split
        · simp
        · have hdiv : (byte.toNat % 128 + 128 * groupsValue p) / 128 = groupsValue p := by omega
          rw [hdiv]
          simpa using hp.shorter
      · rw [hgroups, List.cons_append, strict_varintLoop_eq_ok]
        have hstep : (∃ byte' rest'', byte :: (p ++ rest) = byte' :: rest'' ∧
            ¬ (byte'.toNat = 0 ∧ shift ≠ 0) ∧ ¬ (1 < byte'.toNat ∧ shift = 63) ∧
            if byte'.toNat < 128 then ((n, s'), rest) =
                ((value ||| (((byte'.toNat % 128) <<< shift) % 2 ^ 64), s'), rest'')
            else Strict.varintLoop (fuel + 1) (shift + 7)
              (value ||| (((byte'.toNat % 128) <<< shift) % 2 ^ 64)) s' rest'' =
                .ok ((n, s'), rest)) ↔
            Strict.varintLoop (fuel + 1) (shift + 7)
              (value ||| (((byte.toNat % 128) <<< shift) % 2 ^ 64)) s' (p ++ rest) =
                .ok ((n, s'), rest) := by
          constructor
          · rintro ⟨byte', rest'', hbytes, -, -, hx⟩
            obtain ⟨rfl, rfl⟩ : byte = byte' ∧ p ++ rest = rest'' := by simpa using hbytes
            rwa [if_neg hlt] at hx
          · intro hx
            exact ⟨byte, p ++ rest, rfl, by omega, by omega, by rwa [if_neg hlt]⟩
        rw [hstep, hp.exact]
        have hpow : 128 ^ (fuel + 1) = 128 * 128 ^ fuel := by rw [Nat.pow_succ, Nat.mul_comm]
        by_cases hzero : groupsValue p = 0
        · -- an empty rest of groups is padding
          have hwritten : Wire.varint (fuel + 1) (byte.toNat % 128 + 128 * groupsValue p) =
              [UInt8.ofNat (byte.toNat % 128)] := by
            rw [hzero]
            simp [Wire.varint, hlow]
          constructor
          · rintro ⟨-, -, hne⟩
            exact absurd hzero (hne (by omega))
          · rintro ⟨hsame, -, -⟩
            rw [hwritten] at hsame
            have hhead := congrArg UInt8.toNat (List.cons.inj hsame).1
            simp only [UInt8.toNat_ofNat'] at hhead
            omega
        · have hwritten : Wire.varint (fuel + 1) (byte.toNat % 128 + 128 * groupsValue p) =
              byte :: Wire.varint fuel (groupsValue p) := by
            rw [Wire.varint, if_neg (by omega)]
            have hdiv : (byte.toNat % 128 + 128 * groupsValue p) / 128 = groupsValue p := by omega
            have hmod : (byte.toNat % 128 + 128 * groupsValue p) % 128 + 128 = byte.toNat := by
              omega
            rw [hdiv, hmod, UInt8.ofNat_toNat]
          rw [hwritten, List.cons.injEq]
          constructor
          · rintro ⟨hsame, hbound, -⟩
            exact ⟨⟨rfl, hsame⟩, by omega, by omega⟩
          · rintro ⟨⟨-, hsame⟩, hbound, -⟩
            exact ⟨hsame, by omega, fun _ => hzero⟩
      · intro x hx
        obtain ⟨byte', rest'', hbytes, -, -, hx⟩ := strict_varintLoop_eq_ok.mp hx
        obtain ⟨rfl, rfl⟩ : byte = byte' ∧ p ++ rest = rest'' := by simpa using hbytes
        rw [if_neg hlt] at hx
        exact hp.agree _ hx

/-- An integer is the value of its groups, reduced to 64 bits. -/
lemma varint_eq_ok {s s' : EncodeTables} {bytes rest : Bytes} {n : ℕ}
    (h : CompactReader.varint s bytes = .ok ((n, s'), rest)) :
    ∃ spelling, bytes = spelling ++ rest ∧ s' = s ∧ n = groupsValue spelling % 2 ^ 64 ∧
      Grouped 9 0 0 s n spelling rest := by
  obtain ⟨p, hbytes, hs, hp⟩ := varintLoop_grouped (by decide : 7 * 9 + 0 = 63) h
  exact ⟨p, hbytes, hs, by simpa using hp.result, hp⟩

lemma respells_varint (s : EncodeTables) :
    Respells s CompactReader.varint Strict.varint
      fun n => (pure (CompactWriter.varint n) : CompactWriter) := by
  intro bytes n s' rest h
  obtain ⟨p, rfl, rfl, hn, hp⟩ := varint_eq_ok h
  have hshort : (CompactWriter.varint n).length ≤ p.length :=
    le_trans (Wire.varint_length_mono (hn ▸ Nat.mod_le _ _)) hp.shorter
  refine ⟨p, rfl, ?_, ?_, hp.agree⟩
  · intro out t hout
    obtain ⟨rfl, rfl⟩ := writes_pure.mp hout
    exact ⟨rfl, hshort⟩
  · rw [write_pure_eq_ok, Accepts, Strict.varint, hp.exact]
    have hbound : n < 128 ^ 10 := lt_of_lt_of_le (hn ▸ Nat.mod_lt _ (by decide)) (by decide)
    constructor
    · intro hsame
      have hspelling : p = Wire.varint 9 n := (Prod.mk.inj hsame).1
      have hvalue : groupsValue p = n := by rw [hspelling, groupsValue_varint hbound]
      refine ⟨by rw [hvalue, ← hspelling], ?_, by simp⟩
      rw [hvalue, hn]
      exact Nat.mod_lt _ (by decide)
    · rintro ⟨hsame, hlt, -⟩
      have hvalue : n = groupsValue p := by
        rw [hn, Nat.mod_eq_of_lt]
        exact lt_of_lt_of_le hlt (by decide)
      rw [CompactWriter.varint, hvalue, hsame]

lemma check_bind_pure {α β : Type} {x : Result α} {f : α → β} :
    (CompactReader.check x >>= fun a => (pure (f a) : CompactReader β)) =
      CompactReader.check (x >>= fun a => .ok (f a)) := by
  cases x with
  | error e => rfl
  | ok a => rfl

lemma write_lift_eq_ok {α : Type} {x : Result α} {s : EncodeTables} {y : α × EncodeTables} :
    (liftM x : StateT EncodeTables Result α) s = .ok y ↔ ∃ a, x = .ok a ∧ y = (a, s) := by
  cases x with
  | error e =>
    constructor
    · intro h
      cases h
    · rintro ⟨a, h, -⟩
      cases h
  | ok a =>
    constructor
    · intro h
      cases h
      exact ⟨a, rfl, rfl⟩
    · rintro ⟨a', h, rfl⟩
      cases h
      rfl

/-! ## Bytes and texts -/

lemma takenBytes_eq_ok {n : ℕ} {s : EncodeTables} {bytes : Bytes} {x : (Bytes × EncodeTables) × Bytes} :
    CompactReader.take n s bytes = .ok x ↔
      n ≤ bytes.length ∧ x = ((bytes.take n, s), bytes.drop n) := by
  have hunfold : CompactReader.take n s bytes =
      if bytes.length < n then .error (.message "unexpected end of compact chain snapshot")
      else .ok ((bytes.take n, s), bytes.drop n) := by
    show Wire.Reader.bind (Wire.Reader.take n _) _ bytes = _
    unfold Wire.Reader.bind Wire.Reader.take
    by_cases hlt : bytes.length < n
    · rw [if_pos hlt, if_pos hlt]
    · rw [if_neg hlt, if_neg hlt]
      rfl
  rw [hunfold]
  split
  · rename_i hlt
    constructor
    · intro h
      cases h
    · rintro ⟨hle, -⟩
      omega
  · rename_i hge
    simp only [Except.ok.injEq]
    constructor
    · rintro rfl
      exact ⟨by omega, rfl⟩
    · rintro ⟨-, rfl⟩
      rfl

lemma respells_take (s : EncodeTables) (n : ℕ) :
    Respells s (CompactReader.take n) (CompactReader.take n)
      fun bytes => (pure bytes : CompactWriter) := by
  intro bytes a s' rest h
  obtain ⟨hle, hx⟩ := takenBytes_eq_ok.mp h
  obtain ⟨⟨rfl, rfl⟩, rfl⟩ : (a = bytes.take n ∧ s' = s) ∧ rest = bytes.drop n := by
    simpa only [Prod.mk.injEq] using hx
  have hsplit : bytes = bytes.take n ++ bytes.drop n := (List.take_append_drop n bytes).symm
  refine ⟨bytes.take n, hsplit, ?_, ?_, ?_⟩
  · intro out t hout
    obtain ⟨rfl, rfl⟩ := writes_pure.mp hout
    exact ⟨rfl, le_rfl⟩
  · rw [Accepts, ← hsplit]
    exact ⟨fun _ => h, fun _ => rfl⟩
  · intro x hstrict
    rw [← hsplit] at hstrict
    exact (takenBytes_eq_ok.mp hstrict).2

lemma fixedHex_hexEncode {n : ℕ} {bytes : Bytes} (label : String) (hlength : bytes.length = n) :
    CompactWriter.fixedHex n (hexEncode bytes) label = .ok bytes := by
  unfold CompactWriter.fixedHex
  rw [decodeHex_hexEncode]
  simp only [Outcome.mapErr, Outcome.bind_eq_ok, Outcome.bailIf_eq_ok, Outcome.pure_eq_ok]
  exact ⟨bytes, rfl, ⟨⟩, by simpa using hlength, rfl⟩

lemma write_fixedHex {n : ℕ} {bytes : Bytes} (label : String) (s : EncodeTables)
    (hlength : bytes.length = n) :
    (liftM (CompactWriter.fixedHex n (hexEncode bytes) label) : CompactWriter) s =
      .ok (bytes, s) :=
  write_lift_eq_ok.mpr ⟨bytes, fixedHex_hexEncode label hlength, rfl⟩

lemma respells_fixedHex (s : EncodeTables) (n : ℕ) (label : String) :
    Respells s (CompactReader.fixedHex n) (CompactReader.fixedHex n)
      fun value => (liftM (CompactWriter.fixedHex n value label) : CompactWriter) := by
  refine (respells_take s n).map (g := hexEncode) rfl rfl ?_
  intro bytes a s' rest h
  obtain ⟨hle, hx⟩ := takenBytes_eq_ok.mp h
  obtain ⟨⟨rfl, rfl⟩, rfl⟩ : (a = bytes.take n ∧ s' = s) ∧ rest = bytes.drop n := by
    simpa only [Prod.mk.injEq] using hx
  rw [write_fixedHex label s' (List.length_take_of_le hle)]
  rfl

lemma respells_u8 (s : EncodeTables) :
    Respells s CompactReader.u8 CompactReader.u8
      fun value => (pure [UInt8.ofNat value] : CompactWriter) := by
  intro bytes a s' rest h
  obtain ⟨byte, rest', rfl, hx⟩ := u8_eq_ok.mp h
  obtain ⟨⟨rfl, rfl⟩, rfl⟩ : (a = byte.toNat ∧ s' = s) ∧ rest = rest' := by
    simpa only [Prod.mk.injEq] using hx
  refine ⟨[byte], rfl, ?_, ?_, ?_⟩
  · intro out t hout
    obtain ⟨rfl, rfl⟩ := writes_pure.mp hout
    exact ⟨rfl, le_rfl⟩
  · refine ⟨fun _ => h, fun _ => ?_⟩
    rw [UInt8.ofNat_toNat]
    rfl
  · intro x hstrict
    have hsame := h.symm.trans hstrict
    simpa using hsame.symm

lemma respells_boundedUsize (s : EncodeTables) (label : String) (max : ℕ) :
    Respells s (CompactReader.boundedUsize label max) (Strict.boundedUsize label max)
      fun n => (pure (CompactWriter.varint n) : CompactWriter) :=
  (respells_varint s).checked rfl rfl

lemma respells_u32 (s : EncodeTables) :
    Respells s CompactReader.u32 Strict.u32
      fun n => (pure (CompactWriter.varint n) : CompactWriter) :=
  (respells_varint s).checked rfl rfl

/-- The length and content of a byte field. -/
lemma respells_field (s : EncodeTables) (label : String) :
    Respells s
      (pair (CompactReader.boundedUsize label maxCompactByteField) CompactReader.take)
      (pair (Strict.boundedUsize label maxCompactByteField) CompactReader.take)
      (pairWriter (fun n => (pure (CompactWriter.varint n) : CompactWriter))
        fun _ bytes => (pure bytes : CompactWriter)) :=
  (respells_boundedUsize s label maxCompactByteField).pair fun _ n s' _ _ => respells_take s' n

lemma field_length {s s' : EncodeTables} {label : String} {bytes rest : Bytes} {a : ℕ × Bytes}
    (h : Accepts (pair (CompactReader.boundedUsize label maxCompactByteField) CompactReader.take)
      s bytes a s' rest) : a.2.length = a.1 := by
  obtain ⟨n, s₁, rest₁, content, s₂, rest₂, -, htake, hx⟩ := accepts_pair.mp h
  obtain ⟨hle, hcontent⟩ := takenBytes_eq_ok.mp htake
  obtain ⟨⟨rfl, -⟩, -⟩ : (a = (n, content) ∧ s' = s₂) ∧ rest = rest₂ := by
    simpa only [Prod.mk.injEq] using hx
  obtain ⟨⟨rfl, -⟩, -⟩ : (content = rest₁.take n ∧ s₂ = s₁) ∧ rest₂ = rest₁.drop n := by
    simpa only [Prod.mk.injEq] using hcontent
  exact List.length_take_of_le hle

lemma write_hex (bytes : Bytes) (s : EncodeTables) :
    (liftM (CompactWriter.hex (hexEncode bytes)) : CompactWriter) s =
      .ok (CompactWriter.varint bytes.length ++ bytes, s) := by
  refine write_lift_eq_ok.mpr ⟨_, ?_, rfl⟩
  unfold CompactWriter.hex
  rw [decodeHex_hexEncode]
  rfl

lemma respells_hex (s : EncodeTables) :
    Respells s CompactReader.hex Strict.hex
      fun value => (liftM (CompactWriter.hex value) : CompactWriter) := by
  refine (respells_field s "byte field length").map (g := fun a => hexEncode a.2) ?_ ?_ ?_
  · simp only [CompactReader.hex, pair, bind_assoc, pure_bind]
  · simp only [Strict.hex, pair, bind_assoc, pure_bind]
  · intro bytes a s' rest h
    rw [write_hex, field_length h]
    rfl

lemma utf8_fromUtf8 {bytes : Bytes} {value : Str} (h : CompactReader.fromUtf8 bytes = some value) :
    utf8 value = bytes := by
  unfold CompactReader.fromUtf8 at h
  obtain ⟨chars, hchars, rfl⟩ := Option.map_eq_some_iff.mp h
  have hsome : bytes.toByteArray.utf8Decode?.isSome := by rw [hchars]; rfl
  have hencode := ByteArray.utf8Encode_get_utf8Decode? (b := bytes.toByteArray) (h := hsome)
  simp only [hchars, Option.get_some] at hencode
  have hlist := congrArg (fun b : ByteArray => b.data.toList) hencode
  simpa [List.utf8Encode, utf8] using hlist

lemma respells_string (s : EncodeTables) :
    Respells s CompactReader.string Strict.string
      fun value => (pure (CompactWriter.string value) : CompactWriter) := by
  refine (respells_field s "string length").same (f := fun a =>
    orError "compact string is not valid UTF-8" (CompactReader.fromUtf8 a.2)) ?_ ?_ ?_
  · simp only [CompactReader.string, pair, bind_assoc, pure_bind]
    rfl
  · simp only [Strict.string, pair, bind_assoc, pure_bind]
    rfl
  · intro bytes a b s' rest h hb
    have hutf8 := utf8_fromUtf8 (Outcome.ofOption_eq_ok.mp hb)
    rw [CompactWriter.string, byteLen, hutf8, field_length h]
    rfl

/-! ## References -/

/-- A listed value has a first position, not after any other. -/
lemma idxOf?_le {α : Type} [BEq α] [LawfulBEq α] {values : List α} {index : ℕ} {value : α}
    (h : values[index]? = some value) :
    ∃ first, values.idxOf? value = some first ∧ first ≤ index := by
  obtain ⟨hlt, hvalue⟩ := List.getElem?_eq_some_iff.mp h
  have hmem : value ∈ values := List.mem_of_getElem? h
  obtain ⟨first, hfirst⟩ := Option.isSome_iff_exists.mp (List.isSome_idxOf?.mpr hmem)
  refine ⟨first, hfirst, ?_⟩
  obtain ⟨hbound, -, hbefore⟩ := List.idxOf?_eq_some_iff.mp hfirst
  by_contra hgt
  exact hbefore index (by omega) hvalue

lemma firstAt_eq_ok {α : Type} [BEq α] [LawfulBEq α] {values : List α} {index : ℕ} {error : String}
    {value : α} :
    Strict.firstAt values index error = .ok value ↔
      values[index]? = some value ∧ values.idxOf? value = some index := by
  unfold Strict.firstAt
  simp only [Outcome.bind_eq_ok, Outcome.ofOption_eq_ok, Outcome.bailIf_eq_ok, Outcome.pure_eq_ok,
    not_not, exists_const]
  constructor
  · rintro ⟨v, hv, hfirst, rfl⟩
    exact ⟨hv, hfirst⟩
  · rintro ⟨hv, hfirst⟩
    exact ⟨value, hv, hfirst, rfl⟩

/-- The shape of every reference: an integer within its bound, then the value at that position. -/
def reference {α : Type} (values : EncodeTables → List α) (bound : ℕ → Result Unit)
    (error : String) : CompactReader α := do
  let index ← CompactReader.varint
  let _ ← CompactReader.check (bound index)
  let tables ← get
  CompactReader.check (orError error (values tables)[index]?)

def strictReference {α : Type} [BEq α] [LawfulBEq α] (values : EncodeTables → List α)
    (bound : ℕ → Result Unit) (error : String) : CompactReader α := do
  let index ← Strict.varint
  let _ ← CompactReader.check (bound index)
  let tables ← get
  CompactReader.check (Strict.firstAt (values tables) index error)

/-- The first position of a value that was registered before. -/
def writeReference {α : Type} [BEq α] [LawfulBEq α] (values : EncodeTables → List α) (missing : Error)
    (value : α) : CompactWriter := fun tables => do
  let index ← Outcome.ofOption missing ((values tables).idxOf? value)
  pure (CompactWriter.varint index, tables)

lemma reference_position {α : Type} [BEq α] [LawfulBEq α] {values : EncodeTables → List α}
    {bound : ℕ → Result Unit} {error : String} {s s' : EncodeTables} {bytes rest : Bytes} {value : α}
    (h : Accepts (reference values bound error) s bytes value s' rest) :
    ∃ first, (values s).idxOf? value = some first := by
  obtain ⟨index, s₁, rest₁, hindex, h⟩ := read_bind_eq_ok.mp h
  obtain ⟨_, hbound, h⟩ := check_bind_eq_ok.mp h
  obtain ⟨value', hvalue, hx⟩ := check_eq_ok.mp h
  obtain ⟨⟨rfl, rfl⟩, rfl⟩ : (value = value' ∧ s' = s₁) ∧ rest = rest₁ := by
    simpa only [Prod.mk.injEq] using hx
  obtain ⟨p, rfl, rfl, hn, hp⟩ := varint_eq_ok hindex
  obtain ⟨first, hposition, -⟩ := idxOf?_le (Outcome.ofOption_eq_ok.mp hvalue)
  exact ⟨first, hposition⟩

/-- A reference is reproduced when its integer is minimal and names the first position. -/
lemma respells_reference {α : Type} [BEq α] [LawfulBEq α] (s : EncodeTables)
    (values : EncodeTables → List α) (bound : ℕ → Result Unit) (error : String) (missing : Error) :
    Respells s (reference values bound error) (strictReference values bound error)
      (writeReference values missing) := by
  intro bytes value s' rest h
  obtain ⟨index, s₁, rest₁, hindex, h⟩ := read_bind_eq_ok.mp h
  obtain ⟨_, hbound, h⟩ := check_bind_eq_ok.mp h
  obtain ⟨value', hvalue, hx⟩ := check_eq_ok.mp h
  obtain ⟨⟨rfl, rfl⟩, rfl⟩ : (value = value' ∧ s' = s₁) ∧ rest = rest₁ := by
    simpa only [Prod.mk.injEq] using hx
  obtain ⟨p, rfl, rfl, hn, hp⟩ := varint_eq_ok hindex
  obtain ⟨p', hp', part⟩ := respells_varint s' _ _ _ _ hindex
  obtain rfl : p = p' := List.append_cancel_right hp'
  replace hvalue : (values s')[index]? = some value := Outcome.ofOption_eq_ok.mp hvalue
  obtain ⟨first, hposition, hle⟩ := idxOf?_le hvalue
  have hmod : index < 2 ^ 64 := hn ▸ Nat.mod_lt _ (by decide)
  have hshort : (CompactWriter.varint first).length ≤ p.length :=
    le_trans (Wire.varint_length_mono (le_trans hle (hn ▸ Nat.mod_le _ _))) hp.shorter
  have hwrite : ∀ x, writeReference values missing value s' = .ok x ↔
      x = (CompactWriter.varint first, s') := by
    intro x
    simp only [writeReference, hposition, Outcome.bind_eq_ok, Outcome.ofOption_eq_ok, Option.some.injEq,
      Outcome.pure_eq_ok, exists_eq_left']
    exact eq_comm
  have hstrict : ∀ x, strictReference values bound error s' (p ++ rest) = .ok x ↔
      Accepts Strict.varint s' (p ++ rest) index s' rest ∧ first = index ∧
        x = ((value, s'), rest) := by
    intro x
    rw [strictReference, read_bind_eq_ok]
    constructor
    · rintro ⟨index', s₂, rest₂, hc, hrest⟩
      obtain ⟨⟨rfl, rfl⟩, rfl⟩ := part.agrees hc
      obtain ⟨-, -, hrest⟩ := check_bind_eq_ok.mp hrest
      obtain ⟨value', hfirst, rfl⟩ := check_eq_ok.mp hrest
      obtain ⟨hvalue', hposition'⟩ := firstAt_eq_ok.mp hfirst
      obtain rfl : value = value' := Option.some.inj (hvalue.symm.trans hvalue')
      exact ⟨hc, Option.some.inj (hposition.symm.trans hposition'), rfl⟩
    · rintro ⟨hc, rfl, rfl⟩
      exact ⟨first, s', rest, hc, check_bind_eq_ok.mpr ⟨(), hbound, check_eq_ok.mpr
        ⟨value, firstAt_eq_ok.mpr ⟨hvalue, hposition⟩, rfl⟩⟩⟩
  refine ⟨p, rfl, ?_, ?_, ?_⟩
  · intro out t hout
    obtain ⟨rfl, rfl⟩ : out = CompactWriter.varint first ∧ t = s' := by
      simpa only [Prod.mk.injEq] using (hwrite _).mp hout
    exact ⟨rfl, hshort⟩
  · rw [hwrite, Accepts, hstrict]
    constructor
    · intro hsame
      obtain rfl : p = CompactWriter.varint first := (Prod.mk.inj hsame).1
      have hfirst : first = index := by
        have hlt : first < 2 ^ 64 := lt_of_le_of_lt hle hmod
        rw [hn, CompactWriter.varint, groupsValue_varint (lt_of_lt_of_le hlt (by decide)),
          Nat.mod_eq_of_lt hlt]
      subst hfirst
      exact ⟨part.exact.mp rfl, rfl, rfl⟩
    · rintro ⟨hc, rfl, -⟩
      rw [(Prod.mk.inj (write_pure_eq_ok.mp (part.exact.mpr hc))).1]
  · intro x hx
    exact ((hstrict x).mp hx).2.2

end Iuna
