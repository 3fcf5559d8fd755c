import Iuna.Properties.CompactIntegers

/-!
# Addresses, protocol ids, VDF outputs and lists of the compact codec

Every field with a tag: a value that is referred to or written out, and a VDF output in one of
three packings.  A spelling is followed through the tag, the content and the change of the tables.
-/

namespace Iuna

open Respelling

lemma decodeHexPairs_digits : ∀ {input bytes : Bytes}, input.length % 2 = 0 →
    decodeHexPairs input = .ok bytes → ∀ byte ∈ input, ∃ n, hexValue byte = .ok n
  | [], _, _, _ => by simp
  | [_], _, heven, _ => by simp at heven
  | high :: low :: rest, bytes, heven, h => by
    simp only [decodeHexPairs, Outcome.bind_eq_ok, Outcome.pure_eq_ok] at h
    obtain ⟨n, hn, m, hm, tail, htail, rfl⟩ := h
    have hrest : rest.length % 2 = 0 := by
      simp only [List.length_cons] at heven
      omega
    intro byte hbyte
    rcases List.mem_cons.mp hbyte with rfl | hbyte
    · exact ⟨n, hn⟩
    · rcases List.mem_cons.mp hbyte with rfl | hbyte
      · exact ⟨m, hm⟩
      · exact decodeHexPairs_digits hrest htail byte hbyte

lemma decodeHex_digits {s : Str} {bytes : Bytes} (h : decodeHex s = .ok bytes) :
    ∀ byte ∈ utf8 s, ∃ n, hexValue byte = .ok n := by
  simp only [decodeHex, Outcome.bind_eq_ok, Outcome.bailIf_eq_ok, not_not] at h
  obtain ⟨-, heven, hpairs⟩ := h
  exact decodeHexPairs_digits heven hpairs

lemma mem_utf8_of_mem {s : Str} {c : Char} (h : c ∈ s) {byte : UInt8}
    (hbyte : byte ∈ String.utf8EncodeChar c) : byte ∈ utf8 s :=
  List.mem_flatMap.mpr ⟨c, h, hbyte⟩

lemma toLower_eq_n {c : Char} (h : c.toLower = 'n') : c = 'n' ∨ c = 'N' := by
  unfold Char.toLower at h
  split at h
  · right
    have hval : c.val + 32 = 110 := congrArg Char.val h
    have hc : c.val = 110 - 32 := by
      rw [← hval, UInt32.add_sub_cancel]
    exact Char.ext hc
  · exact .inl h

lemma mem_trim {s : Str} {c : Char} (h : c ∈ trim s) : c ∈ s := by
  unfold trim at h
  have hinner := (List.dropWhile_sublist _).subset (List.mem_reverse.mp h)
  exact (List.dropWhile_sublist _).subset (List.mem_reverse.mp hinner)

/-- A versioned address is never a hexadecimal text: its network name has a letter outside. -/
lemma decodeHex_versionedAddress [Crypto] {value : Str} {network : AddressNetwork}
    {address : VersionedAddress} (h : decodeVersionedAddress value network = .ok address)
    (bytes : Bytes) : decodeHex value ≠ .ok bytes := by
  intro hhex
  simp only [decodeVersionedAddress, Outcome.bind_eq_ok, Outcome.bailIf_eq_ok, not_not] at h
  obtain ⟨_, -, _, -, _, -, separator, -, _, -, _, hhrp, -⟩ := h
  have hmem : 'n' ∈ network.hrp := by
    cases network <;> decide
  rw [← hhrp] at hmem
  obtain ⟨c, hc, hlower⟩ := List.mem_map.mp (List.mem_of_mem_take hmem)
  have hvalue : c ∈ value := mem_trim hc
  rcases toLower_eq_n hlower with rfl | rfl
  · obtain ⟨n, hn⟩ := decodeHex_digits hhex 110 (mem_utf8_of_mem hvalue (by decide))
    simp [hexValue, bail] at hn
  · obtain ⟨n, hn⟩ := decodeHex_digits hhex 78 (mem_utf8_of_mem hvalue (by decide))
    simp [hexValue, bail] at hn

/-! ## Addresses and protocol ids -/

lemma u8_bind_cons {β : Type} (f : ℕ → CompactReader β) (s : EncodeTables) (byte : UInt8)
    (bytes : Bytes) : (CompactReader.u8 >>= f) s (byte :: bytes) = f byte.toNat s bytes := by
  have hread : CompactReader.u8 s (byte :: bytes) = .ok ((byte.toNat, s), bytes) :=
    u8_eq_ok.mpr ⟨byte, bytes, rfl, rfl⟩
  show Wire.Reader.bind (CompactReader.u8 s) (fun p : ℕ × EncodeTables => f p.1 p.2)
    (byte :: bytes) = _
  unfold Wire.Reader.bind
  rw [hread]

/-- A value registered as new. -/
def registered (add : EncodeTables → Str → EncodeTables) (known : EncodeTables → List Str)
    (error : String) (value : Str) (tables : EncodeTables) : Result (Str × EncodeTables) := do
  bailIf (value ∈ known tables) error
  .ok (value, add tables value)

lemma step_registered (add : EncodeTables → Str → EncodeTables)
    (known : EncodeTables → List Str) (error : String) (value : Str) :
    step (registered add known error value) = (do
      let tables ← get
      CompactReader.check (bailIf (value ∈ known tables) error)
      set (add tables value)
      pure value : CompactReader Str) := by
  funext tables bytes
  show _ = Wire.Reader.bind (CompactReader.check (bailIf (value ∈ known tables) _) tables) _ bytes
  unfold step registered Wire.Reader.lift
  by_cases h : value ∈ known tables
  · simp only [Outcome.bailIf, if_pos h]
    rfl
  · simp only [Outcome.bailIf, if_neg h]
    rfl

lemma newAddress_eq (value : Str) :
    CompactReader.newAddress value =
      step (registered EncodeTables.registerAddress EncodeTables.addresses
        "compact address is encoded twice instead of referenced" value) :=
  (step_registered _ _ _ _).symm

lemma registered_eq_ok {add : EncodeTables → Str → EncodeTables} {known : EncodeTables → List Str}
    {error : String} {value : Str} {tables : EncodeTables} {x : Str × EncodeTables} :
    registered add known error value tables = .ok x ↔
      value ∉ known tables ∧ x = (value, add tables value) := by
  unfold registered
  simp only [Outcome.bind_eq_ok, Outcome.bailIf_eq_ok, Except.ok.injEq, exists_const]
  exact and_congr_right fun _ => eq_comm

lemma write_key_address {content : Bytes} {s : EncodeTables} (hlength : content.length = 32)
    (h : hexEncode content ∉ s.addresses) :
    CompactWriter.address (hexEncode content) s =
      .ok (1 :: content, s.registerAddress (hexEncode content)) := by
  unfold CompactWriter.address
  rw [List.idxOf?_eq_none_iff.mpr h, decodeHex_hexEncode]
  simp only [fixedHex_hexEncode "address" hlength]
  rfl

lemma write_text_address {value : Str} {s : EncodeTables} {e : Error}
    (hhex : decodeHex value = .error e) (h : value ∉ s.addresses) :
    CompactWriter.address value s =
      .ok (2 :: CompactWriter.string value, s.registerAddress value) := by
  unfold CompactWriter.address
  rw [List.idxOf?_eq_none_iff.mpr h, hhex]
  rfl

lemma write_known_address {value : Str} {s : EncodeTables} {first : ℕ}
    (h : s.addresses.idxOf? value = some first) :
    CompactWriter.address value s = .ok (0 :: CompactWriter.varint first, s) := by
  unfold CompactWriter.address
  rw [h]
  rfl

lemma writeReference_eq {α : Type} [BEq α] [LawfulBEq α] {values : EncodeTables → List α} {missing : Error}
    {value : α} {s : EncodeTables} {first : ℕ} (h : (values s).idxOf? value = some first) :
    writeReference values missing value s = .ok (CompactWriter.varint first, s) := by
  unfold writeReference
  rw [h]
  rfl

lemma fixedHex_eq_ok {n : ℕ} {s s' : EncodeTables} {bytes rest : Bytes} {value : Str}
    (h : Accepts (CompactReader.fixedHex n) s bytes value s' rest) :
    s' = s ∧ ∃ content, content.length = n ∧ value = hexEncode content := by
  obtain ⟨content, s₁, rest₁, htake, hpure⟩ := read_bind_eq_ok.mp h
  obtain ⟨hle, hx⟩ := takenBytes_eq_ok.mp htake
  obtain ⟨⟨rfl, rfl⟩, rfl⟩ : (content = bytes.take n ∧ s₁ = s) ∧ rest₁ = bytes.drop n := by
    simpa only [Prod.mk.injEq] using hx
  obtain ⟨⟨rfl, rfl⟩, -⟩ := accepts_pure.mp hpure
  exact ⟨rfl, _, List.length_take_of_le hle, rfl⟩

lemma string_state {s s' : EncodeTables} {bytes rest : Bytes} {value : Str}
    (h : Accepts CompactReader.string s bytes value s' rest) : s' = s := by
  obtain ⟨p, -, part⟩ := respells_string s _ _ _ _ h
  exact (part.frame _ _ rfl).1.symm

/-- What is written for a value that becomes known with it. -/
def writeNew (write : Str → CompactWriter) (add : EncodeTables → Str → EncodeTables) (value : Str) :
    CompactWriter := fun tables => do
  let (bytes, _) ← write value tables
  pure (bytes, add tables value)

lemma writeNew_eq_ok {write : Str → CompactWriter} {add : EncodeTables → Str → EncodeTables}
    {value : Str} {s t : EncodeTables} {out : Bytes} :
    writeNew write add value s = .ok (out, t) ↔
      t = add s value ∧ ∃ t', write value s = .ok (out, t') := by
  unfold writeNew
  simp only [Outcome.bind_eq_ok, Outcome.pure_eq_ok, Prod.exists, Prod.mk.injEq]
  constructor
  · rintro ⟨out', t', h, rfl, rfl⟩
    exact ⟨rfl, t', h⟩
  · rintro ⟨rfl, t', h⟩
    exact ⟨out, t', h, rfl, rfl⟩

lemma writeNew_eq {write : Str → CompactWriter} {add : EncodeTables → Str → EncodeTables}
    {value : Str} {s t : EncodeTables} {bytes : Bytes} (h : write value s = .ok (bytes, t)) :
    writeNew write add value s = .ok (bytes, add s value) :=
  writeNew_eq_ok.mpr ⟨rfl, t, h⟩

lemma respells_registered {s : EncodeTables} {read strict : CompactReader Str}
    {write : Str → CompactWriter} {add : EncodeTables → Str → EncodeTables}
    {known : EncodeTables → List Str} {error : String} {read' strict' : CompactReader Str}
    (h : Respells s read strict write)
    (hread : read' = (do let a ← read; step (registered add known error a)))
    (hstrict : strict' = (do let a ← strict; step (registered add known error a)))
    (hstate : ∀ bytes value s' rest, Accepts read s bytes value s' rest → s' = s) :
    Respells s read' strict' (writeNew write add) := by
  refine h.advance hread hstrict ?_
  intro bytes a b s' t rest ha hf out u
  obtain ⟨-, hx⟩ := registered_eq_ok.mp hf
  obtain ⟨rfl, rfl⟩ : b = a ∧ t = add s' a := by simpa only [Prod.mk.injEq] using hx
  obtain rfl := hstate _ _ _ _ ha
  exact writeNew_eq_ok

/-- What a registered value was not before. -/
lemma registered_new {s s' : EncodeTables} {read : CompactReader Str}
    {add : EncodeTables → Str → EncodeTables} {known : EncodeTables → List Str} {error : String}
    {bytes rest : Bytes} {value : Str}
    (h : Accepts (do let a ← read; step (registered add known error a)) s bytes value s' rest)
    (hstate : ∀ bytes value s' rest, Accepts read s bytes value s' rest → s' = s) :
    value ∉ known s ∧ ∃ rest', Accepts read s bytes value s rest' := by
  obtain ⟨a, s₁, rest₁, ha, hstep⟩ := read_bind_eq_ok.mp h
  obtain ⟨y, hy, hsame⟩ := step_eq_ok.mp hstep
  obtain ⟨hnew, rfl⟩ := registered_eq_ok.mp hy
  obtain rfl := hstate _ _ _ _ ha
  obtain ⟨⟨rfl, -⟩, -⟩ : (value = a ∧ s' = add s₁ a) ∧ rest = rest₁ := by
    simpa only [Prod.mk.injEq] using hsame
  exact ⟨hnew, rest₁, ha⟩

section Text

variable [Crypto]

/-- A text that is checked to be a versioned address. -/
def versionedText (read : CompactReader Str) : CompactReader Str := do
  let value ← read
  let network := if (str "tiuna1").isPrefixOf value then AddressNetwork.testnet else .mainnet
  let _ ← CompactReader.check (withContext "compact versioned address is invalid"
    (decodeVersionedAddress value network))
  pure value

lemma versionedText_eq_ok {s s' : EncodeTables} {bytes rest : Bytes} {value : Str}
    (h : Accepts (versionedText CompactReader.string) s bytes value s' rest) :
    s' = s ∧ ∃ e, decodeHex value = .error e := by
  obtain ⟨text, s₁, rest₁, htext, hrest⟩ := read_bind_eq_ok.mp h
  obtain ⟨address, hversioned, hpure⟩ := check_bind_eq_ok.mp hrest
  obtain ⟨⟨rfl, rfl⟩, -⟩ := accepts_pure.mp hpure
  refine ⟨string_state htext, ?_⟩
  cases hhex : decodeHex value with
  | error e => exact ⟨e, rfl⟩
  | ok bytes =>
    exact absurd hhex (decodeHex_versionedAddress (Outcome.mapErr_eq_ok.mp hversioned) bytes)

lemma respells_versionedText (s : EncodeTables) :
    Respells s (versionedText CompactReader.string) (versionedText Strict.string)
      fun value => (pure (CompactWriter.string value) : CompactWriter) :=
  (respells_string s).checked rfl rfl

end Text

lemma respells_address [Crypto] (s : EncodeTables) :
    Respells s CompactReader.address Strict.address CompactWriter.address := by
  intro bytes value s' rest h
  obtain ⟨byte, bytes', rfl, hbody⟩ := u8_bind_eq_ok.mp h
  by_cases h0 : byte.toNat = 0
  · -- a reference
    obtain rfl : byte = 0 := UInt8.toNat_inj.mp h0
    have href : Accepts (reference EncodeTables.addresses (fun _ => .ok ())
        "compact address reference is out of bounds") s bytes' value s' rest := hbody
    obtain ⟨first, hfirst⟩ := reference_position href
    obtain ⟨p, rfl, part⟩ := respells_reference s _ _ _ (.message "") _ _ _ _ href
    refine ⟨0 :: p, rfl, part.tag 0 ?_ ?_⟩
    · intro bytes
      rw [Strict.address, u8_bind_cons]
      rfl
    · intro out t
      rw [write_known_address hfirst, writeReference_eq hfirst]
      simp [eq_comm, and_comm]
  rw [if_neg h0] at hbody
  by_cases h1 : byte.toNat = 1
  · -- a public key
    obtain rfl : byte = 1 := UInt8.toNat_inj.mp h1
    have hkey : Accepts (do
        let value ← CompactReader.fixedHex 32
        step (registered EncodeTables.registerAddress EncodeTables.addresses
          "compact address is encoded twice instead of referenced" value))
        s bytes' value s' rest := by
      simp only [← newAddress_eq]
      exact hbody
    have hstate : ∀ bytes value s' rest, Accepts (CompactReader.fixedHex 32) s bytes value s' rest →
        s' = s := fun _ _ _ _ h => (fixedHex_eq_ok h).1
    obtain ⟨hnew, _, hread⟩ := registered_new hkey hstate
    obtain ⟨-, content, hlength, rfl⟩ := fixedHex_eq_ok hread
    obtain ⟨p, rfl, part⟩ := respells_registered (respells_fixedHex s 32 "address") rfl rfl hstate
      _ _ _ _ hkey
    refine ⟨1 :: p, rfl, part.tag 1 ?_ ?_⟩
    · intro bytes
      rw [Strict.address, u8_bind_cons]
      simp only [← newAddress_eq]
      rfl
    · intro out t
      rw [write_key_address hlength hnew, writeNew_eq (write_fixedHex "address" s hlength)]
      simp [eq_comm, and_comm]
  rw [if_neg h1] at hbody
  by_cases h2 : byte.toNat = 2
  · -- a text
    obtain rfl : byte = 2 := UInt8.toNat_inj.mp h2
    have htext : Accepts (do
        let value ← versionedText CompactReader.string
        step (registered EncodeTables.registerAddress EncodeTables.addresses
          "compact address is encoded twice instead of referenced" value))
        s bytes' value s' rest := by
      simp only [← newAddress_eq, versionedText, bind_assoc, pure_bind]
      exact hbody
    have hstate : ∀ bytes value s' rest, Accepts (versionedText CompactReader.string) s bytes value
        s' rest → s' = s := fun _ _ _ _ h => (versionedText_eq_ok h).1
    obtain ⟨hnew, _, hread⟩ := registered_new htext hstate
    have hversioned := (versionedText_eq_ok hread).2
    obtain ⟨p, rfl, part⟩ := respells_registered (respells_versionedText s) rfl rfl hstate
      _ _ _ _ htext
    refine ⟨2 :: p, rfl, part.tag 2 ?_ ?_⟩
    · intro bytes
      rw [Strict.address, u8_bind_cons]
      simp only [← newAddress_eq, versionedText, bind_assoc, pure_bind]
      rfl
    · intro out t
      obtain ⟨e, he⟩ := hversioned
      rw [write_text_address he hnew, writeNew_eq (t := s) rfl]
      simp [eq_comm, and_comm]
  · rw [if_neg h2] at hbody
    exact absurd hbody fail_ne_ok

lemma write_known_id {value : Str} {s : EncodeTables} {first : ℕ}
    (h : s.protocolIds.idxOf? value = some first) :
    CompactWriter.protocolIdRef value s = .ok (0 :: CompactWriter.varint first, s) := by
  unfold CompactWriter.protocolIdRef
  rw [h]
  rfl

lemma write_new_id {content : Bytes} {s : EncodeTables}
    (hlength : content.length = 32 ∨ content.length = 64) (h : hexEncode content ∉ s.protocolIds) :
    CompactWriter.protocolIdRef (hexEncode content) s =
      .ok ((if content.length = 32 then 1 else 2) :: content,
        s.registerProtocolId (hexEncode content)) := by
  unfold CompactWriter.protocolIdRef
  rw [List.idxOf?_eq_none_iff.mpr h]
  have hknown : ¬ (content.length ≠ 32 ∧ content.length ≠ 64) := by omega
  simp only [decodeHex_hexEncode, Outcome.mapErr, Outcome.bailIf, bind, Except.bind, hknown,
    if_false]
  rfl

lemma respells_protocolIdRef (s : EncodeTables) :
    Respells s CompactReader.protocolIdRef Strict.protocolIdRef CompactWriter.protocolIdRef := by
  intro bytes value s' rest h
  obtain ⟨byte, bytes', rfl, hbody⟩ := u8_bind_eq_ok.mp h
  by_cases h0 : byte.toNat = 0
  · -- a reference
    obtain rfl : byte = 0 := UInt8.toNat_inj.mp h0
    have href : Accepts (reference EncodeTables.protocolIds (fun _ => .ok ())
        "compact protocol id reference is out of bounds") s bytes' value s' rest := hbody
    obtain ⟨first, hfirst⟩ := reference_position href
    obtain ⟨p, rfl, part⟩ := respells_reference s _ _ _ (.message "") _ _ _ _ href
    refine ⟨0 :: p, rfl, part.tag 0 ?_ ?_⟩
    · intro bytes
      rw [Strict.protocolIdRef, u8_bind_cons]
      rfl
    · intro out t
      rw [write_known_id hfirst, writeReference_eq hfirst]
      simp [eq_comm, and_comm]
  rw [if_neg h0] at hbody
  by_cases h12 : byte.toNat = 1 ∨ byte.toNat = 2
  · -- a new id, of one of two sizes
    rw [if_pos h12] at hbody
    have hnewId : Accepts (do
        let value ← CompactReader.fixedHex (if byte.toNat = 1 then 32 else 64)
        step (registered EncodeTables.registerProtocolId EncodeTables.protocolIds
          "compact protocol id is encoded twice instead of referenced" value))
        s bytes' value s' rest := by
      simp only [step_registered]
      exact hbody
    have hstate : ∀ bytes value s' rest,
        Accepts (CompactReader.fixedHex (if byte.toNat = 1 then 32 else 64)) s bytes value s' rest →
          s' = s := fun _ _ _ _ h => (fixedHex_eq_ok h).1
    obtain ⟨hnew, _, hread⟩ := registered_new hnewId hstate
    obtain ⟨-, content, hlength, rfl⟩ := fixedHex_eq_ok hread
    obtain ⟨p, rfl, part⟩ := respells_registered
      (respells_fixedHex s (if byte.toNat = 1 then 32 else 64) "protocol id") rfl rfl hstate
      _ _ _ _ hnewId
    refine ⟨byte :: p, rfl, part.tag byte ?_ ?_⟩
    · intro bytes
      rw [Strict.protocolIdRef, u8_bind_cons, if_neg h0, if_pos h12]
      simp only [step_registered]
    · intro out t
      have hsize : content.length = 32 ∨ content.length = 64 := by
        rw [hlength]
        split <;> simp
      have htag : (if content.length = 32 then (1 : UInt8) else 2) = byte := by
        rcases h12 with h1 | h2
        · rw [if_pos (by rw [hlength, if_pos h1])]
          exact UInt8.toNat_inj.mp h1.symm
        · rw [if_neg (by rw [hlength, if_neg (by omega)]; decide)]
          exact UInt8.toNat_inj.mp h2.symm
      rw [write_new_id hsize hnew, htag, writeNew_eq (write_fixedHex "protocol id" s hlength)]
      simp [eq_comm, and_comm]
  · rw [if_neg h12] at hbody
    exact absurd hbody fail_ne_ok

/-! ## VDF outputs -/

lemma decodeHex_byteLen {s : Str} {bytes : Bytes} (h : decodeHex s = .ok bytes) :
    byteLen s = 2 * bytes.length := by
  simp only [decodeHex, Outcome.bind_eq_ok, Outcome.bailIf_eq_ok, not_not] at h
  obtain ⟨-, heven, hpairs⟩ := h
  exact (decodeHexPairs_eq_ok heven hpairs).1

lemma hex_length_le {value : Str} {out : Bytes} {n : ℕ} (h : CompactWriter.hex value = .ok out)
    (hn : byteLen value ≤ n) : out.length ≤ (CompactWriter.varint n).length + n := by
  simp only [CompactWriter.hex, Outcome.bind_eq_ok, Outcome.pure_eq_ok] at h
  obtain ⟨bytes, hbytes, rfl⟩ := h
  have hlength := decodeHex_byteLen hbytes
  have hvarint : (CompactWriter.varint bytes.length).length ≤ (CompactWriter.varint n).length :=
    Wire.varint_length_mono (by omega)
  simp only [List.length_append]
  omega

lemma not_prefix_hexEncode (content : Bytes) :
    vdfSolutionPrefix.isPrefixOf (hexEncode content) = false := by
  rw [← Bool.not_eq_true, List.isPrefixOf_iff_prefix]
  intro hprefix
  have hmem : 'l' ∈ hexEncode content := hprefix.subset (by decide)
  obtain ⟨n, hn⟩ := decodeHex_digits (decodeHex_hexEncode content) 108
    (mem_utf8_of_mem hmem (by decide))
  simp [hexValue, bail] at hn

lemma isHexText_hexEncode {content : Bytes} (h : content ≠ []) :
    CompactWriter.isHexText (hexEncode content) = true := by
  have hne : hexEncode content ≠ [] := by
    intro hnil
    have hlength := congrArg List.length hnil
    rw [hexEncode_length] at hlength
    exact h (List.length_eq_zero_iff.mp (by simpa using hlength))
  have hall : (utf8 (hexEncode content)).all fun byte => Outcome.succeeds (hexValue byte) := by
    rw [List.all_eq_true]
    intro byte hbyte
    obtain ⟨n, hn⟩ := decodeHex_digits (decodeHex_hexEncode content) byte hbyte
    rw [hn]
    rfl
  have heven : byteLen (hexEncode content) % 2 = 0 := by
    rw [byteLen, utf8_hexEncode_length]
    omega
  unfold CompactWriter.isHexText
  exact decide_eq_true ⟨heven, hne, hall⟩

/-- A text that could have been packed is written packed. -/
lemma compactVdfOutput_packed {value : Str} {out : Bytes}
    (hpacked : vdfSolutionPrefix.isPrefixOf value ∨ CompactWriter.isHexText value)
    (h : CompactWriter.compactVdfOutput value = .ok out) :
    out.length ≤ 1 + (CompactWriter.string value).length ∧ ∀ bytes, out ≠ 0 :: bytes := by
  have hstring : (CompactWriter.string value).length =
      (CompactWriter.varint (byteLen value)).length + byteLen value := by
    rw [CompactWriter.string, List.length_append, byteLen]
  unfold CompactWriter.compactVdfOutput at h
  by_cases hprefix : vdfSolutionPrefix.isPrefixOf value
  · rw [if_pos hprefix] at h
    simp only [Outcome.bind_eq_ok, Outcome.pure_eq_ok] at h
    obtain ⟨bytes, hbytes, rfl⟩ := h
    obtain ⟨suffix, rfl⟩ := List.isPrefixOf_iff_prefix.mp hprefix
    rw [List.drop_left] at hbytes
    have hle := hex_length_le (n := byteLen (vdfSolutionPrefix ++ suffix)) hbytes (by
      simp only [byteLen, utf8_append, List.length_append]
      omega)
    refine ⟨?_, by simp⟩
    rw [hstring, List.length_cons]
    omega
  · rw [if_neg hprefix] at h
    have htext : CompactWriter.isHexText value := hpacked.resolve_left hprefix
    rw [if_pos htext] at h
    simp only [Outcome.bind_eq_ok, Outcome.pure_eq_ok] at h
    obtain ⟨bytes, hbytes, rfl⟩ := h
    have hle := hex_length_le hbytes (le_refl (byteLen value))
    refine ⟨?_, by simp⟩
    rw [hstring, List.length_cons]
    omega

lemma compactVdfOutput_text {value : Str}
    (h : ¬ (vdfSolutionPrefix.isPrefixOf value ∨ CompactWriter.isHexText value)) :
    CompactWriter.compactVdfOutput value = .ok (0 :: CompactWriter.string value) := by
  unfold CompactWriter.compactVdfOutput
  rw [if_neg fun hp => h (.inl hp), if_neg fun hp => h (.inr hp)]
  rfl

lemma hex_eq_ok {s s' : EncodeTables} {bytes rest : Bytes} {value : Str}
    (h : Accepts CompactReader.hex s bytes value s' rest) :
    s' = s ∧ ∃ content, value = hexEncode content := by
  obtain ⟨n, s₁, rest₁, -, hrest⟩ := read_bind_eq_ok.mp h
  obtain ⟨content, s₂, rest₂, -, hpure⟩ := read_bind_eq_ok.mp hrest
  obtain ⟨⟨hvalue, -⟩, -⟩ := accepts_pure.mp hpure
  obtain ⟨p, -, part⟩ := respells_hex s _ _ _ _ h
  subst hvalue
  exact ⟨(part.frame _ _ (write_hex content s)).1.symm, content, rfl⟩

lemma respells_compactVdfOutput (s : EncodeTables) :
    Respells s CompactReader.compactVdfOutput Strict.compactVdfOutput
      fun value => (liftM (CompactWriter.compactVdfOutput value) : CompactWriter) := by
  intro bytes value s' rest h
  obtain ⟨byte, bytes', rfl, hbody⟩ := u8_bind_eq_ok.mp h
  by_cases h0 : byte.toNat = 0
  · -- a text
    obtain rfl : byte = 0 := UInt8.toNat_inj.mp h0
    have hread : Accepts CompactReader.string s bytes' value s' rest := hbody
    obtain rfl := string_state hread
    obtain ⟨p, rfl, part⟩ := respells_string s' _ _ _ _ hread
    have hshort := (part.frame _ _ rfl).2
    have hstrict : ∀ x, Strict.compactVdfOutput s' (0 :: p ++ rest) = .ok x ↔
        Accepts Strict.string s' (p ++ rest) value s' rest ∧
          ¬ (vdfSolutionPrefix.isPrefixOf value ∨ CompactWriter.isHexText value) ∧
          x = ((value, s'), rest) := by
      intro x
      rw [List.cons_append, Strict.compactVdfOutput, u8_bind_cons, if_pos (by rfl)]
      rw [read_bind_eq_ok]
      constructor
      · rintro ⟨text, s₁, rest₁, htext, hrest⟩
        obtain ⟨⟨rfl, rfl⟩, rfl⟩ := part.agrees htext
        obtain ⟨_, hcheck, hpure⟩ := check_bind_eq_ok.mp hrest
        exact ⟨htext, Outcome.bailIf_eq_ok.mp hcheck, read_pure_eq_ok.mp hpure⟩
      · rintro ⟨htext, hcheck, rfl⟩
        exact ⟨value, s', rest, htext, check_bind_eq_ok.mpr
          ⟨⟨⟩, Outcome.bailIf_eq_ok.mpr hcheck, read_pure_eq_ok.mpr rfl⟩⟩
    refine ⟨0 :: p, rfl, ?_, ?_, fun x hx => ((hstrict x).mp hx).2.2⟩
    · intro out t hout
      obtain ⟨out', hout', hsame⟩ := write_lift_eq_ok.mp hout
      obtain ⟨rfl, rfl⟩ : out = out' ∧ t = s' := by simpa only [Prod.mk.injEq] using hsame
      refine ⟨rfl, ?_⟩
      by_cases hpacked : vdfSolutionPrefix.isPrefixOf value ∨ CompactWriter.isHexText value
      · have hle := (compactVdfOutput_packed hpacked hout').1
        rw [List.length_cons]
        omega
      · rw [compactVdfOutput_text hpacked] at hout'
        cases hout'
        simpa using hshort
    · rw [Accepts, hstrict]
      by_cases hpacked : vdfSolutionPrefix.isPrefixOf value ∨ CompactWriter.isHexText value
      · constructor
        · intro hout
          obtain ⟨out', hout', hsame⟩ := write_lift_eq_ok.mp hout
          obtain ⟨rfl, -⟩ : 0 :: p = out' ∧ s' = s' := by simpa only [Prod.mk.injEq] using hsame
          exact absurd rfl ((compactVdfOutput_packed hpacked hout').2 p)
        · rintro ⟨-, hnot, -⟩
          exact absurd hpacked hnot
      · rw [write_lift_eq_ok, compactVdfOutput_text hpacked]
        constructor
        · rintro ⟨out', hout', hsame⟩
          cases hout'
          obtain rfl : p = CompactWriter.string value := by simpa using hsame
          exact ⟨part.exact.mp rfl, hpacked, rfl⟩
        · rintro ⟨htext, -, -⟩
          have hsame := write_pure_eq_ok.mp (part.exact.mpr htext)
          exact ⟨_, rfl, by rw [(Prod.mk.inj hsame).1]⟩
  rw [if_neg h0] at hbody
  by_cases h1 : byte.toNat = 1
  · -- a packed text
    obtain rfl : byte = 1 := UInt8.toNat_inj.mp h1
    have hread : Accepts CompactReader.hex s bytes' value s' rest := hbody
    obtain ⟨rfl, content, rfl⟩ := hex_eq_ok hread
    obtain ⟨p, rfl, part⟩ := respells_hex s' _ _ _ _ hread
    by_cases hempty : content = []
    · subst hempty
      have hwrite : ∀ x, (liftM (CompactWriter.compactVdfOutput (hexEncode [])) : CompactWriter) s' =
          .ok x ↔ x = ([0, 0], s') := by
        intro x
        rw [write_lift_eq_ok]
        constructor
        · rintro ⟨out, hout, rfl⟩
          cases hout
          rfl
        · rintro rfl
          exact ⟨_, rfl, rfl⟩
      have hstrict : ∀ x, Strict.compactVdfOutput s' (1 :: p ++ rest) ≠ .ok x := by
        intro x hx
        rw [List.cons_append, Strict.compactVdfOutput, u8_bind_cons, if_neg (by decide),
          if_pos (by rfl)] at hx
        obtain ⟨text, s₁, rest₁, htext, hrest⟩ := read_bind_eq_ok.mp hx
        obtain ⟨⟨rfl, rfl⟩, rfl⟩ := part.agrees htext
        obtain ⟨_, hcheck, -⟩ := check_bind_eq_ok.mp hrest
        exact Outcome.bailIf_eq_ok.mp hcheck rfl
      refine ⟨1 :: p, rfl, ?_, ?_, fun x hx => absurd hx (hstrict x)⟩
      · intro out t hout
        obtain ⟨rfl, rfl⟩ : out = [0, 0] ∧ t = s' := by
          simpa only [Prod.mk.injEq] using (hwrite _).mp hout
        have hle : 1 ≤ p.length := (part.frame _ _ (write_hex [] t)).2
        refine ⟨rfl, ?_⟩
        simp only [List.length_cons, List.length_nil]
        omega
      · rw [hwrite]
        constructor
        · intro hsame
          simp at hsame
        · intro hout
          exact absurd hout (hstrict _)
    · refine ⟨1 :: p, rfl, (Respelled.tag (w := fun value => (liftM (CompactWriter.hex value) : CompactWriter)) (k := do
        let text ← Strict.hex
        CompactReader.check (bailIf (text = []) "compact VDF output is packed without content")
        pure text) 1 ⟨part.frame, ?_, ?_⟩ ?_ ?_)⟩
      · rw [part.exact]
        constructor
        · intro hout
          refine read_bind_eq_ok.mpr ⟨_, _, _, hout, check_bind_eq_ok.mpr ⟨⟨⟩, ?_,
            read_pure_eq_ok.mpr rfl⟩⟩
          refine Outcome.bailIf_eq_ok.mpr fun hnil => hempty ?_
          exact hexEncode_injective (hnil.trans hexEncode_nil.symm)
        · intro hout
          obtain ⟨text, s₁, rest₁, htext, -⟩ := read_bind_eq_ok.mp hout
          obtain ⟨⟨rfl, rfl⟩, rfl⟩ := part.agrees htext
          exact htext
      · intro x hx
        obtain ⟨text, s₁, rest₁, htext, hrest⟩ := read_bind_eq_ok.mp hx
        obtain ⟨⟨rfl, rfl⟩, rfl⟩ := part.agrees htext
        obtain ⟨_, -, hpure⟩ := check_bind_eq_ok.mp hrest
        exact read_pure_eq_ok.mp hpure
      · intro bytes
        rw [Strict.compactVdfOutput, u8_bind_cons]
        rfl
      · intro out t
        have hpacked : CompactWriter.compactVdfOutput (hexEncode content) = (do
            let bytes ← CompactWriter.hex (hexEncode content)
            pure (1 :: bytes)) := by
          unfold CompactWriter.compactVdfOutput
          rw [not_prefix_hexEncode, if_neg (by decide), if_pos (isHexText_hexEncode hempty)]
        rw [write_hex, hpacked, write_lift_eq_ok]
        simp only [CompactWriter.hex, decodeHex_hexEncode, Outcome.bind_eq_ok, Outcome.pure_eq_ok,
          Except.ok.injEq, Prod.mk.injEq]
        constructor
        · rintro ⟨_, ⟨_, ⟨_, rfl, rfl⟩, rfl⟩, rfl, rfl⟩
          exact ⟨_, ⟨rfl, rfl⟩, rfl⟩
        · rintro ⟨_, ⟨rfl, rfl⟩, rfl⟩
          exact ⟨_, ⟨_, ⟨_, rfl, rfl⟩, rfl⟩, rfl, rfl⟩
  rw [if_neg h1] at hbody
  by_cases h2 : byte.toNat = 2
  · -- a packed solution behind the prefix
    obtain rfl : byte = 2 := UInt8.toNat_inj.mp h2
    have hread : Accepts (do
        let text ← CompactReader.hex
        pure (vdfSolutionPrefix ++ text)) s bytes' value s' rest := hbody
    have hdrop : ∀ text : Str, (vdfSolutionPrefix ++ text).drop vdfSolutionPrefix.length = text :=
      fun text => List.drop_left
    have hsolution : Respells s (do
        let text ← CompactReader.hex
        pure (vdfSolutionPrefix ++ text)) (do
        let text ← Strict.hex
        pure (vdfSolutionPrefix ++ text)) fun value =>
          (liftM (CompactWriter.hex (value.drop vdfSolutionPrefix.length)) : CompactWriter) := by
      refine (respells_hex s).map rfl rfl ?_
      intro bytes a s' rest h
      rw [hdrop]
    obtain ⟨p, rfl, part⟩ := hsolution _ _ _ _ hread
    refine ⟨2 :: p, rfl, part.tag 2 ?_ ?_⟩
    · intro bytes
      rw [Strict.compactVdfOutput, u8_bind_cons]
      rfl
    · intro out t
      obtain ⟨text, s₁, rest₁, -, hpure⟩ := read_bind_eq_ok.mp hread
      obtain ⟨⟨rfl, -⟩, -⟩ := accepts_pure.mp hpure
      have hprefix : vdfSolutionPrefix.isPrefixOf (vdfSolutionPrefix ++ text) = true :=
        List.isPrefixOf_iff_prefix.mpr (List.prefix_append _ _)
      rw [write_lift_eq_ok, CompactWriter.compactVdfOutput, if_pos hprefix, hdrop]
      simp only [Outcome.bind_eq_ok, Outcome.pure_eq_ok, Prod.mk.injEq, write_lift_eq_ok]
      constructor
      · rintro ⟨_, ⟨bytes, hbytes, rfl⟩, rfl, rfl⟩
        exact ⟨bytes, ⟨bytes, hbytes, rfl, rfl⟩, rfl⟩
      · rintro ⟨bytes, ⟨_, hbytes, rfl, rfl⟩, rfl⟩
        exact ⟨_, ⟨bytes, hbytes, rfl⟩, rfl, rfl⟩
  · rw [if_neg h2] at hbody
    exact absurd hbody fail_ne_ok

/-! ## Lists and optional values -/

lemma respells_times {α : Type} {read strict : CompactReader α} {write : α → CompactWriter}
    (h : ∀ s, Respells s read strict write) (n : ℕ) (s : EncodeTables) :
    Respells s (CompactReader.times read n) (CompactReader.times strict n)
      (CompactWriter.each write) := by
  induction n generalizing s with
  | zero => exact Respells.pure s [] rfl
  | succ n ih =>
    refine ((h s).pair fun _ _ s' _ _ => ih s').map (g := fun a => a.1 :: a.2) ?_ ?_ ?_
    · simp only [CompactReader.times, pair, bind_assoc, pure_bind]
    · simp only [CompactReader.times, pair, bind_assoc, pure_bind]
    · intro bytes a s' rest _
      rfl

lemma times_length {α : Type} {read : CompactReader α} {n : ℕ} {s s' : EncodeTables}
    {bytes rest : Bytes} {values : List α}
    (h : Accepts (CompactReader.times read n) s bytes values s' rest) : values.length = n := by
  induction n generalizing s bytes values with
  | zero =>
    obtain ⟨⟨rfl, -⟩, -⟩ := accepts_pure.mp h
    rfl
  | succ n ih =>
    obtain ⟨value, s₁, rest₁, -, hrest⟩ := read_bind_eq_ok.mp h
    obtain ⟨tail, s₂, rest₂, htail, hpure⟩ := read_bind_eq_ok.mp hrest
    obtain ⟨⟨rfl, rfl⟩, rfl⟩ := accepts_pure.mp hpure
    rw [List.length_cons, ih htail]

/-- A list behind its length. -/
def writeVec {α : Type} (write : α → CompactWriter) (values : List α) : CompactWriter := do
  let bytes ← CompactWriter.each write values
  pure (CompactWriter.varint values.length ++ bytes)

lemma respells_vec {α : Type} {read strict : CompactReader α} {write : α → CompactWriter}
    (label : String) (h : ∀ s, Respells s read strict write) (s : EncodeTables) :
    Respells s (CompactReader.vec label read) (Strict.vec label strict) (writeVec write) := by
  refine ((respells_boundedUsize s label maxCompactVecItems).pair
    fun _ n s' _ _ => respells_times h n s').map (g := Prod.snd) ?_ ?_ ?_
  · simp only [CompactReader.vec, pair, bind_assoc, pure_bind, bind_pure]
  · simp only [Strict.vec, pair, bind_assoc, pure_bind, bind_pure]
  · intro bytes a s' rest ha
    obtain ⟨n, s₁, rest₁, values, s₂, rest₂, -, htimes, hx⟩ := accepts_pair.mp ha
    obtain ⟨⟨rfl, -⟩, -⟩ : (a = (n, values) ∧ s' = s₂) ∧ rest = rest₂ := by
      simpa only [Prod.mk.injEq] using hx
    simp only [writeVec, pairWriter, pure_bind, times_length htimes]

lemma bool_eq_ok {s : EncodeTables} {bytes : Bytes} {x : (Bool × EncodeTables) × Bytes} :
    CompactReader.bool s bytes = .ok x ↔
      ∃ b rest, bytes = CompactWriter.bool b ++ rest ∧ x = ((b, s), rest) := by
  unfold CompactReader.bool
  rw [u8_bind_eq_ok]
  constructor
  · rintro ⟨byte, rest, rfl, h⟩
    by_cases h0 : byte.toNat = 0
    · rw [if_pos h0] at h
      obtain rfl : byte = 0 := UInt8.toNat_inj.mp h0
      exact ⟨false, rest, rfl, read_pure_eq_ok.mp h⟩
    rw [if_neg h0] at h
    by_cases h1 : byte.toNat = 1
    · rw [if_pos h1] at h
      obtain rfl : byte = 1 := UInt8.toNat_inj.mp h1
      exact ⟨true, rest, rfl, read_pure_eq_ok.mp h⟩
    · rw [if_neg h1] at h
      exact absurd h fail_ne_ok
  · rintro ⟨b, rest, rfl, rfl⟩
    cases b with
    | false => exact ⟨0, rest, rfl, rfl⟩
    | true => exact ⟨1, rest, rfl, rfl⟩

lemma respells_bool (s : EncodeTables) :
    Respells s CompactReader.bool CompactReader.bool
      fun b => (pure (CompactWriter.bool b) : CompactWriter) := by
  intro bytes a s' rest h
  obtain ⟨b, rest', rfl, hx⟩ := bool_eq_ok.mp h
  obtain ⟨⟨rfl, rfl⟩, rfl⟩ : (a = b ∧ s' = s) ∧ rest = rest' := by
    simpa only [Prod.mk.injEq] using hx
  refine ⟨_, rfl, ?_, ⟨fun _ => h, fun _ => rfl⟩, ?_⟩
  · intro out t hout
    obtain ⟨rfl, rfl⟩ := writes_pure.mp hout
    exact ⟨rfl, le_rfl⟩
  · intro x hstrict
    have hsame := h.symm.trans hstrict
    simpa using hsame.symm

/-- The value behind a flag that is known. -/
def present {α : Type} (read : CompactReader α) (flag : Prop) [Decidable flag] :
    CompactReader (Option α) :=
  if flag then do
    let value ← read
    pure (some value)
  else pure none

def writePresent {α : Type} (write : α → CompactWriter) : Option α → CompactWriter
  | some value => write value
  | none => pure []

lemma respells_present {α : Type} {read strict : CompactReader α} {write : α → CompactWriter}
    (flag : Prop) [Decidable flag] (h : ∀ s, Respells s read strict write) (s : EncodeTables) :
    Respells s (present read flag) (present strict flag) (writePresent write) := by
  refine Respells.ite (fun _ => ?_) fun _ => Respells.pure s none rfl
  exact (h s).map rfl rfl fun _ _ _ _ _ => rfl

lemma present_isSome {α : Type} {read : CompactReader α} {flag : Prop} [Decidable flag]
    {s s' : EncodeTables} {bytes rest : Bytes} {value : Option α}
    (h : Accepts (present read flag) s bytes value s' rest) : value.isSome = decide flag := by
  unfold present at h
  by_cases hflag : flag
  · rw [if_pos hflag] at h
    obtain ⟨a, s₁, rest₁, -, hpure⟩ := read_bind_eq_ok.mp h
    obtain ⟨⟨rfl, -⟩, -⟩ := accepts_pure.mp hpure
    simp [hflag]
  · rw [if_neg hflag] at h
    obtain ⟨⟨rfl, -⟩, -⟩ := accepts_pure.mp h
    simp [hflag]

lemma respells_optional {α : Type} {read strict : CompactReader α} {write : α → CompactWriter}
    (h : ∀ s, Respells s read strict write) (s : EncodeTables) :
    Respells s (CompactReader.optional read) (CompactReader.optional strict)
      (CompactWriter.optional write) := by
  refine ((respells_bool s).pair fun _ b s' _ _ => respells_present (b = true) h s').map
    (g := Prod.snd) ?_ ?_ ?_
  · simp only [CompactReader.optional, present, pair, bind_assoc, pure_bind, bind_pure]
  · simp only [CompactReader.optional, present, pair, bind_assoc, pure_bind, bind_pure]
  · intro bytes a s' rest ha
    obtain ⟨b, s₁, rest₁, value, s₂, rest₂, -, hpresent, hx⟩ := accepts_pair.mp ha
    obtain ⟨⟨rfl, -⟩, -⟩ : (a = (b, value) ∧ s' = s₂) ∧ rest = rest₂ := by
      simpa only [Prod.mk.injEq] using hx
    have hflag := present_isSome hpresent
    cases value with
    | none =>
      obtain rfl : b = false := by simpa using hflag
      rfl
    | some value =>
      obtain rfl : b = true := by simpa using hflag
      simp only [CompactWriter.optional, pairWriter, writePresent, pure_bind]

/-! ## Outpoints and outputs -/

def writeOutpoint (outpoint : OutPoint) : CompactWriter := do
  let txid ← CompactWriter.protocolIdRef outpoint.txid
  pure (txid ++ CompactWriter.varint outpoint.index)

lemma respells_decodeOutpoints (s : EncodeTables) :
    Respells s decodeOutpoints Strict.decodeOutpoints (writeVec writeOutpoint) := by
  refine respells_vec _ (fun s => ?_) s
  refine ((respells_protocolIdRef s).pair fun _ _ s' _ _ => respells_u32 s').map
    (g := fun a => { txid := a.1, index := a.2 }) ?_ ?_ ?_
  · simp only [pair, bind_assoc, pure_bind]
  · simp only [pair, bind_assoc, pure_bind]
  · intro bytes a s' rest _
    simp only [writeOutpoint, pairWriter, pure_bind]

lemma each_map {α β : Type} (write : β → CompactWriter) (f : α → β) (values : List α) :
    CompactWriter.each write (values.map f) = CompactWriter.each (fun a => write (f a)) values := by
  induction values with
  | nil => rfl
  | cons value values ih => simp only [List.map_cons, CompactWriter.each, ih]

lemma encodeOutpoints_signedInputs (outpoints : List OutPoint) (owner signature : Str) :
    encodeOutpoints (signedInputs outpoints owner signature) = writeVec writeOutpoint outpoints := by
  unfold encodeOutpoints signedInputs writeVec
  rw [each_map, List.length_map]
  rfl

lemma respells_decodeCompactOutputs [Crypto] (s : EncodeTables) :
    Respells s decodeCompactOutputs Strict.decodeCompactOutputs encodeCompactOutputs := by
  refine respells_vec _ (fun s => ?_) s
  refine ((respells_address s).pair fun _ _ s' _ _ => respells_varint s').map
    (g := fun a => { address := a.1, amount := a.2 }) ?_ ?_ ?_
  · simp only [pair, bind_assoc, pure_bind]
  · simp only [pair, bind_assoc, pure_bind]
  · intro bytes a s' rest _
    simp only [pairWriter, pure_bind]

end Iuna
