import Iuna.Properties.Launch
import Iuna.Properties.Spelling

/-!
# The address codec

The encoder writes the prefix of the network, a separator and fifty-nine letters: one for the
version, fifty-two for the payload and six for the checksum (`encoded_written`).  A round of the
checksum loses nothing of its state (`polymodRound_injective`), so two texts that both verify do
not differ in one letter (`single_letter_verified`), and what the decoder accepts has the letters
of an encoding again; this leaves a damaged or a foreign text no way to be accepted.
-/

namespace Iuna

open Packing

/-! ## Rounds of the checksum -/

lemma xor_cancel_right {a b c : ℕ} (h : a ^^^ c = b ^^^ c) : a = b := by
  have hxor := congrArg (· ^^^ c) h
  simpa only [Nat.xor_assoc, Nat.xor_self, Nat.xor_zero] using hxor

lemma xor_cancel_left {a b c : ℕ} (h : c ^^^ a = c ^^^ b) : a = b := by
  rw [Nat.xor_comm c a, Nat.xor_comm c b] at h
  exact xor_cancel_right h

lemma mixed_lt {top : ℕ} (small : top < 32) : mixed top < 2 ^ 30 := by
  have hall : ∀ top < 32, mixed top < 2 ^ 30 := by decide +kernel
  exact hall top small

/-- The low bits of the generators that a top value selects determine the top value. -/
lemma mixed_injective {top top' : ℕ} (small : top < 32) (small' : top' < 32)
    (h : mixed top % 32 = mixed top' % 32) : top = top' := by
  have hall : ∀ top < 32, ∀ top' < 32, mixed top % 32 = mixed top' % 32 → top = top' := by
    decide +kernel
  exact hall top small top' small' h

lemma top_lt {checksum : ℕ} (small : checksum < 2 ^ 30) : checksum >>> 25 < 32 := by
  rw [Nat.shiftRight_eq_div_pow]
  omega

/-- A round moves the low bits up, takes the value in and mixes the top bits. -/
lemma polymodRound_eq {checksum value : ℕ} (small : value < 2 ^ 5) :
    polymodRound checksum value
      = (checksum % 2 ^ 25 * 2 ^ 5 + value) ^^^ mixed (checksum >>> 25) := by
  unfold polymodRound
  rw [show 0x01ffffff = 2 ^ 25 - 1 by norm_num, Nat.and_two_pow_sub_one_eq_mod,
    shiftLeft_xor_of_lt small]

lemma polymodRound_lt {checksum value : ℕ} (small : checksum < 2 ^ 30) (smallValue : value < 2 ^ 5) :
    polymodRound checksum value < 2 ^ 30 := by
  rw [polymodRound_eq smallValue]
  exact Nat.xor_lt_two_pow (by omega) (mixed_lt (top_lt small))

/-- The value that a round takes in is determined by the states before and after it. -/
lemma polymodRound_value {checksum value value' : ℕ}
    (h : polymodRound checksum value = polymodRound checksum value') : value = value' := by
  unfold polymodRound at h
  exact xor_cancel_left (xor_cancel_right h)

/-- A round that takes in one value loses nothing of the state. -/
theorem polymodRound_injective {checksum checksum' value : ℕ} (small : checksum < 2 ^ 30)
    (small' : checksum' < 2 ^ 30) (h : polymodRound checksum value = polymodRound checksum' value) :
    checksum = checksum' := by
  -- without the value, which both rounds take in, the lowest bits are those of the generators
  have hmixed : (checksum % 2 ^ 25 * 2 ^ 5) ^^^ mixed (checksum >>> 25)
      = (checksum' % 2 ^ 25 * 2 ^ 5) ^^^ mixed (checksum' >>> 25) := by
    have hzero : ∀ checksum, polymodRound checksum value = polymodRound checksum 0 ^^^ value := by
      intro checksum
      unfold polymodRound
      rw [Nat.xor_zero]
      ac_rfl
    rw [hzero, hzero checksum'] at h
    have hrounds := xor_cancel_right h
    rwa [polymodRound_eq (by omega), polymodRound_eq (by omega), Nat.add_zero, Nat.add_zero]
      at hrounds
  have hlow : mixed (checksum >>> 25) % 2 ^ 5 = mixed (checksum' >>> 25) % 2 ^ 5 := by
    have hmod := congrArg (· % 2 ^ 5) hmixed
    simpa only [Nat.xor_mod_two_pow, Nat.mul_mod_left, Nat.zero_xor] using hmod
  have htop := mixed_injective (top_lt small) (top_lt small') hlow
  rw [htop] at hmixed
  have hrest := xor_cancel_right hmixed
  rw [Nat.shiftRight_eq_div_pow, Nat.shiftRight_eq_div_pow] at htop
  omega

/-- Checksums stay below their width. -/
lemma foldl_polymodRound_lt {values : List ℕ} (small : ∀ value ∈ values, value < 2 ^ 5)
    {checksum : ℕ} (smallStart : checksum < 2 ^ 30) :
    values.foldl polymodRound checksum < 2 ^ 30 := by
  induction values generalizing checksum with
  | nil => exact smallStart
  | cons value values ih =>
    rw [List.foldl_cons]
    exact ih (fun other hother => small other (List.mem_cons_of_mem _ hother))
      (polymodRound_lt smallStart (small value List.mem_cons_self))

/-- States that differ stay different under the same values. -/
lemma foldl_polymodRound_injective {values : List ℕ} (small : ∀ value ∈ values, value < 2 ^ 5)
    {checksum checksum' : ℕ} (smallStart : checksum < 2 ^ 30) (smallStart' : checksum' < 2 ^ 30)
    (h : values.foldl polymodRound checksum = values.foldl polymodRound checksum') :
    checksum = checksum' := by
  induction values generalizing checksum checksum' with
  | nil => exact h
  | cons value values ih =>
    rw [List.foldl_cons, List.foldl_cons] at h
    have hvalue := small value List.mem_cons_self
    refine @polymodRound_injective _ _ value smallStart smallStart' ?_
    exact ih (fun other hother => small other (List.mem_cons_of_mem _ hother))
      (polymodRound_lt smallStart hvalue) (polymodRound_lt smallStart' hvalue) h

/-- A value that is replaced shows in the checksum, wherever it stands. -/
lemma foldl_polymodRound_set {values : List ℕ} (small : ∀ value ∈ values, value < 2 ^ 5)
    {index value : ℕ} (smallValue : value < 2 ^ 5) {checksum : ℕ} (smallStart : checksum < 2 ^ 30)
    (h : (values.set index value).foldl polymodRound checksum
      = values.foldl polymodRound checksum) :
    values.set index value = values := by
  induction values generalizing index checksum with
  | nil => rfl
  | cons head values ih =>
    have hhead := small head List.mem_cons_self
    have htail := fun other hother => small other (List.mem_cons_of_mem head hother)
    cases index with
    | zero =>
      rw [List.set_cons_zero, List.foldl_cons, List.foldl_cons] at h
      have hround := foldl_polymodRound_injective htail (polymodRound_lt smallStart smallValue)
        (polymodRound_lt smallStart hhead) h
      rw [List.set_cons_zero, polymodRound_value hround]
    | succ index =>
      rw [List.set_cons_succ, List.foldl_cons, List.foldl_cons] at h
      rw [List.set_cons_succ, ih htail (polymodRound_lt smallStart hhead) h]

/-! ## Prefixes -/

lemma hrpExpand_lt (hrp : Str) : ∀ value ∈ hrpExpand hrp, value < 2 ^ 5 := by
  intro value hvalue
  simp only [hrpExpand, List.mem_append, List.mem_cons, List.mem_map] at hvalue
  rcases hvalue with ⟨byte, -, rfl⟩ | rfl | ⟨byte, -, rfl⟩
  · have hbyte := byte.toNat_lt
    rw [Nat.shiftRight_eq_div_pow]
    omega
  · omega
  · rw [show (31 : ℕ) = 2 ^ 5 - 1 by norm_num, Nat.and_two_pow_sub_one_eq_mod]
    exact Nat.mod_lt _ (by omega)

/-- The state of a checksum after the prefix. -/
def hrpChecksum (hrp : Str) : ℕ := (hrpExpand hrp).foldl polymodRound 1

lemma hrpChecksum_lt (hrp : Str) : hrpChecksum hrp < 2 ^ 30 :=
  foldl_polymodRound_lt (hrpExpand_lt hrp) (by omega)

lemma verifyChecksum_iff {hrp : Str} {values : List ℕ} :
    verifyChecksum hrp values = true ↔
      values.foldl polymodRound (hrpChecksum hrp) = bech32mConst := by
  unfold verifyChecksum hrpChecksum
  rw [decide_eq_true_eq, polymod_eq, List.foldl_append]

/-- Two lists of values that verify under one prefix do not differ in a single value. -/
theorem single_letter_verified {hrp : Str} {values : List ℕ} {index value : ℕ}
    (small : ∀ value ∈ values, value < 2 ^ 5) (smallValue : value < 2 ^ 5)
    (verified : verifyChecksum hrp values = true)
    (verified' : verifyChecksum hrp (values.set index value) = true) :
    values.set index value = values := by
  rw [verifyChecksum_iff] at verified verified'
  exact foldl_polymodRound_set small smallValue (hrpChecksum_lt hrp)
    (verified'.trans verified.symm)

/-- The prefixes of the networks lead the checksum to different states. -/
lemma hrpChecksum_networks :
    hrpChecksum AddressNetwork.testnet.hrp ≠ hrpChecksum AddressNetwork.mainnet.hrp := by
  decide +kernel

/-- The same values do not verify under the prefixes of two networks. -/
lemma not_verified_twice {values : List ℕ} (small : ∀ value ∈ values, value < 2 ^ 5)
    (testnet : verifyChecksum AddressNetwork.testnet.hrp values = true)
    (mainnet : verifyChecksum AddressNetwork.mainnet.hrp values = true) : False := by
  rw [verifyChecksum_iff] at testnet mainnet
  exact hrpChecksum_networks (foldl_polymodRound_injective small (hrpChecksum_lt _)
    (hrpChecksum_lt _) (testnet.trans mainnet.symm))

/-! ## The checksum that is written -/

/-- The groups of a checksum are those of its state. -/
lemma packed_createChecksum (hrp : Str) {data : List ℕ} (small : ∀ value ∈ data, value < 2 ^ 5) :
    packed 5 (createChecksum hrp data)
      = (List.replicate 6 0).foldl polymodRound (data.foldl polymodRound (hrpChecksum hrp))
        ^^^ bech32mConst := by
  have hstate : polymod (hrpExpand hrp ++ data ++ List.replicate 6 0)
      = (List.replicate 6 0).foldl polymodRound (data.foldl polymodRound (hrpChecksum hrp)) := by
    rw [polymod_eq, List.foldl_append, List.foldl_append]
    rfl
  have hbound : polymod (hrpExpand hrp ++ data ++ List.replicate 6 0) ^^^ bech32mConst
      < 2 ^ 30 := by
    refine Nat.xor_lt_two_pow ?_ (by decide)
    rw [hstate]
    refine foldl_polymodRound_lt ?_ (foldl_polymodRound_lt small (hrpChecksum_lt hrp))
    intro value hvalue
    rw [List.eq_of_mem_replicate hvalue]
    omega
  rw [← hstate]
  unfold createChecksum
  generalize polymod (hrpExpand hrp ++ data ++ List.replicate 6 0) ^^^ bech32mConst = value
    at hbound ⊢
  simp only [List.range_succ, List.range_zero, List.nil_append, List.cons_append, List.map_cons,
    List.map_nil, Nat.shiftRight_eq_div_pow, show (31 : ℕ) = 2 ^ 5 - 1 by norm_num,
    Nat.and_two_pow_sub_one_eq_mod, packed_cons, packed_nil, List.length_cons, List.length_nil]
  omega

lemma createChecksum_lt (hrp : Str) (data : List ℕ) :
    ∀ value ∈ createChecksum hrp data, value < 2 ^ 5 := by
  intro value hvalue
  simp only [createChecksum, List.mem_map] at hvalue
  obtain ⟨index, -, rfl⟩ := hvalue
  rw [show (31 : ℕ) = 2 ^ 5 - 1 by norm_num, Nat.and_two_pow_sub_one_eq_mod]
  exact Nat.mod_lt _ (by omega)

lemma createChecksum_length (hrp : Str) (data : List ℕ) : (createChecksum hrp data).length = 6 := by
  simp [createChecksum]

/-- What is written with its checksum verifies. -/
theorem verify_createChecksum (hrp : Str) {data : List ℕ} (small : ∀ value ∈ data, value < 2 ^ 5) :
    verifyChecksum hrp (data ++ createChecksum hrp data) = true := by
  have hchecksum := foldl_polymodRound (createChecksum_lt hrp data) [] (by simp)
    (by simp [createChecksum_length]) (data.foldl polymodRound (hrpChecksum hrp))
  rw [packed_nil, Nat.xor_zero, List.nil_append, createChecksum_length,
    packed_createChecksum hrp small, ← Nat.xor_assoc, Nat.xor_self, Nat.zero_xor] at hchecksum
  rw [verifyChecksum_iff, List.foldl_append]
  exact hchecksum

/-! ## The groups that are written -/

/-- The bytes of a payload are written as groups that read as the same bytes. -/
theorem convertBits_restore {bytes : List ℕ} (length : bytes.length = 32)
    (small : ∀ byte ∈ bytes, byte < 2 ^ 8) :
    ∃ groups, convertBits bytes 8 5 true = .ok groups ∧ groups.length = 52 ∧
      (∀ group ∈ groups, group < 2 ^ 5) ∧ convertBits groups 5 8 false = .ok bytes := by
  obtain ⟨written, accumulator, bitCount, hwrite⟩ := @convertBitsLoop_succeeds 8 5 bytes small 0 0
  obtain ⟨hfew, hcount, hwritten, hpacked⟩ := convertBitsLoop_spec (by omega) (by omega) hwrite
  have hbitCount : bitCount = 1 := by omega
  subst hbitCount
  have hpadding : (accumulator <<< (5 - 1)) &&& (2 ^ 5 - 1) = accumulator % 2 ^ 1 * 2 ^ 4 := by
    rw [Nat.and_two_pow_sub_one_eq_mod, Nat.shiftLeft_eq]
    omega
  have hgroups : ∀ group ∈ written ++ [accumulator % 2 ^ 1 * 2 ^ 4], group < 2 ^ 5 := by
    intro group hgroup
    rcases List.mem_append.mp hgroup with hgroup | hgroup
    · exact hwritten group hgroup
    · rw [List.mem_singleton.mp hgroup]
      omega
  refine ⟨written ++ [accumulator % 2 ^ 1 * 2 ^ 4], ?_, ?_, hgroups, ?_⟩
  · simp only [convertBits, hwrite, Outcome.bind_eq_ok, if_true, Outcome.pure_eq_ok, Prod.exists]
    refine ⟨written, accumulator, 1, rfl, ?_⟩
    rw [if_pos (by omega), hpadding]
  · rw [List.length_append, List.length_singleton]
    omega
  · obtain ⟨read, accumulator', bitCount', hread⟩ := @convertBitsLoop_succeeds 5 8 _ hgroups 0 0
    obtain ⟨hfew', hcount', hbytes, hpacked'⟩ := convertBitsLoop_spec (by omega) (by omega) hread
    rw [List.length_append, List.length_singleton] at hcount' hpacked'
    have hbitCount' : bitCount' = 4 := by omega
    subst hbitCount'
    rw [packed_snoc] at hpacked'
    simp only [Nat.zero_mod, Nat.zero_mul, Nat.zero_add] at hpacked hpacked'
    have hsame : packed 8 read = packed 8 bytes := by omega
    have hbytesEq : read = bytes :=
      packed_inj (by omega) (by omega) hbytes small hsame
    subst hbytesEq
    simp only [convertBits, hread, Outcome.bind_eq_ok, Bool.false_eq_true, if_false,
      Outcome.bailIf_eq_ok, Outcome.pure_eq_ok, not_or, not_not, not_le, Prod.exists]
    refine ⟨read, accumulator', 4, rfl, ⟨⟩, ⟨by omega, ?_⟩, rfl⟩
    rw [Nat.and_two_pow_sub_one_eq_mod, Nat.shiftLeft_eq]
    omega

/-! ## The letters that are written -/

/-- A letter of the charset is read as its value. -/
lemma decodeCharset_getD {value : ℕ} (small : value < 2 ^ 5) :
    decodeCharset (bech32Charset.getD value 'q') = .ok value := by
  have hall : ∀ value < 32,
      bech32Charset.findIdx? (· = bech32Charset.getD value 'q') = some value := by decide +kernel
  unfold decodeCharset orError
  rw [hall value small]
  rfl

/-- The letters of some values. -/
def letters (values : List ℕ) : Str := values.map fun value => bech32Charset.getD value 'q'

lemma decodeCharset_letters {values : List ℕ} (small : ∀ value ∈ values, value < 2 ^ 5) :
    (letters values).mapM decodeCharset = .ok values := by
  rw [Outcome.mapM_eq_ok]
  induction values with
  | nil => exact .nil
  | cons value values ih =>
    exact .cons (decodeCharset_getD (small value List.mem_cons_self))
      (ih fun other hother => small other (List.mem_cons_of_mem _ hother))

/-- Values are determined by their letters. -/
lemma letters_injective {values values' : List ℕ} (small : ∀ value ∈ values, value < 2 ^ 5)
    (small' : ∀ value ∈ values', value < 2 ^ 5) (h : letters values = letters values') :
    values = values' := by
  have hread := decodeCharset_letters small
  rw [h, decodeCharset_letters small'] at hread
  exact (Except.ok.inj hread).symm

/-- A letter that is neither the separator nor outside seven bits. -/
def Narrow (letter : Char) : Prop := letter ≠ '1' ∧ letter.toNat < 128

/-- Letters are checked one by one, as for `Plain`. -/
lemma narrow_of_all {text : Str} (h : text.all (fun letter =>
    letter ≠ '1' ∧ letter.toNat < 128) = true) : ∀ letter ∈ text, Narrow letter := by
  intro letter hletter
  have hnarrow := List.all_eq_true.mp h letter hletter
  rw [decide_eq_true_eq] at hnarrow
  exact hnarrow

lemma narrow_letters (values : List ℕ) : ∀ letter ∈ letters values, Narrow letter := by
  have hcharset : ∀ letter ∈ bech32Charset, Narrow letter := narrow_of_all (by decide)
  intro letter hletter
  obtain ⟨value, -, rfl⟩ := List.mem_map.mp hletter
  by_cases hvalue : value < bech32Charset.length
  · rw [List.getD_eq_getElem?_getD, List.getElem?_eq_getElem hvalue, Option.getD_some]
    exact hcharset _ (List.getElem_mem hvalue)
  · rw [List.getD_eq_getElem?_getD, List.getElem?_eq_none (by omega), Option.getD_none]
    exact ⟨by decide, by decide⟩

lemma narrow_hrp (network : AddressNetwork) : ∀ letter ∈ network.hrp, Narrow letter := by
  cases network with
  | mainnet => exact narrow_of_all (by decide)
  | testnet => exact narrow_of_all (by decide)

/-- The separator is found before letters that are none. -/
lemma lastIndexOf_separator {before after : Str} (h : ∀ letter ∈ after, letter ≠ '1') :
    lastIndexOf '1' (before ++ '1' :: after) = some before.length := by
  simp only [lastIndexOf, Option.map_eq_some_iff, List.findIdx?_eq_some_iff_getElem,
    decide_eq_true_eq]
  refine ⟨after.length, ⟨?_, ?_, ?_⟩, ?_⟩
  · simp
  · simp
  · intro index hindex
    rw [List.getElem_reverse, List.getElem_append_right (by simp; omega)]
    rw [List.getElem_cons, dif_neg (by simp; omega)]
    exact h _ (List.getElem_mem _)
  · simp

/-- A text whose letters have seven bits takes one byte a letter. -/
lemma byteLen_narrow {text : Str} (h : ∀ letter ∈ text, letter.toNat < 128) :
    byteLen text = text.length := by
  unfold byteLen utf8
  induction text with
  | nil => rfl
  | cons letter text ih =>
    have hletter : letter.toNat < 128 := h letter List.mem_cons_self
    have hone : (String.utf8EncodeChar letter).length = 1 := by
      rw [String.length_utf8EncodeChar, Char.utf8Size_eq_one_iff, UInt32.le_iff_toNat_le]
      exact Nat.le_of_lt_succ hletter
    rw [List.flatMap_cons, List.length_append, hone,
      ih fun other hother => h other (List.mem_cons_of_mem _ hother), List.length_cons]
    omega

/-! ## Encodings -/

/-- What the encoder writes for an address: the prefix of the network, the separator and the letters
of fifty-nine values, the first of which are the version and the payload. -/
structure Written (network : AddressNetwork) (address : VersionedAddress) (text : Str)
    (values : List ℕ) : Prop where
  text_eq : text = network.hrp ++ '1' :: letters values
  small : ∀ value ∈ values, value < 2 ^ 5
  length : values.length = 59
  verified : verifyChecksum network.hrp values = true
  payload : ∃ groups, values.take 53 = address.version.wireId.toNat :: groups ∧
    convertBits groups 5 8 false = .ok (address.payload.val.map UInt8.toNat)

variable [Crypto]

/-- The keys that an address may name: those of a legacy address are checked. -/
def KeyValid (address : VersionedAddress) : Prop :=
  address.version = .ed25519PublicKey → validateEd25519PublicKey address.payload = .ok ()

/-- **What is written.** The encoder writes every address whose key is valid. -/
theorem encoded_written (network : AddressNetwork) {address : VersionedAddress}
    (valid : KeyValid address) :
    ∃ text values, encodeVersionedAddress address network = .ok text ∧
      Written network address text values := by
  have hbytes : ∀ byte ∈ address.payload.val.map UInt8.toNat, byte < 2 ^ 8 := by
    intro byte hbyte
    obtain ⟨original, -, rfl⟩ := List.mem_map.mp hbyte
    exact original.toNat_lt
  have hcount : (address.payload.val.map UInt8.toNat).length = 32 := by
    rw [List.length_map]
    exact address.payload.property
  obtain ⟨groups, hgroups, hlength, hsmall, hrestore⟩ := convertBits_restore hcount hbytes
  have hwireId : address.version.wireId.toNat < 2 ^ 5 := by
    cases address.version <;> decide
  have hdata : ∀ value ∈ address.version.wireId.toNat :: groups, value < 2 ^ 5 := by
    intro value hvalue
    rcases List.mem_cons.mp hvalue with rfl | hvalue
    · exact hwireId
    · exact hsmall value hvalue
  refine ⟨_, address.version.wireId.toNat :: groups
    ++ createChecksum network.hrp (address.version.wireId.toNat :: groups), ?_, rfl, ?_, ?_,
    verify_createChecksum network.hrp hdata, groups, ?_, hrestore⟩
  · unfold encodeVersionedAddress
    by_cases hlegacy : address.version = .ed25519PublicKey
    · rw [if_pos hlegacy, valid hlegacy, hgroups]
      rfl
    · rw [if_neg hlegacy, hgroups]
      rfl
  · intro value hvalue
    rcases List.mem_append.mp hvalue with hvalue | hvalue
    · exact hdata value hvalue
    · exact createChecksum_lt _ _ value hvalue
  · rw [List.length_append, createChecksum_length, List.length_cons]
    omega
  · rw [List.take_append_of_le_length (by simp [hlength]), List.take_of_length_le (by simp [hlength])]

/-- The encoder refuses the keys that it checks. -/
lemma keyValid_of_encoded {network : AddressNetwork} {address : VersionedAddress} {text : Str}
    (encoded : encodeVersionedAddress address network = .ok text) : KeyValid address := by
  intro hlegacy
  unfold encodeVersionedAddress at encoded
  rw [if_pos hlegacy] at encoded
  obtain ⟨_, hvalid, -⟩ := Outcome.bind_eq_ok.mp encoded
  exact hvalid

lemma written_of_encoded {network : AddressNetwork} {address : VersionedAddress} {text : Str}
    (encoded : encodeVersionedAddress address network = .ok text) :
    ∃ values, Written network address text values := by
  obtain ⟨text', values, hencoded, hwritten⟩ :=
    encoded_written network (keyValid_of_encoded encoded)
  obtain rfl : text = text' := Except.ok.inj (encoded.symm.trans hencoded)
  exact ⟨values, hwritten⟩

omit [Crypto] in
lemma Written.length_text {network : AddressNetwork} {address : VersionedAddress} {text : Str}
    {values : List ℕ} (written : Written network address text values) :
    text.length = network.hrp.length + 60 := by
  rw [written.text_eq, List.length_append, List.length_cons, letters, List.length_map,
    written.length]

omit [Crypto] in
lemma lower_of_plain {text : Str} (plain : ∀ letter ∈ text, Plain letter) :
    text.map Char.toLower = text := by
  conv_rhs => rw [← List.map_id text]
  exact List.map_congr_left fun letter hletter => (plain letter hletter).1

omit [Crypto] in
/-- The capital letters are those that are lowered. -/
lemma isUpper_iff {letter : Char} : letter.isUpper = true ↔ letter.toLower ≠ letter := by
  simp only [Char.isUpper, decide_eq_true_eq, ge_iff_le]
  unfold Char.toLower
  constructor
  · intro hupper
    rw [dif_pos hupper]
    intro hsame
    have hval := congrArg Char.val hsame
    simp at hval
  · intro hlowered
    by_contra hupper
    rw [dif_neg hupper] at hlowered
    exact hlowered rfl

omit [Crypto] in
lemma not_isUpper_of_plain {letter : Char} (plain : Plain letter) : ¬ letter.isUpper = true := by
  rw [isUpper_iff, not_not]
  exact plain.1

/-- **Reading back.** What is written for an address reads as the address. -/
theorem Written.decodes {network : AddressNetwork} {address : VersionedAddress} {text : Str}
    {values : List ℕ} (written : Written network address text values)
    (encoded : encodeVersionedAddress address network = .ok text) :
    decodeVersionedAddress text network = .ok address := by
  have hplain := plain_encoded encoded
  have hvalid := keyValid_of_encoded encoded
  obtain ⟨groups, hpayload, hrestore⟩ := written.payload
  have hseparator : lastIndexOf '1' text = some network.hrp.length := by
    rw [written.text_eq]
    exact lastIndexOf_separator fun letter hletter => (narrow_letters values letter hletter).1
  have hnarrow : ∀ letter ∈ text, letter.toNat < 128 := by
    intro letter hletter
    rw [written.text_eq] at hletter
    rcases List.mem_append.mp hletter with hletter | hletter
    · exact (narrow_hrp network letter hletter).2
    · rcases List.mem_cons.mp hletter with rfl | hletter
      · decide
      · exact (narrow_letters values letter hletter).2
  have hhrp : network.hrp.length ≤ 5 := by cases network <;> decide
  have hpositive : network.hrp.length ≠ 0 := by cases network <;> decide
  have hupper : text.any Char.isUpper = false := by
    rw [List.any_eq_false]
    intro letter hletter
    exact not_isUpper_of_plain (hplain letter hletter)
  have htext := written.length_text
  unfold decodeVersionedAddress
  dsimp only
  rw [trim_of_plain hplain, lower_of_plain hplain]
  simp only [Outcome.bind_eq_ok, Outcome.bailIf_eq_ok, orError, Outcome.ofOption_eq_ok, not_not]
  have hdrop : text.drop (network.hrp.length + 1) = letters values := by
    rw [written.text_eq]
    simp
  refine ⟨⟨⟩, ?_, ⟨⟩, ?_, ⟨⟩, ?_, network.hrp.length, hseparator, ⟨⟩, ?_, ⟨⟩, ?_, values, ?_, ⟨⟩, ?_,
    ?_⟩
  · intro hempty
    rw [hempty] at htext
    simp at htext
  · rw [byteLen_narrow hnarrow]
    simp only [maxBech32Length, not_or, not_lt, not_not]
    refine ⟨by omega, ?_⟩
    rw [List.all_eq_true]
    intro letter hletter
    exact decide_eq_true (hnarrow letter hletter)
  · rw [hupper]
    simp
  · rw [not_or, not_lt]
    exact ⟨hpositive, by omega⟩
  · rw [written.text_eq]
    simp
  · rw [hdrop]
    exact decodeCharset_letters written.small
  · rw [written.text_eq]
    simp [written.verified]
  · rw [written.length, hpayload]
    have hfixed : fixed 32 ((address.payload.val.map UInt8.toNat).map UInt8.ofNat)
        s!"address public key has {(address.payload.val.map UInt8.toNat).length} bytes"
        = .ok address.payload := by
      rw [fixed_eq_ok, List.map_map]
      conv_lhs => rw [← List.map_id address.payload.val]
      refine List.map_congr_left fun byte _ => ?_
      exact (UInt8.ofNat_toNat).symm
    simp only [Outcome.bind_eq_ok, Outcome.ofOption_eq_ok]
    refine ⟨address.version, ?_, _, hrestore, address.payload, hfixed, ?_⟩
    · rw [UInt8.ofNat_toNat]
      exact AddressVersion.fromWireId_wireId address.version
    · by_cases hlegacy : address.version = .ed25519PublicKey
      · rw [if_pos hlegacy, hvalid hlegacy]
        rfl
      · rw [if_neg hlegacy]
        rfl

/-! ## Damaged texts -/

omit [Crypto] in
lemma trim_of_ends {text : Str} (first : ∀ letter ∈ text.head?, isWhiteSpace letter = false)
    (last : ∀ letter ∈ text.getLast?, isWhiteSpace letter = false) : trim text = text := by
  have hdrop (text : Str) (h : ∀ letter ∈ text.head?, isWhiteSpace letter = false) :
      text.dropWhile isWhiteSpace = text := by
    cases text with
    | nil => rfl
    | cons letter text =>
      have hblank := h letter rfl
      rw [List.dropWhile_cons_of_neg (by simp [hblank])]
  unfold trim
  rw [hdrop text first, hdrop text.reverse (by rwa [List.head?_reverse]), List.reverse_reverse]

omit [Crypto] in
lemma head?_plain {text : Str} (plain : ∀ letter ∈ text, Plain letter) :
    ∀ letter ∈ text.head?, isWhiteSpace letter = false := by
  intro letter hletter
  exact (plain letter (List.mem_of_mem_head? hletter)).2

omit [Crypto] in
lemma getLast?_plain {text : Str} (plain : ∀ letter ∈ text, Plain letter) :
    ∀ letter ∈ text.getLast?, isWhiteSpace letter = false := by
  intro letter hletter
  exact (plain letter (List.mem_of_mem_getLast? hletter)).2

omit [Crypto] in
/-- One letter that is replaced is trimmed at an end of the text only. -/
lemma trim_replaced {before after : Str} (c : Char) (plainBefore : ∀ letter ∈ before, Plain letter)
    (plainAfter : ∀ letter ∈ after, Plain letter) :
    trim (before ++ c :: after) = before ++ c :: after ∨
      (before = [] ∧ trim (before ++ c :: after) = after) ∨
      (after = [] ∧ trim (before ++ c :: after) = before) := by
  by_cases hblank : isWhiteSpace c = true
  · rcases List.eq_nil_or_concat after with rfl | ⟨after, last, rfl⟩
    · -- at the end
      right; right
      refine ⟨rfl, ?_⟩
      cases before with
      | nil => simp [trim, hblank]
      | cons first before =>
        have hfirst := (plainBefore first List.mem_cons_self).2
        have htrim := trim_of_ends (head?_plain plainBefore) (getLast?_plain plainBefore)
        unfold trim at htrim ⊢
        rw [List.cons_append, List.dropWhile_cons_of_neg (by simp [hfirst])]
        rw [List.dropWhile_cons_of_neg (by simp [hfirst])] at htrim
        rw [← List.cons_append, List.reverse_append, List.reverse_singleton, List.singleton_append,
          List.dropWhile_cons_of_pos hblank]
        exact htrim
    · cases before with
      | nil =>
        -- at the start
        right; left
        refine ⟨rfl, ?_⟩
        have htrim := trim_of_ends (head?_plain plainAfter) (getLast?_plain plainAfter)
        unfold trim at htrim ⊢
        rw [List.nil_append, List.dropWhile_cons_of_pos hblank]
        exact htrim
      | cons first before =>
        left
        refine trim_of_ends ?_ ?_
        · intro letter hletter
          obtain rfl : first = letter := by simpa using hletter
          exact (plainBefore first List.mem_cons_self).2
        · intro letter hletter
          have hsplit : first :: before ++ c :: (after ++ [last])
              = (first :: before ++ c :: after) ++ [last] := by simp
          rw [List.concat_eq_append, hsplit, List.getLast?_concat] at hletter
          obtain rfl := Option.some.inj hletter
          exact (plainAfter last (by simp)).2
  · -- nothing is blank
    rw [Bool.not_eq_true] at hblank
    have hall : ∀ letter ∈ before ++ c :: after, isWhiteSpace letter = false := by
      intro letter hletter
      rcases List.mem_append.mp hletter with hletter | hletter
      · exact (plainBefore letter hletter).2
      · rcases List.mem_cons.mp hletter with rfl | hletter
        · exact hblank
        · exact (plainAfter letter hletter).2
    left
    refine trim_of_ends ?_ ?_
    · intro letter hletter
      exact hall letter (List.mem_of_mem_head? hletter)
    · intro letter hletter
      exact hall letter (List.mem_of_mem_getLast? hletter)

omit [Crypto] in
/-- The lengths of the prefixes tell the networks apart. -/
lemma network_of_length {network network' : AddressNetwork}
    (h : network.hrp.length = network'.hrp.length) : network = network' := by
  cases network <;> cases network' <;> first | rfl | exact absurd h (by decide)

omit [Crypto] in
/-- Two encodings on one network are not one letter apart. -/
lemma Written.not_one_letter_apart {network : AddressNetwork} {address address' : VersionedAddress}
    {text : Str} {values values' : List ℕ} {index : ℕ} {c : Char}
    (written : Written network address text values)
    (written' : Written network address' (text.set index c) values') :
    text.set index c = text := by
  have hfront : text = (network.hrp ++ ['1']) ++ letters values := by
    rw [written.text_eq, List.append_assoc, List.singleton_append]
  have hfront' : text.set index c = (network.hrp ++ ['1']) ++ letters values' := by
    rw [written'.text_eq, List.append_assoc, List.singleton_append]
  by_cases hindex : index < (network.hrp ++ ['1']).length
  · -- both texts begin with the prefix of the network
    have hset := hfront'
    rw [hfront, List.set_append_left _ _ hindex] at hset
    have hsame := (List.append_inj hset (by simp)).1
    conv_lhs => rw [hfront, List.set_append_left _ _ hindex, hsame]
    exact hfront.symm
  · rw [not_lt] at hindex
    have hset := hfront'
    rw [hfront, List.set_append_right _ _ hindex] at hset
    have hletters := (List.append_inj hset rfl).2
    generalize index - (network.hrp ++ ['1']).length = position at hletters
    by_cases hposition : position < values.length
    · have hposition' : position < values'.length := by
        rw [written'.length, ← written.length]
        exact hposition
      have hvalues : values.set position values'[position] = values' := by
        refine letters_injective ?_ written'.small ?_
        · intro value hvalue
          rcases List.mem_or_eq_of_mem_set hvalue with hvalue | rfl
          · exact written.small value hvalue
          · exact written'.small _ (List.getElem_mem hposition')
        · rw [← hletters]
          unfold letters at hletters ⊢
          rw [List.map_set]
          congr 1
          have hget := congrArg (·[position]?) hletters
          simpa [hposition, hposition', eq_comm] using hget
      have hverified := written'.verified
      rw [← hvalues] at hverified
      have hunchanged := single_letter_verified written.small
        (written'.small _ (List.getElem_mem hposition')) written.verified hverified
      rw [hfront', ← hvalues, hunchanged]
      exact hfront.symm
    · rw [List.set_eq_of_length_le] at hletters
      · rw [hfront', ← hletters]
        exact hfront.symm
      · rw [letters, List.length_map]
        omega

/-- What decodes does not mix capital and small letters. -/
lemma not_mixed_of_decoded {network : AddressNetwork} {text : Str} {address : VersionedAddress}
    (decoded : decodeVersionedAddress text network = .ok address) :
    ¬ ((trim text).any Char.isLower = true ∧ (trim text).any Char.isUpper = true) := by
  unfold decodeVersionedAddress at decoded
  dsimp only at decoded
  simp only [Outcome.bind_eq_ok, Outcome.bailIf_eq_ok] at decoded
  obtain ⟨_, _, _, _, _, hmixed, _⟩ := decoded
  exact hmixed

/-- **Foreign texts.** What is written for one network is not accepted on another. -/
theorem foreign_rejected {network other : AddressNetwork} {address result : VersionedAddress}
    {text : Str} (encoded : encodeVersionedAddress address network = .ok text)
    (foreign : other ≠ network) : decodeVersionedAddress text other ≠ .ok result := by
  intro decoded
  have hplain := plain_encoded encoded
  have hencoded := encode_decoded decoded
  rw [trim_of_plain hplain, lower_of_plain hplain] at hencoded
  obtain ⟨values, hwritten⟩ := written_of_encoded encoded
  obtain ⟨values', hwritten'⟩ := written_of_encoded hencoded
  have hlength := hwritten.length_text
  rw [hwritten'.length_text] at hlength
  exact foreign (network_of_length (by omega))

/-- A capital letter in place of a small one leaves the text mixed. -/
lemma capital_rejected {network other : AddressNetwork} {address result : VersionedAddress}
    {before after : Str} {letter c : Char}
    (encoded : encodeVersionedAddress address network = .ok (before ++ letter :: after))
    (upper : c.isUpper = true) (whole : trim (before ++ c :: after) = before ++ c :: after) :
    decodeVersionedAddress (before ++ c :: after) other ≠ .ok result := by
  intro decoded
  obtain ⟨values, hwritten⟩ := written_of_encoded encoded
  have hu : 'u' ∈ before ++ letter :: after := by
    rw [hwritten.text_eq]
    exact List.mem_append_left _ (by cases network <;> decide)
  have hn : 'n' ∈ before ++ letter :: after := by
    rw [hwritten.text_eq]
    exact List.mem_append_left _ (by cases network <;> decide)
  -- one of the letters of the prefix is not the one that is replaced
  obtain ⟨small, hlower, hkept⟩ : ∃ small : Char, small.isLower = true ∧
      small ∈ before ++ c :: after := by
    rw [List.mem_append, List.mem_cons] at hu hn
    by_cases hletter : letter = 'u'
    · refine ⟨'n', by decide, ?_⟩
      rw [List.mem_append, List.mem_cons]
      rcases hn with hn | hn | hn
      · exact Or.inl hn
      · rw [hletter] at hn
        exact absurd hn (by decide)
      · exact Or.inr (Or.inr hn)
    · refine ⟨'u', by decide, ?_⟩
      rw [List.mem_append, List.mem_cons]
      rcases hu with hu | hu | hu
      · exact Or.inl hu
      · exact absurd hu.symm hletter
      · exact Or.inr (Or.inr hu)
  refine not_mixed_of_decoded decoded ?_
  rw [whole, List.any_eq_true, List.any_eq_true]
  exact ⟨⟨small, hkept, hlower⟩, ⟨c, by simp, upper⟩⟩

/-- **Damaged texts.** What is written is not accepted, on any network, once a letter of it is
replaced. -/
theorem replaced_rejected {network other : AddressNetwork} {address result : VersionedAddress}
    {before after : Str} {letter c : Char}
    (encoded : encodeVersionedAddress address network = .ok (before ++ letter :: after))
    (replaced : c ≠ letter) :
    decodeVersionedAddress (before ++ c :: after) other ≠ .ok result := by
  intro decoded
  have hplain := plain_encoded encoded
  have hbefore : ∀ letter ∈ before, Plain letter := fun other hother =>
    hplain other (List.mem_append_left _ hother)
  have hafter : ∀ letter ∈ after, Plain letter := fun other hother =>
    hplain other (List.mem_append_right _ (List.mem_cons_of_mem _ hother))
  obtain ⟨values, hwritten⟩ := written_of_encoded encoded
  have hlength := hwritten.length_text
  rw [List.length_append, List.length_cons] at hlength
  have hlonger : AddressNetwork.mainnet.hrp.length < AddressNetwork.testnet.hrp.length := by decide
  have hencoded := encode_decoded decoded
  rcases trim_replaced c hbefore hafter with hwhole | ⟨rfl, htrim⟩ | ⟨rfl, htrim⟩
  · -- the text keeps its length, so the network is the same
    rw [hwhole, List.map_append, List.map_cons, lower_of_plain hbefore, lower_of_plain hafter]
      at hencoded
    obtain ⟨values', hwritten'⟩ := written_of_encoded hencoded
    have hlength' := hwritten'.length_text
    rw [List.length_append, List.length_cons] at hlength'
    obtain rfl : network = other := network_of_length (by omega)
    by_cases hlowered : c.toLower = letter
    · have hupper : c.isUpper = true := by
        rw [isUpper_iff, hlowered]
        exact replaced.symm
      exact capital_rejected encoded hupper hwhole decoded
    · have hset : before ++ c.toLower :: after
          = (before ++ letter :: after).set before.length c.toLower := by simp
      rw [hset] at hwritten'
      have hsame := hwritten.not_one_letter_apart hwritten'
      rw [← hset] at hsame
      have hcons := List.append_cancel_left hsame
      exact hlowered (List.cons.inj hcons).1
  · -- the first letter is trimmed: the prefix of one network could become that of the other
    rw [htrim, lower_of_plain hafter] at hencoded
    obtain ⟨values', hwritten'⟩ := written_of_encoded hencoded
    have hlength' := hwritten'.length_text
    have htext := hwritten.text_eq
    have htext' := hwritten'.text_eq
    rw [List.length_nil] at hlength
    cases network with
    | mainnet => cases other <;> omega
    | testnet =>
      cases other with
      | testnet => omega
      | mainnet =>
        have hletters : after = AddressNetwork.mainnet.hrp ++ '1' :: letters values :=
          (List.cons.inj htext).2
        rw [hletters] at htext'
        have hvalues := letters_injective hwritten.small hwritten'.small
          (List.cons.inj (List.append_cancel_left htext')).2
        have hverified := hwritten'.verified
        rw [← hvalues] at hverified
        exact not_verified_twice hwritten.small hwritten.verified hverified
  · -- the last letter is trimmed: what is left begins as before
    rw [htrim, lower_of_plain hbefore] at hencoded
    obtain ⟨values', hwritten'⟩ := written_of_encoded hencoded
    have hlength' := hwritten'.length_text
    rw [List.length_nil] at hlength
    have htext := hwritten.text_eq
    rw [hwritten'.text_eq] at htext
    cases network with
    | mainnet => cases other <;> omega
    | testnet =>
      cases other with
      | testnet => omega
      | mainnet => exact absurd (List.cons.inj htext).1 (by decide)

/-! ## The codec -/

/-- **The address codec.** On every network: every address is written and read back, unless it is a
legacy address whose key is not valid, which is not written; a text that is accepted is, trimmed
and lowered, what is written for the address it is read as; and what is written is accepted neither
on another network nor, on any network, with one letter replaced. -/
theorem addressCodec_exact (network : AddressNetwork) :
    (∀ address : VersionedAddress,
      (KeyValid address ↔ ∃ text, encodeVersionedAddress address network = .ok text) ∧
      ∀ text, encodeVersionedAddress address network = .ok text →
        decodeVersionedAddress text network = .ok address) ∧
    (∀ (text : Str) (address : VersionedAddress),
      decodeVersionedAddress text network = .ok address →
        encodeVersionedAddress address network = .ok ((trim text).map Char.toLower)) ∧
    ∀ (address : VersionedAddress) (text : Str),
      encodeVersionedAddress address network = .ok text →
        (∀ other ≠ network, ∀ result, decodeVersionedAddress text other ≠ .ok result) ∧
        ∀ (other : AddressNetwork) (index : ℕ) (c : Char) (_ : index < text.length),
          text[index] ≠ c → ∀ result, decodeVersionedAddress (text.set index c) other ≠ .ok result := by
  refine ⟨?_, fun text address decoded => encode_decoded decoded, ?_⟩
  · intro address
    refine ⟨⟨?_, ?_⟩, ?_⟩
    · intro valid
      obtain ⟨text, _, hencoded, _⟩ := encoded_written network valid
      exact ⟨text, hencoded⟩
    · rintro ⟨text, hencoded⟩
      exact keyValid_of_encoded hencoded
    · intro text encoded
      obtain ⟨values, hwritten⟩ := written_of_encoded encoded
      exact hwritten.decodes encoded
  · intro address text encoded
    refine ⟨fun other foreign result => foreign_rejected encoded foreign, ?_⟩
    intro other index c hindex replaced result
    have hsplit : text = text.take index ++ text[index] :: text.drop (index + 1) := by
      rw [← List.drop_eq_getElem_cons hindex, List.take_append_drop]
    rw [List.set_eq_take_append_cons_drop, if_pos hindex]
    rw [hsplit] at encoded
    exact replaced_rejected encoded (Ne.symm replaced)

namespace Toy

attribute [local instance] crypto

/-- The address of a commitment of zero bytes. -/
def zeroCommitment : VersionedAddress :=
  ⟨.hybridKeyCommitment, ⟨List.replicate 32 0, length_zeros⟩⟩

/-- The address is written and read back on the test network; without its first letter, which is a
prefix of the main network followed by the same values, it is accepted on neither. -/
theorem addressCodec_exact_zeroCommitment :
    ∃ text, encodeVersionedAddress zeroCommitment .testnet = .ok text ∧
      decodeVersionedAddress text .testnet = .ok zeroCommitment ∧
      ∀ other result, decodeVersionedAddress (text.set 0 ' ') other ≠ .ok result := by
  obtain ⟨hround, -, hrejected⟩ := addressCodec_exact .testnet
  have hvalid : KeyValid zeroCommitment := by
    intro hlegacy
    cases hlegacy
  obtain ⟨text, hencoded⟩ := (hround zeroCommitment).1.mp hvalid
  obtain ⟨values, hwritten⟩ := written_of_encoded hencoded
  have hlength : 0 < text.length := by
    rw [hwritten.length_text]
    omega
  have hfirst : text[0] ≠ ' ' := by
    intro hblank
    have hplain := (plain_encoded hencoded text[0] (List.getElem_mem hlength)).2
    rw [hblank] at hplain
    exact absurd hplain (by decide)
  refine ⟨text, hencoded, (hround zeroCommitment).2 text hencoded, ?_⟩
  intro other result
  exact (hrejected zeroCommitment text hencoded).2 other 0 ' ' hlength hfirst result

end Toy

end Iuna
