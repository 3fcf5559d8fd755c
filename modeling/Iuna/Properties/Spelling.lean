import Iuna.Domain.Address
import Iuna.Library.Packing
import Mathlib.Tactic.Ring

/-!
# The spelling of an address

`decode_versioned_address` trims its text and lowers its letters; apart from this it reads every
hybrid address from one text only.  The groups of five bits are determined by the bytes
(`convertBits_regroup`), the checksum by the groups before it (`createChecksum_of_verify`), and the
letters by the groups, so that the encoder writes the text again, trimmed and lowered
(`encode_decoded`).
-/

namespace Iuna

open Packing

/-! ## Groups of bits -/

/-- The inner loop moves the bits of the accumulator into groups, and leaves less than one. -/
lemma drainBits_spec {target accumulator fuel bitCount left : ℕ} {groups : List ℕ}
    (positive : 0 < target) (enough : bitCount < fuel)
    (h : drainBits target accumulator fuel bitCount = (groups, left)) :
    left < target ∧ groups.length * target + left = bitCount ∧
      (∀ group ∈ groups, group < 2 ^ target) ∧
      packed target groups * 2 ^ left + accumulator % 2 ^ left = accumulator % 2 ^ bitCount := by
  induction fuel generalizing bitCount groups with
  | zero => omega
  | succ fuel ih =>
    unfold drainBits at h
    by_cases hfull : target ≤ bitCount
    · rw [if_pos hfull] at h
      cases hdrain : drainBits target accumulator fuel (bitCount - target) with
      | mk rest left' =>
        rw [hdrain] at h
        obtain ⟨hgroups, rfl⟩ := Prod.mk.inj h
        obtain ⟨hleft, hlength, hsmall, hpacked⟩ := ih (by omega) hdrain
        rw [Nat.and_two_pow_sub_one_eq_mod, Nat.shiftRight_eq_div_pow] at hgroups
        subst hgroups
        refine ⟨hleft, ?_, ?_, ?_⟩
        · rw [List.length_cons, Nat.succ_mul]
          omega
        · intro group hgroup
          rcases List.mem_cons.mp hgroup with rfl | hgroup
          · exact Nat.mod_lt _ (Nat.two_pow_pos _)
          · exact hsmall group hgroup
        · have hexponent : target * rest.length + left' = bitCount - target := by
            rw [Nat.mul_comm]
            exact hlength
          have hsplit : accumulator % 2 ^ bitCount = accumulator % 2 ^ (bitCount - target)
              + 2 ^ (bitCount - target)
                * (accumulator / 2 ^ (bitCount - target) % 2 ^ target) := by
            rw [← Nat.mod_mul, ← pow_add, Nat.sub_add_cancel hfull]
          have hpower : 2 ^ (bitCount - target) = 2 ^ (target * rest.length) * 2 ^ left' := by
            rw [← hexponent, pow_add]
          rw [packed_cons, hsplit, ← hpacked]
          generalize accumulator / 2 ^ (bitCount - target) % 2 ^ target = group
          rw [hpower]
          ring
    · rw [if_neg hfull] at h
      obtain ⟨rfl, rfl⟩ := Prod.mk.inj h
      refine ⟨by omega, by simp, by simp, by simp⟩

/-- The outer loop keeps the bits, in their order. -/
lemma convertBitsLoop_spec {source target : ℕ} (positive : 0 < target) {values converted : List ℕ}
    {accumulator accumulator' bitCount bitCount' : ℕ} (few : bitCount < target)
    (h : convertBitsLoop source target values accumulator bitCount
      = .ok (converted, accumulator', bitCount')) :
    bitCount' < target ∧
      converted.length * target + bitCount' = bitCount + source * values.length ∧
      (∀ group ∈ converted, group < 2 ^ target) ∧
      packed target converted * 2 ^ bitCount' + accumulator' % 2 ^ bitCount'
        = accumulator % 2 ^ bitCount * 2 ^ (source * values.length) + packed source values := by
  induction values generalizing accumulator bitCount converted with
  | nil =>
    unfold convertBitsLoop at h
    obtain ⟨rfl, rfl, rfl⟩ : converted = [] ∧ accumulator' = accumulator ∧ bitCount' = bitCount := by
      simpa [eq_comm] using h
    refine ⟨few, by simp, by simp, by simp⟩
  | cons value values ih =>
    unfold convertBitsLoop at h
    simp only [Outcome.bind_eq_ok, Outcome.bailIf_eq_ok, not_not, Outcome.pure_eq_ok] at h
    obtain ⟨_, hsmall, h⟩ := h
    have hvalue : value < 2 ^ source := by
      rw [Nat.shiftRight_eq_div_pow] at hsmall
      exact (Nat.div_eq_zero_iff_lt (Nat.two_pow_pos _)).mp hsmall
    have hshifted : (((accumulator <<< source) ||| value) &&& (2 ^ (source + target - 1) - 1))
        % 2 ^ (bitCount + source) = accumulator % 2 ^ bitCount * 2 ^ source + value := by
      have hdivides : 2 ^ (bitCount + source) ∣ 2 ^ (source + target - 1) :=
        pow_dvd_pow 2 (by omega)
      have hquotient : (accumulator * 2 ^ source + value) / 2 ^ source = accumulator := by
        rw [Nat.mul_comm, Nat.mul_add_div (Nat.two_pow_pos _), Nat.div_eq_of_lt hvalue,
          Nat.add_zero]
      have hremainder : (accumulator * 2 ^ source + value) % 2 ^ source = value := by
        rw [Nat.mul_comm, Nat.mul_add_mod, Nat.mod_eq_of_lt hvalue]
      rw [Nat.and_two_pow_sub_one_eq_mod, shiftLeft_or_of_lt hvalue,
        Nat.mod_mod_of_dvd _ hdivides, Nat.add_comm bitCount source, pow_add, Nat.mod_mul,
        hquotient, hremainder]
      ring
    generalize ((accumulator <<< source) ||| value) &&& (2 ^ (source + target - 1) - 1)
      = shifted at h hshifted
    cases hdrain : drainBits target shifted (bitCount + source + 1) (bitCount + source) with
    | mk groups left =>
    rw [hdrain] at h
    obtain ⟨hleft, hlength, hgroups, hpacked⟩ :=
      drainBits_spec positive (Nat.lt_succ_self (bitCount + source)) hdrain
    simp only [Prod.exists, Prod.mk.injEq] at h
    obtain ⟨rest, accumulator'', bitCount'', hrest, rfl, rfl, rfl⟩ := h
    obtain ⟨hfew, hrestLength, hrestGroups, hrestPacked⟩ := ih hleft hrest
    refine ⟨hfew, ?_, ?_, ?_⟩
    · rw [List.length_append, List.length_cons, Nat.add_mul, Nat.mul_succ]
      omega
    · intro group hgroup
      rcases List.mem_append.mp hgroup with hgroup | hgroup
      · exact hgroups group hgroup
      · exact hrestGroups group hgroup
    · have hexponent : target * rest.length + bitCount'' = left + source * values.length := by
        rw [Nat.mul_comm]
        exact hrestLength
      calc packed target (groups ++ rest) * 2 ^ bitCount'' + accumulator'' % 2 ^ bitCount''
          = packed target groups * 2 ^ (target * rest.length + bitCount'')
            + (packed target rest * 2 ^ bitCount'' + accumulator'' % 2 ^ bitCount'') := by
              rw [packed_append, pow_add]
              ring
        _ = (packed target groups * 2 ^ left + shifted % 2 ^ left) * 2 ^ (source * values.length)
            + packed source values := by
              rw [hrestPacked, hexponent, pow_add]
              ring
        _ = accumulator % 2 ^ bitCount * 2 ^ (source * (value :: values).length)
            + packed source (value :: values) := by
              rw [hpacked, hshifted, packed_cons, List.length_cons, Nat.mul_succ, pow_add]
              ring

/-- The outer loop succeeds on groups of its width. -/
lemma convertBitsLoop_succeeds {source target : ℕ} {values : List ℕ}
    (small : ∀ value ∈ values, value < 2 ^ source) (accumulator bitCount : ℕ) :
    ∃ converted accumulator' bitCount', convertBitsLoop source target values accumulator bitCount
      = .ok (converted, accumulator', bitCount') := by
  induction values generalizing accumulator bitCount with
  | nil => exact ⟨[], accumulator, bitCount, rfl⟩
  | cons value values ih =>
    have hvalue : value >>> source = 0 := by
      rw [Nat.shiftRight_eq_div_pow]
      exact Nat.div_eq_of_lt (small value List.mem_cons_self)
    have hrest := ih fun other hother => small other (List.mem_cons_of_mem _ hother)
    unfold convertBitsLoop
    simp only [Outcome.bind_eq_ok, Outcome.bailIf_eq_ok, not_not, Outcome.pure_eq_ok, Prod.exists]
    obtain ⟨rest, accumulator', bitCount', hrest⟩ := hrest _ _
    exact ⟨_, accumulator', bitCount', ⟨⟩, hvalue, rest, accumulator', bitCount', hrest, rfl⟩

/-- **Regrouping.** Groups of five bits that are read as 32 bytes are what the bytes are written
as. -/
theorem convertBits_regroup {groups bytes : List ℕ}
    (small : ∀ group ∈ groups, group < 2 ^ 5) (length : bytes.length = 32)
    (h : convertBits groups 5 8 false = .ok bytes) :
    convertBits bytes 8 5 true = .ok groups ∧ ∀ byte ∈ bytes, byte < 2 ^ 8 := by
  simp only [convertBits, Outcome.bind_eq_ok, Bool.false_eq_true, if_false, Outcome.bailIf_eq_ok,
    Outcome.pure_eq_ok, not_or, not_not, not_le, Prod.exists] at h
  obtain ⟨bytes', accumulator, bitCount, hread, _, ⟨hfew, hpadding⟩, rfl⟩ := h
  obtain ⟨-, hcount, hbytes, hpacked⟩ := convertBitsLoop_spec (by omega) (by omega) hread
  have hbitCount : bitCount = 4 := by omega
  have hgroups : groups.length = 52 := by omega
  subst hbitCount
  have hzero : accumulator % 2 ^ 4 = 0 := by
    rw [Nat.and_two_pow_sub_one_eq_mod, Nat.shiftLeft_eq] at hpadding
    omega
  obtain ⟨written, accumulator', bitCount', hwrite⟩ :=
    @convertBitsLoop_succeeds 8 5 bytes' hbytes 0 0
  obtain ⟨hfew', hcount', hwritten, hpacked'⟩ := convertBitsLoop_spec (by omega) (by omega) hwrite
  have hbitCount' : bitCount' = 1 := by omega
  subst hbitCount'
  refine ⟨?_, hbytes⟩
  simp only [convertBits, Outcome.bind_eq_ok, if_true, Outcome.pure_eq_ok, Prod.exists]
  refine ⟨written, accumulator', 1, hwrite, ?_⟩
  rw [if_pos (by omega), Nat.and_two_pow_sub_one_eq_mod, Nat.shiftLeft_eq]
  refine @packed_inj 5 _ _ (by omega) ?_ ?_ small ?_
  · rw [List.length_append, List.length_singleton]
    omega
  · intro group hgroup
    rcases List.mem_append.mp hgroup with hgroup | hgroup
    · exact hwritten group hgroup
    · rw [List.mem_singleton.mp hgroup]
      exact Nat.mod_lt _ (Nat.two_pow_pos _)
  · rw [packed_snoc]
    rw [hzero] at hpacked
    simp only [Nat.zero_mod, Nat.zero_mul, Nat.zero_add, Nat.add_zero] at hpacked hpacked'
    omega

/-! ## The checksum -/

/-- The generators that the top bits of a checksum select. -/
def mixed (top : ℕ) : ℕ :=
  bech32Generators.foldl (fun checksum entry =>
    if (top >>> entry.1) &&& 1 ≠ 0 then checksum ^^^ entry.2 else checksum) 0

/-- One round of `polymod`. -/
def polymodRound (checksum value : ℕ) : ℕ :=
  (((checksum &&& 0x01ffffff) <<< 5) ^^^ value) ^^^ mixed (checksum >>> 25)

lemma foldl_xor {α : Type} (selected : α → Prop) [DecidablePred selected] (word : α → ℕ)
    (entries : List α) (start : ℕ) :
    entries.foldl (fun checksum entry =>
        if selected entry then checksum ^^^ word entry else checksum) start
      = start ^^^ entries.foldl (fun checksum entry =>
        if selected entry then checksum ^^^ word entry else checksum) 0 := by
  induction entries generalizing start with
  | nil => simp
  | cons entry entries ih =>
    rw [List.foldl_cons, List.foldl_cons]
    by_cases hselected : selected entry
    · rw [if_pos hselected, if_pos hselected, ih, ih (0 ^^^ word entry), Nat.zero_xor,
        Nat.xor_assoc]
    · rw [if_neg hselected, if_neg hselected, ih]

lemma polymod_eq (values : List ℕ) : polymod values = values.foldl polymodRound 1 := by
  unfold polymod
  congr 1
  funext checksum value
  exact foldl_xor (fun entry : ℕ × ℕ => ((checksum >>> 25) >>> entry.1) &&& 1 ≠ 0) Prod.snd _ _

/-- What is in the low bits of a checksum only moves up in the next round. -/
lemma polymodRound_xor {low : ℕ} (small : low < 2 ^ 25) (checksum value : ℕ) :
    polymodRound (checksum ^^^ low) value
      = polymodRound checksum 0 ^^^ ((low <<< 5) ^^^ value) := by
  have htop : (checksum ^^^ low) >>> 25 = checksum >>> 25 := by
    have hlow : low >>> 25 = 0 := by
      rw [Nat.shiftRight_eq_div_pow]
      exact Nat.div_eq_of_lt small
    rw [Nat.shiftRight_xor_distrib, hlow, Nat.xor_zero]
  have hmask : (checksum ^^^ low) &&& 0x01ffffff = (checksum &&& 0x01ffffff) ^^^ low := by
    have hlow : low &&& 0x01ffffff = low := by
      rw [show 0x01ffffff = 2 ^ 25 - 1 by norm_num, Nat.and_two_pow_sub_one_eq_mod]
      exact Nat.mod_eq_of_lt small
    rw [Nat.and_xor_distrib_right, hlow]
  unfold polymodRound
  rw [htop, hmask, Nat.shiftLeft_xor_distrib, Nat.xor_zero]
  ac_rfl

/-- Up to six groups enter a checksum without meeting its top bits. -/
lemma foldl_polymodRound {groups : List ℕ} (small : ∀ group ∈ groups, group < 2 ^ 5)
    (done : List ℕ) (smallDone : ∀ group ∈ done, group < 2 ^ 5)
    (length : done.length + groups.length ≤ 6) (checksum : ℕ) :
    groups.foldl polymodRound (checksum ^^^ packed 5 done)
      = (List.replicate groups.length 0).foldl polymodRound checksum
        ^^^ packed 5 (done ++ groups) := by
  induction groups generalizing done checksum with
  | nil => simp
  | cons group groups ih =>
    have hgroup := small group List.mem_cons_self
    have hlow : packed 5 done < 2 ^ 25 := by
      have hbound := packed_lt smallDone
      rw [List.length_cons] at length
      refine lt_of_lt_of_le hbound (Nat.pow_le_pow_right (by omega) ?_)
      omega
    rw [List.foldl_cons, polymodRound_xor hlow, shiftLeft_xor_of_lt hgroup, ← packed_snoc]
    have hrest := ih (fun other hother => small other (List.mem_cons_of_mem _ hother))
      (done ++ [group]) ?_ ?_ (polymodRound checksum 0)
    · rw [hrest, List.length_cons, List.replicate_succ, List.foldl_cons, List.append_assoc]
      rfl
    · intro other hother
      rcases List.mem_append.mp hother with hother | hother
      · exact smallDone other hother
      · rw [List.mem_singleton.mp hother]
        exact hgroup
    · rw [List.length_append, List.length_singleton]
      rw [List.length_cons] at length
      omega

/-- **The checksum** of some groups is determined by the groups. -/
theorem createChecksum_of_verify {hrp : Str} {groups checksum : List ℕ}
    (small : ∀ group ∈ checksum, group < 2 ^ 5) (length : checksum.length = 6)
    (verified : verifyChecksum hrp (groups ++ checksum) = true) :
    createChecksum hrp groups = checksum := by
  have hpolymod : polymod (hrpExpand hrp ++ (groups ++ checksum)) = bech32mConst := by
    simpa [verifyChecksum] using verified
  have hsplit := foldl_polymodRound small [] (by simp) (by simp [length])
    ((hrpExpand hrp ++ groups).foldl polymodRound 1)
  rw [packed_nil, Nat.xor_zero, length, List.nil_append, ← List.foldl_append, ← List.foldl_append,
    ← polymod_eq, ← polymod_eq, List.append_assoc, hpolymod] at hsplit
  have hvalue : polymod (hrpExpand hrp ++ groups ++ List.replicate 6 0) ^^^ bech32mConst
      = packed 5 checksum := by
    rw [hsplit, ← Nat.xor_assoc, Nat.xor_self, Nat.zero_xor]
  unfold createChecksum
  dsimp only
  rw [hvalue]
  match checksum, length with
  | [a, b, c, d, e, f], _ =>
    simp only [List.mem_cons, List.not_mem_nil, or_false, forall_eq_or_imp, forall_eq] at small
    obtain ⟨ha, hb, hc, hd, he, hf⟩ := small
    have hpacked : packed 5 [a, b, c, d, e, f]
        = ((((a * 32 + b) * 32 + c) * 32 + d) * 32 + e) * 32 + f := by
      simp only [packed_cons, packed_nil, List.length_cons, List.length_nil]
      ring
    rw [hpacked]
    simp only [List.range_succ, List.range_zero, List.nil_append, List.cons_append, List.map_cons,
      List.map_nil, Nat.shiftRight_eq_div_pow, show (31 : ℕ) = 2 ^ 5 - 1 by norm_num,
      Nat.and_two_pow_sub_one_eq_mod, List.cons.injEq, and_true]
    refine ⟨?_, ?_, ?_, ?_, ?_, ?_⟩ <;> omega

/-! ## The letters -/

lemma decodeCharset_eq_ok {letter : Char} {value : ℕ} (h : decodeCharset letter = .ok value) :
    value < 2 ^ 5 ∧ bech32Charset.getD value 'q' = letter := by
  simp only [decodeCharset, orError, Outcome.ofOption_eq_ok, List.findIdx?_eq_some_iff_getElem,
    decide_eq_true_eq] at h
  obtain ⟨hvalue, hletter, -⟩ := h
  refine ⟨hvalue, ?_⟩
  rw [List.getD_eq_getElem?_getD, List.getElem?_eq_getElem hvalue, Option.getD_some, hletter]

lemma decodeCharset_mapM {letters : Str} {values : List ℕ}
    (h : letters.mapM decodeCharset = .ok values) :
    (∀ value ∈ values, value < 2 ^ 5) ∧
      values.map (fun value => bech32Charset.getD value 'q') = letters := by
  have hpairs := Outcome.mapM_eq_ok.mp h
  induction hpairs with
  | nil => simp
  | cons head _ ih =>
    obtain ⟨hsmall, hletter⟩ := decodeCharset_eq_ok head
    obtain ⟨hrest, hletters⟩ := ih (Outcome.mapM_eq_ok.mpr (by assumption))
    refine ⟨?_, by rw [List.map_cons, hletter, hletters]⟩
    intro value hvalue
    rcases List.mem_cons.mp hvalue with rfl | hvalue
    · exact hsmall
    · exact hrest value hvalue

lemma split_at_lastIndexOf {c : Char} {s : Str} {index : ℕ} (h : lastIndexOf c s = some index) :
    s = s.take index ++ c :: s.drop (index + 1) := by
  simp only [lastIndexOf, Option.map_eq_some_iff, List.findIdx?_eq_some_iff_getElem,
    decide_eq_true_eq] at h
  obtain ⟨offset, ⟨hoffset, hletter, -⟩, rfl⟩ := h
  rw [List.length_reverse] at hoffset
  rw [List.getElem_reverse] at hletter
  have hindex : s.length - 1 - offset < s.length := by omega
  conv_lhs => rw [← List.take_append_drop (s.length - 1 - offset) s,
    List.drop_eq_getElem_cons hindex, hletter]

lemma toNat_ofNat_of_lt {n : ℕ} (small : n < 2 ^ 8) : (UInt8.ofNat n).toNat = n := by
  rw [UInt8.toNat_ofNat']
  exact Nat.mod_eq_of_lt small

lemma wireId_of_fromWireId {id : UInt8} {version : AddressVersion}
    (h : AddressVersion.fromWireId id = some version) : version.wireId = id := by
  unfold AddressVersion.fromWireId at h
  split at h
  · rename_i hid
    obtain rfl := Option.some.inj h
    exact hid.symm
  · split at h
    · rename_i hid
      obtain rfl := Option.some.inj h
      exact hid.symm
    · cases h

variable [Crypto]

/-- **One spelling.** What the encoder writes for an address that a text decodes to is the text,
trimmed and lowered. -/
theorem encode_decoded {network : AddressNetwork} {text : Str} {address : VersionedAddress}
    (decoded : decodeVersionedAddress text network = .ok address) :
    encodeVersionedAddress address network = .ok ((trim text).map Char.toLower) := by
  unfold decodeVersionedAddress at decoded
  dsimp only at decoded
  generalize trim text = trimmed at decoded ⊢
  generalize hnormalized : trimmed.map Char.toLower = normalized at decoded ⊢
  simp only [Outcome.bind_eq_ok, Outcome.bailIf_eq_ok, orError, Outcome.ofOption_eq_ok,
    not_not] at decoded
  obtain ⟨_, _, _, _, _, _, separator, hseparator, _, hstructure, _, hhrp, data, hdata, _, hverified,
    h⟩ := decoded
  obtain ⟨hsmall, hletters⟩ := decodeCharset_mapM hdata
  have hlength : 6 ≤ data.length := by
    have hcount := congrArg List.length hletters
    rw [List.length_map, List.length_drop] at hcount
    omega
  have hdivided := List.take_append_drop (data.length - 6) data
  cases hpayload : data.take (data.length - 6) with
  | nil =>
    rw [hpayload] at h
    cases h
  | cons version key =>
    rw [hpayload] at h hdivided
    simp only [Outcome.bind_eq_ok, Outcome.ofOption_eq_ok, fixed_eq_ok] at h
    obtain ⟨addressVersion, hversion, bytes, hbytes, payload, hfixed, hchecked⟩ := h
    have hmem : ∀ value ∈ version :: key, value < 2 ^ 5 := by
      intro value hvalue
      rw [← hpayload] at hvalue
      exact hsmall value (List.mem_of_mem_take hvalue)
    have hbytesLength : bytes.length = 32 := by
      have hcount := payload.property
      rw [hfixed, List.length_map] at hcount
      exact hcount
    obtain ⟨hregroup, hbytesSmall⟩ :=
      convertBits_regroup (fun group hgroup => hmem group (List.mem_cons_of_mem _ hgroup))
        hbytesLength hbytes
    have hread : payload.val.map UInt8.toNat = bytes := by
      rw [hfixed, List.map_map]
      conv_rhs => rw [← List.map_id bytes]
      refine List.map_congr_left fun byte hbyte => ?_
      exact toNat_ofNat_of_lt (hbytesSmall byte hbyte)
    have hwire : addressVersion.wireId.toNat = version := by
      have hversionSmall : version < 2 ^ 5 := hmem version List.mem_cons_self
      rw [wireId_of_fromWireId hversion]
      exact toNat_ofNat_of_lt (by omega)
    have hchecksum : createChecksum network.hrp (version :: key)
        = data.drop (data.length - 6) := by
      refine createChecksum_of_verify ?_ ?_ ?_
      · intro group hgroup
        exact hsmall group (List.mem_of_mem_drop hgroup)
      · rw [List.length_drop]
        omega
      · rw [hdivided, ← hhrp]
        simpa using hverified
    have hwritten : network.hrp ++ '1' :: (addressVersion.wireId.toNat :: key
        ++ createChecksum network.hrp (addressVersion.wireId.toNat :: key)).map
          (fun value => bech32Charset.getD value 'q') = normalized := by
      rw [hwire, hchecksum, hdivided, hletters, ← hhrp]
      exact (split_at_lastIndexOf hseparator).symm
    by_cases hlegacy : addressVersion = .ed25519PublicKey
    · rw [if_pos hlegacy] at hchecked
      simp only [Outcome.bind_eq_ok, Outcome.pure_eq_ok] at hchecked
      obtain ⟨_, hvalid, rfl⟩ := hchecked
      unfold encodeVersionedAddress
      dsimp only
      rw [if_pos hlegacy, hvalid, hread, hregroup]
      exact congrArg Except.ok hwritten
    · rw [if_neg hlegacy] at hchecked
      obtain rfl := Outcome.pure_eq_ok.mp hchecked
      unfold encodeVersionedAddress
      dsimp only
      rw [if_neg hlegacy, hread, hregroup]
      exact congrArg Except.ok hwritten

/-- A text that is trimmed and lowered already is what the encoder writes for what it decodes
to. -/
theorem encode_decode {network : AddressNetwork} {text : Str} {address : VersionedAddress}
    (trimmed : trim text = text) (lowered : text.map Char.toLower = text)
    (decoded : decodeVersionedAddress text network = .ok address) :
    encodeVersionedAddress address network = .ok text := by
  have hencoded := encode_decoded decoded
  rw [trimmed, lowered] at hencoded
  exact hencoded

/-- A letter that trimming and lowering leave as it is. -/
def Plain (letter : Char) : Prop := letter.toLower = letter ∧ isWhiteSpace letter = false

omit [Crypto] in
/-- Letters are checked one by one: there are too many of them to decide a statement about all. -/
lemma plain_of_all {letters : Str} (h : letters.all (fun letter =>
    letter.toLower = letter ∧ isWhiteSpace letter = false) = true) :
    ∀ letter ∈ letters, Plain letter := by
  intro letter hletter
  have hplain := List.all_eq_true.mp h letter hletter
  rw [decide_eq_true_eq] at hplain
  exact hplain

omit [Crypto] in
lemma plain_charset (value : ℕ) : Plain (bech32Charset.getD value 'q') := by
  have hletters : ∀ letter ∈ bech32Charset, Plain letter := plain_of_all (by decide)
  by_cases hvalue : value < bech32Charset.length
  · rw [List.getD_eq_getElem?_getD, List.getElem?_eq_getElem hvalue, Option.getD_some]
    exact hletters _ (List.getElem_mem hvalue)
  · rw [List.getD_eq_getElem?_getD, List.getElem?_eq_none (by omega), Option.getD_none]
    exact ⟨by decide, by decide⟩

omit [Crypto] in
lemma plain_hrp (network : AddressNetwork) : ∀ letter ∈ network.hrp, Plain letter := by
  cases network with
  | mainnet => exact plain_of_all (by decide)
  | testnet => exact plain_of_all (by decide)

/-- The letters that the encoder writes. -/
lemma plain_encoded {network : AddressNetwork} {text : Str} {address : VersionedAddress}
    (encoded : encodeVersionedAddress address network = .ok text) :
    ∀ letter ∈ text, Plain letter := by
  have htext : ∃ groups : List ℕ,
      text = network.hrp ++ '1' :: groups.map fun value => bech32Charset.getD value 'q' := by
    unfold encodeVersionedAddress at encoded
    dsimp only at encoded
    split at encoded
    · simp only [Outcome.bind_eq_ok, Outcome.pure_eq_ok] at encoded
      obtain ⟨_, -, payload, -, rfl⟩ := encoded
      exact ⟨_, rfl⟩
    · simp only [Outcome.bind_eq_ok, Outcome.pure_eq_ok] at encoded
      obtain ⟨payload, -, rfl⟩ := encoded
      exact ⟨_, rfl⟩
  obtain ⟨groups, rfl⟩ := htext
  intro letter hletter
  rcases List.mem_append.mp hletter with hletter | hletter
  · exact plain_hrp network letter hletter
  · rcases List.mem_cons.mp hletter with rfl | hletter
    · exact ⟨by decide, by decide⟩
    · obtain ⟨value, -, rfl⟩ := List.mem_map.mp hletter
      exact plain_charset value

omit [Crypto] in
lemma trim_of_plain {text : Str} (plain : ∀ letter ∈ text, Plain letter) : trim text = text := by
  have hdrop (letters : Str) (h : ∀ letter ∈ letters, Plain letter) :
      letters.dropWhile isWhiteSpace = letters := by
    cases letters with
    | nil => rfl
    | cons letter letters =>
      have hblank := (h letter List.mem_cons_self).2
      rw [List.dropWhile_cons_of_neg (by simp [hblank])]
  unfold trim
  rw [hdrop text plain, hdrop text.reverse fun letter hletter =>
    plain letter (List.mem_reverse.mp hletter), List.reverse_reverse]

/-- **The encoder's spelling** of what a text decodes to is the text itself exactly if nothing is
left to trim and to lower. -/
theorem encode_decode_iff {network : AddressNetwork} {text : Str} {address : VersionedAddress}
    (decoded : decodeVersionedAddress text network = .ok address) :
    encodeVersionedAddress address network = .ok text ↔
      trim text = text ∧ text.map Char.toLower = text := by
  constructor
  · intro encoded
    have hplain := plain_encoded encoded
    refine ⟨trim_of_plain hplain, ?_⟩
    conv_rhs => rw [← List.map_id text]
    exact List.map_congr_left fun letter hletter => (hplain letter hletter).1
  · intro spelled
    exact encode_decode spelled.1 spelled.2 decoded

end Iuna
