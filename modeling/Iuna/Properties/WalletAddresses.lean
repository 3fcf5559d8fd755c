import Iuna.Adapters.BrowserWallet
import Iuna.Properties.AddressCodec
import Iuna.Properties.CodecV2

/-!
# The address codec of the browser wallet

The wallet writes and reads Bech32m texts with its own arithmetic.  The checksum, the regrouping of
bits and the alphabet are those of the node (`polymod_eq`, `convertBits_eq_ok`, `position_eq_ok`).
The two sides differ in how a network chooses its prefix and in the check of a legacy key, and in
nothing else (`addressAgrees_iff`).
-/

namespace Iuna.BrowserWallet

/-! ## The address codec -/

lemma polymod_eq (values : List ℕ) : polymod values = Iuna.polymod values := by
  have hbit (n : ℕ) : n &&& 1 = 1 ↔ n &&& 1 ≠ 0 := by
    rw [Nat.and_one_is_mod]
    omega
  have hgenerators : generators = bech32Generators := rfl
  simp only [polymod, Iuna.polymod, hbit, hgenerators]

lemma hrpExpand_eq (hrp : Str) : hrpExpand hrp = Iuna.hrpExpand hrp := by
  simp [hrpExpand, Iuna.hrpExpand]

lemma takeGroups_eq (target accumulator fuel bits : ℕ) :
    takeGroups target accumulator fuel bits = drainBits target accumulator fuel bits := by
  induction fuel generalizing bits with
  | zero => rfl
  | succ fuel ih => simp only [takeGroups, drainBits, ih]

lemma convertBitsLoop_eq_ok {source target : ℕ} {values : List ℕ} {accumulator bits : ℕ}
    {converted : List ℕ × ℕ × ℕ} :
    convertBitsLoop source target values accumulator bits = .ok converted ↔
      Iuna.convertBitsLoop source target values accumulator bits = .ok converted := by
  induction values generalizing accumulator bits converted with
  | nil => rfl
  | cons value values ih =>
    simp only [convertBitsLoop, Iuna.convertBitsLoop, takeGroups_eq, Outcome.bind_eq_ok,
      Outcome.bailIf_eq_ok, ih]

/-- The two conversions accept the same groups and give the same ones. -/
lemma convertBits_eq_ok {data converted : List ℕ} {source target : ℕ} {pad : Bool} :
    convertBits data source target pad = .ok converted ↔
      Iuna.convertBits data source target pad = .ok converted := by
  simp only [convertBits, Iuna.convertBits, Outcome.bind_eq_ok, convertBitsLoop_eq_ok]
  apply exists_congr
  intro outcome
  apply and_congr_right
  intro _
  obtain ⟨result, accumulator, bits⟩ := outcome
  cases pad with
  | true => by_cases hbits : 0 < bits <;> simp [hbits]
  | false =>
    dsimp only
    generalize (accumulator <<< (target - bits)) &&& (2 ^ target - 1) = padding
    by_cases hpadding : source ≤ bits ∨ padding ≠ 0
    · rw [if_neg (by simp), if_pos ⟨by simp, hpadding⟩]
      simp [hpadding]
    · rw [if_neg (by simp), if_neg (by simp [hpadding])]
      simp [hpadding]

/-- An address of the node as the wallet holds it. -/
def walletAddress (address : VersionedAddress) : Address :=
  { version := address.version.wireId, payload := address.payload }

lemma walletAddress_injective {a b : VersionedAddress} (h : walletAddress a = walletAddress b) :
    a = b := by
  obtain ⟨version, payload⟩ := a
  obtain ⟨version', payload'⟩ := b
  obtain ⟨hversion, hpayload⟩ := Address.mk.inj h
  dsimp only at hversion hpayload
  have hsame : some version = some version' := by
    rw [← AddressVersion.fromWireId_wireId version, ← AddressVersion.fromWireId_wireId version',
      hversion]
  rw [Option.some.inj hsame, hpayload]

/-- The network names of the two sides give one prefix: a name that the wallet takes for a test
network is one of the two that the node knows. -/
def SameNetwork (networkId : Str) : Prop :=
  str "testnet" <:+: networkId ∨ str "e2e" <:+: networkId →
    networkId = str "iuna-local-testnet-v1" ∨ networkId = str "iuna-local-e2e-5s-v1"

lemma sameNetwork_iff {networkId : Str} :
    SameNetwork networkId ↔ hrpOf networkId = (AddressNetwork.fromProfileId networkId).hrp := by
  have hne : str "iuna" ≠ str "tiuna" := by decide
  have hknown : networkId = str "iuna-local-testnet-v1" ∨ networkId = str "iuna-local-e2e-5s-v1" →
      str "testnet" <:+: networkId ∨ str "e2e" <:+: networkId := by
    rintro (rfl | rfl)
    · exact .inl ⟨str "iuna-local-", str "-v1", rfl⟩
    · exact .inr ⟨str "iuna-local-", str "-5s-v1", rfl⟩
  unfold SameNetwork hrpOf AddressNetwork.fromProfileId
  by_cases htest : str "testnet" <:+: networkId ∨ str "e2e" <:+: networkId
  · by_cases hprofile :
        networkId = str "iuna-local-testnet-v1" ∨ networkId = str "iuna-local-e2e-5s-v1"
    · simp [htest, hprofile, AddressNetwork.hrp]
    · simp [htest, hprofile, AddressNetwork.hrp, hne.symm]
  · have hprofile :
        ¬ (networkId = str "iuna-local-testnet-v1" ∨ networkId = str "iuna-local-e2e-5s-v1") :=
      fun h => htest (hknown h)
    simp [htest, hprofile, AddressNetwork.hrp]

/-- The position that both sides look up for a character. -/
lemma position_eq_ok {c : Char} {n : ℕ} :
    orError "address contains an invalid character" (charset.findIdx? (· = c)) = .ok n ↔
      decodeCharset c = .ok n := by
  simp only [decodeCharset, Outcome.ofOption_eq_ok]
  rfl

lemma positions_eq_ok {cs : List Char} {data : List ℕ} :
    (cs.mapM fun c => orError "address contains an invalid character" (charset.findIdx? (· = c)))
        = .ok data ↔ cs.mapM decodeCharset = .ok data := by
  simp only [Outcome.mapM_eq_ok, position_eq_ok]

/-- What follows the separator is as long as the groups that it is read as. -/
lemma length_of_mapM {cs : List Char} {data : List ℕ} (h : cs.mapM decodeCharset = .ok data) :
    data.length = cs.length :=
  (Outcome.mapM_eq_ok.mp h).length_eq.symm

lemma hrp_length (network : AddressNetwork) : 0 < network.hrp.length := by
  cases network <;> decide

/-- A symbol of the alphabet stands for five bits. -/
lemma decodeCharset_lt {c : Char} {n : ℕ} (h : decodeCharset c = .ok n) : n < 32 := by
  simp only [decodeCharset, Outcome.ofOption_eq_ok] at h
  exact (List.findIdx?_eq_some_iff_getElem.mp h).1.trans_le (by decide)

lemma version_small {cs : List Char} {data encoded : List ℕ} {version n : ℕ}
    (h : cs.mapM decodeCharset = .ok data) (hpayload : data.take n = version :: encoded) :
    version < 32 := by
  have hmem : version ∈ data := by
    have := List.take_subset n data
    exact this (hpayload ▸ List.mem_cons_self)
  obtain ⟨c, -, hc⟩ := Outcome.exists_partner (Outcome.mapM_eq_ok.mp h) hmem
  exact decodeCharset_lt hc

lemma verifyChecksum_eq_false {hrp : Str} {data : List ℕ} :
    verifyChecksum hrp data = false ↔
      Iuna.polymod (Iuna.hrpExpand hrp ++ data) ≠ bech32mConst := by
  simp [verifyChecksum]

/-- A version that both sides know. -/
lemma version_eq_ok {n : ℕ} {version : AddressVersion} (small : n < 32) :
    AddressVersion.fromWireId (UInt8.ofNat n) = some version ↔
      n ≤ 1 ∧ UInt8.ofNat n = version.wireId := by
  interval_cases n <;> cases version <;> decide

variable [Crypto]

/-- The wallet writes what the node writes for a network of the same prefix, without the node's
check of a legacy key. -/
lemma encodeVersionedAddress_eq_ok {address : VersionedAddress} {network : AddressNetwork}
    {networkId text : Str} (same : hrpOf networkId = network.hrp) :
    encodeVersionedAddress address network = .ok text ↔
      KeyValid address ∧
        encodeAddress (walletAddress address) networkId = .ok text := by
  have hchecksum (data : List ℕ) :
      (List.range 6).map (fun index => ((polymod (hrpExpand network.hrp ++ data
        ++ [0, 0, 0, 0, 0, 0]) ^^^ bech32m) >>> (5 * (5 - index))) &&& 31)
        = createChecksum network.hrp data := by
    rw [polymod_eq, hrpExpand_eq]
    rfl
  have hcharset : charset = bech32Charset := rfl
  by_cases hversion : address.version = .ed25519PublicKey
  · simp only [encodeVersionedAddress, encodeAddress, same, if_pos hversion, Outcome.bind_eq_ok,
      Outcome.mapErr_eq_ok, convertBits_eq_ok, Outcome.pure_eq_ok, hchecksum, hcharset]
    constructor
    · rintro ⟨u, hkey, h⟩
      exact ⟨fun _ => hkey, h⟩
    · rintro ⟨hkey, h⟩
      exact ⟨⟨⟩, hkey hversion, h⟩
  · simp only [encodeVersionedAddress, encodeAddress, same, if_neg hversion, Outcome.bind_eq_ok,
      Outcome.mapErr_eq_ok, convertBits_eq_ok, Outcome.pure_eq_ok, hchecksum, hcharset]
    exact ⟨fun h => ⟨fun hlegacy => absurd hlegacy hversion, h⟩, fun h => h.2⟩

/-- The payloads that the two sides read from the groups between the separator and the checksum. -/
lemma payload_eq_ok {version : ℕ} {encoded : List ℕ} {address : VersionedAddress}
    (small : version < 32) :
    (do
      let version ← orError s!"unsupported address version {version}"
        (AddressVersion.fromWireId (UInt8.ofNat version))
      let publicKey ← Iuna.convertBits encoded 5 8 false
      let payload ← fixed 32 (publicKey.map UInt8.ofNat)
        s!"address public key has {publicKey.length} bytes"
      if version = AddressVersion.ed25519PublicKey then
        validateEd25519PublicKey payload
      pure ({ version := version, payload := payload } : VersionedAddress)) = .ok address ↔
      KeyValid address ∧
        (do
          bailIf (1 < version) "unsupported address version"
          let bytes ← convertBits encoded 5 8 false
          let payload ← fixed 32 (bytes.map UInt8.ofNat) "address payload must contain 32 bytes"
          pure ({ version := UInt8.ofNat version, payload := payload } : Address))
          = .ok (walletAddress address) := by
  obtain ⟨wanted, key⟩ := address
  simp only [Outcome.bind_eq_ok, Outcome.ofOption_eq_ok, version_eq_ok small, Outcome.bailIf_eq_ok,
    convertBits_eq_ok, Outcome.pure_eq_ok, fixed_eq_ok, walletAddress, Address.mk.injEq, not_lt]
  constructor
  · rintro ⟨read, ⟨hle, hversion⟩, bytes, hbytes, payload, hpayload, h⟩
    by_cases hlegacy : read = .ed25519PublicKey
    · rw [if_pos hlegacy] at h
      obtain ⟨_, hvalid, h⟩ := Outcome.bind_eq_ok.mp h
      obtain ⟨rfl, rfl⟩ := VersionedAddress.mk.inj (Outcome.pure_eq_ok.mp h)
      exact ⟨fun _ => hvalid, ⟨⟩, hle, bytes, hbytes, payload, hpayload, hversion, rfl⟩
    · rw [if_neg hlegacy] at h
      obtain ⟨rfl, rfl⟩ := VersionedAddress.mk.inj (Outcome.pure_eq_ok.mp h)
      exact ⟨fun h => absurd h hlegacy, ⟨⟩, hle, bytes, hbytes, payload, hpayload, hversion, rfl⟩
  · rintro ⟨hvalid, _, hle, bytes, hbytes, payload, hpayload, hversion, rfl⟩
    refine ⟨wanted, ⟨hle, hversion⟩, bytes, hbytes, payload, hpayload, ?_⟩
    by_cases hlegacy : wanted = .ed25519PublicKey
    · rw [if_pos hlegacy]
      exact Outcome.bind_eq_ok.mpr ⟨⟨⟩, hvalid hlegacy, rfl⟩
    · rw [if_neg hlegacy]
      rfl

/-- The two readers accept the same texts, up to the node's check of a legacy key. -/
lemma decodeVersionedAddress_eq_ok {address : VersionedAddress} {network : AddressNetwork}
    {networkId text : Str} (same : hrpOf networkId = network.hrp) :
    decodeVersionedAddress text network = .ok address ↔
      KeyValid address ∧
        decodeAddress text networkId = .ok (walletAddress address) := by
  simp only [decodeVersionedAddress, decodeAddress, same, Outcome.bind_eq_ok, Outcome.bailIf_eq_ok,
    Outcome.ofOption_eq_ok, positions_eq_ok, polymod_eq, hrpExpand_eq, not_not]
  constructor
  · rintro ⟨_, hnonempty, _, hascii, _, hcase, separator, hseparator, _, -, _, hhrp, data, hdata,
      _, hsum, h⟩
    rw [hhrp, verifyChecksum_eq_false, not_not] at hsum
    cases hpayload : data.take (data.length - 6) with
    | nil => simp [hpayload] at h
    | cons version encoded =>
      have hseven : ¬ data.length < 7 := by
        have := congrArg List.length hpayload
        simp only [List.length_take, List.length_cons] at this
        omega
      rw [hpayload] at h
      obtain ⟨hvalid, hwallet⟩ := (payload_eq_ok (version_small hdata hpayload)).mp h
      refine ⟨hvalid, ⟨⟩, not_or.mpr ⟨hnonempty, hascii⟩, ⟨⟩, hcase, separator, hseparator, ⟨⟩,
        hhrp, data, hdata, ⟨⟩, not_or.mpr ⟨not_not.mpr hsum, hseven⟩, ?_⟩
      rw [hpayload]
      exact hwallet
  · rintro ⟨hvalid, _, htext, _, hcase, separator, hseparator, _, hhrp, data, hdata, _, hsum, h⟩
    obtain ⟨hnonempty, hascii⟩ := not_or.mp htext
    obtain ⟨hsum, hseven⟩ := not_or.mp hsum
    cases hpayload : data.take (data.length - 6) with
    | nil => simp [hpayload] at h
    | cons version encoded =>
      rw [hpayload] at h
      have hnode := (payload_eq_ok (version_small hdata hpayload)).mpr ⟨hvalid, h⟩
      have hpositive : separator ≠ 0 := by
        rintro rfl
        have := hrp_length network
        simp [← hhrp] at this
      have hlong : ¬ ((trim text).map Char.toLower).length < separator + 7 := by
        have := length_of_mapM hdata
        rw [List.length_drop] at this
        omega
      refine ⟨⟨⟩, hnonempty, ⟨⟩, hascii, ⟨⟩, hcase, separator, hseparator, ⟨⟩,
        not_or.mpr ⟨hpositive, hlong⟩, ⟨⟩, hhrp, data, hdata, ⟨⟩, ?_, ?_⟩
      · rw [hhrp, verifyChecksum_eq_false]
        exact hsum
      · rw [hpayload]
        exact hnode

/-- The two sides agree about an address of a network: they write it as one text, and read it from
the same texts. -/
def AddressAgrees (networkId : Str) (address : VersionedAddress) : Prop :=
  (∃ text, encodeAddress (walletAddress address) networkId = .ok text ∧
    encodeVersionedAddress address (AddressNetwork.fromProfileId networkId) = .ok text) ∧
  ∀ text, decodeAddress text networkId = .ok (walletAddress address) ↔
    decodeVersionedAddress text (AddressNetwork.fromProfileId networkId) = .ok address

omit [Crypto] in
/-- The wallet's encoder never fails, and its text starts with the prefix that it chooses. -/
lemma encodeAddress_prefix (address : Address) (networkId : Str) :
    ∃ rest, encodeAddress address networkId = .ok (hrpOf networkId ++ '1' :: rest) := by
  have hlength : (address.payload.val.map UInt8.toNat).length = 32 := by
    rw [List.length_map, address.payload.property]
  have hsmall : ∀ byte ∈ address.payload.val.map UInt8.toNat, byte < 2 ^ 8 := by
    intro byte hbyte
    obtain ⟨value, -, rfl⟩ := List.mem_map.mp hbyte
    exact value.toNat_lt
  obtain ⟨groups, hgroups, -⟩ := convertBits_restore hlength hsmall
  simp only [encodeAddress, Outcome.bind_eq_ok, Outcome.mapErr_eq_ok, Outcome.pure_eq_ok]
  exact ⟨_, groups, convertBits_eq_ok.mpr hgroups, rfl⟩

lemma encodeVersionedAddress_prefix {address : VersionedAddress} {network : AddressNetwork}
    {text : Str} (h : encodeVersionedAddress address network = .ok text) :
    ∃ rest, text = network.hrp ++ '1' :: rest := by
  unfold encodeVersionedAddress at h
  split at h
  all_goals
    simp only [Outcome.bind_eq_ok, Outcome.pure_eq_ok] at h
  · obtain ⟨_, -, _, -, rfl⟩ := h
    exact ⟨_, rfl⟩
  · obtain ⟨_, -, rfl⟩ := h
    exact ⟨_, rfl⟩

omit [Crypto] in
/-- A prefix of a text that is followed by a separator is the only one of the two that fits. -/
lemma hrp_eq_of_append {networkId : Str} {network : AddressNetwork} {rest rest' : Str}
    (h : hrpOf networkId ++ '1' :: rest = network.hrp ++ '1' :: rest') :
    hrpOf networkId = network.hrp := by
  have hhead := congrArg List.head? h
  unfold hrpOf at h hhead ⊢
  cases network <;> split at hhead <;> simp_all [AddressNetwork.hrp, str]

/-- The two sides agree about an address of a network exactly when the network has one prefix for
both and a legacy address holds a key that the node accepts. -/
lemma addressAgrees_iff {networkId : Str} {address : VersionedAddress} :
    AddressAgrees networkId address ↔ SameNetwork networkId ∧ KeyValid address := by
  rw [sameNetwork_iff]
  constructor
  · rintro ⟨⟨text, hwallet, hnode⟩, -⟩
    obtain ⟨rest, hrest⟩ := encodeAddress_prefix (walletAddress address) networkId
    obtain ⟨rest', hrest'⟩ := encodeVersionedAddress_prefix hnode
    rw [hrest, hrest'] at hwallet
    have hsame := hrp_eq_of_append (Except.ok.inj hwallet)
    exact ⟨hsame, ((encodeVersionedAddress_eq_ok hsame).mp hnode).1⟩
  · rintro ⟨hsame, hvalid⟩
    obtain ⟨rest, hrest⟩ := encodeAddress_prefix (walletAddress address) networkId
    refine ⟨⟨_, hrest, (encodeVersionedAddress_eq_ok hsame).mpr ⟨hvalid, hrest⟩⟩, fun text => ?_⟩
    rw [decodeVersionedAddress_eq_ok hsame]
    exact ⟨fun h => ⟨hvalid, h⟩, fun h => h.2⟩

end Iuna.BrowserWallet
