import Iuna.Properties.Launch

/-!
# What a mine proof binds

A mine action carries no signature: its proof is a hash of the recipient, the anchor, the salt,
the nonce and the difficulty, either of their signing bytes or of the header of a coinbase that
starts with them.  In a domain that is bound to the chain every field enters these bytes, the
recipient in decoded form.  A recipient that is the lower-case text of a key is the only text of
what it decodes to, so such a proof determines the action (`mine_proof_binds_iff`).  A Bech32m
recipient is not: its decoder trims, so the text with a blank behind it has the same proof
(`mineSigningBytes_blank`), and the reward is credited to that text.
-/

namespace Iuna

/-! ## Other texts of a recipient -/

lemma trim_blank (s : Str) : trim (s ++ [' ']) = trim s := by
  have hblank : isWhiteSpace ' ' = true := by decide
  unfold trim
  rw [List.dropWhile_append]
  split
  · rename_i hempty
    rw [List.isEmpty_iff] at hempty
    simp [hempty, hblank]
  · rw [List.reverse_append, List.reverse_singleton, List.singleton_append,
      List.dropWhile_cons_of_pos hblank]

lemma blank_not_mem_hexEncode (bytes : Bytes) : ' ' ∉ hexEncode bytes := by
  induction bytes with
  | nil => simp
  | cons byte bytes ih =>
    have hdigit (n : ℕ) (hn : n < 16) : ' ' ≠ Nat.digitChar n := by
      interval_cases n <;> decide
    have hbyte := byte.toNat_lt
    rw [hexEncode_cons, List.mem_cons, List.mem_cons]
    rintro (h | h | h)
    · exact hdigit _ (by omega) h
    · exact hdigit _ (by omega) h
    · exact ih h

variable [Crypto]

/-- The address decoder does not see a blank behind a text. -/
lemma decodeVersionedAddress_blank (recipient : Str) (network : AddressNetwork) :
    decodeVersionedAddress (recipient ++ [' ']) network
      = decodeVersionedAddress recipient network := by
  unfold decodeVersionedAddress
  rw [trim_blank]

omit [Crypto] in
/-- No text with a blank behind it is that of a key. -/
lemma decodeCanonicalHexArray_blank (n : ℕ) (value : Str) :
    ∃ error, decodeCanonicalHexArray n (value ++ [' ']) = .error error := by
  cases h : decodeCanonicalHexArray n (value ++ [' ']) with
  | error error => exact ⟨error, rfl⟩
  | ok array =>
    have htext := decodeCanonicalHexArray_eq_ok.mp h
    exact absurd (htext ▸ by simp) (blank_not_mem_hexEncode array.val)

/-- Unless the recipient is the text of a key, a blank behind it does not change what is
hashed. -/
lemma mineSigningBytes_blank {recipient : Str}
    (notKey : ∀ key, decodeCanonicalHexArray publicKeyBytes recipient ≠ .ok key)
    (domain : TransactionSigningDomain) (anchor : Str) (salt nonce difficultyBits : ℕ) :
    mineSigningBytes domain (recipient ++ [' ']) anchor salt nonce difficultyBits
      = mineSigningBytes domain recipient anchor salt nonce difficultyBits := by
  obtain ⟨error, herror⟩ : ∃ error,
      decodeCanonicalHexArray publicKeyBytes recipient = .error error := by
    cases h : decodeCanonicalHexArray publicKeyBytes recipient with
    | error error => exact ⟨error, rfl⟩
    | ok key => exact absurd h (notKey key)
  obtain ⟨error', herror'⟩ := decodeCanonicalHexArray_blank publicKeyBytes recipient
  have hnetwork : (str "tiuna1").isPrefixOf (recipient ++ [' '])
      = (str "tiuna1").isPrefixOf recipient := by
    rw [Bool.eq_iff_iff, List.isPrefixOf_iff_prefix, List.isPrefixOf_iff_prefix,
      List.prefix_concat_iff]
    refine or_iff_right fun hwhole => ?_
    have hblank : ' ' ∈ str "tiuna1" := hwhole ▸ by simp
    exact absurd hblank (by decide)
  unfold mineSigningBytes
  simp only [herror, herror', hnetwork, decodeVersionedAddress_blank]

/-! ## What the signing bytes determine -/

/-- The layout of the signing bytes: every field has its place, behind the domain and the bytes
that name the recipient. -/
structure MineLayout (domain : TransactionSigningDomain) (recipient anchor : Str)
    (salt nonce difficultyBits : ℕ) (bytes start named : Bytes) (anchorHash : FixedBytes 32) :
    Prop where
  start_eq : domain.encode = .ok start
  named_eq : (∃ key : FixedBytes 32, decodeCanonicalHexArray publicKeyBytes recipient = .ok key
      ∧ key.val = named)
    ∨ (∀ key, decodeCanonicalHexArray publicKeyBytes recipient ≠ .ok key) ∧ named.length = 33
  anchor_eq : anchor = hexEncode anchorHash.val
  bytes_eq : bytes = start ++ ([3] ++ (Wire.bigEndian 4 named.length ++ (named
    ++ (Wire.bigEndian 4 32 ++ (anchorHash.val ++ (Wire.bigEndian 8 salt
      ++ (Wire.bigEndian 8 nonce ++ Wire.bigEndian 4 difficultyBits)))))))

omit [Crypto] in
lemma encodeBytes_eq_ok {value bytes : Bytes} {label : String} :
    encodeBytes value label = .ok bytes ↔
      value.length ≤ u32Max ∧ Wire.bigEndian 4 value.length ++ value = bytes := by
  simp [encodeBytes, encodeLen]

lemma mineSigningBytes_layout {domain : TransactionSigningDomain} {recipient anchor : Str}
    {salt nonce difficultyBits : ℕ} {bytes : Bytes}
    (h : mineSigningBytes domain recipient anchor salt nonce difficultyBits = .ok bytes) :
    ∃ start named anchorHash,
      MineLayout domain recipient anchor salt nonce difficultyBits bytes start named anchorHash := by
  rw [mineSigningBytes] at h
  obtain ⟨start, hstart, h⟩ := Outcome.bind_eq_ok.mp h
  -- what follows the recipient, whichever way it is named
  have hrest (named : Bytes) (hrest : (do
        let anchorHash ← withContext "mine anchor is invalid"
          (decodeCanonicalHexArray hashBytes anchor)
        let anchorBytes ← encodeBytes anchorHash.val "mine anchor"
        pure (start ++ [3] ++ (Wire.bigEndian 4 named.length ++ named) ++ anchorBytes
          ++ Wire.bigEndian 8 salt ++ Wire.bigEndian 8 nonce ++ Wire.bigEndian 4 difficultyBits))
      = Except.ok bytes)
      (hnamed : (∃ key : FixedBytes 32, decodeCanonicalHexArray publicKeyBytes recipient = .ok key
          ∧ key.val = named)
        ∨ (∀ key, decodeCanonicalHexArray publicKeyBytes recipient ≠ .ok key)
          ∧ named.length = 33) :
      ∃ start named anchorHash, MineLayout domain recipient anchor salt nonce difficultyBits bytes
        start named anchorHash := by
    simp only [withContext, Outcome.bind_eq_ok, Outcome.mapErr_eq_ok, Outcome.pure_eq_ok]
      at hrest
    obtain ⟨anchorHash, hanchor, anchorBytes, hanchorBytes, rfl⟩ := hrest
    obtain ⟨-, rfl⟩ := encodeBytes_eq_ok.mp hanchorBytes
    refine ⟨start, named, anchorHash, hstart, hnamed, decodeCanonicalHexArray_eq_ok.mp hanchor, ?_⟩
    simp only [anchorHash.property, hashBytes, List.append_assoc]
  dsimp only at h
  split at h
  · rename_i key hkey
    obtain ⟨recipientBytes, hrecipient, h⟩ := Outcome.bind_eq_ok.mp h
    obtain ⟨-, rfl⟩ := encodeBytes_eq_ok.mp hrecipient
    exact hrest key.val h (.inl ⟨key, hkey, rfl⟩)
  · rename_i error herror
    obtain ⟨address, -, h⟩ := Outcome.bind_eq_ok.mp h
    obtain ⟨recipientBytes, hrecipient, h⟩ := Outcome.bind_eq_ok.mp h
    obtain ⟨-, rfl⟩ := encodeBytes_eq_ok.mp hrecipient
    refine hrest _ h (.inr ⟨fun key hkey => ?_, by simp [address.payload.property]⟩)
    rw [hkey] at herror
    cases herror

/-- Actions with the same signing bytes are the same, if one of them names a key and the integers
are in range. -/
theorem mineSigningBytes_injective {domain : TransactionSigningDomain}
    {recipient recipient' anchor anchor' : Str}
    {salt salt' nonce nonce' difficultyBits difficultyBits' : ℕ} {key : FixedBytes 32}
    {bytes : Bytes} (names : decodeCanonicalHexArray publicKeyBytes recipient = .ok key)
    (hsalt : salt < 2 ^ 64) (hsalt' : salt' < 2 ^ 64) (hnonce : nonce < 2 ^ 64)
    (hnonce' : nonce' < 2 ^ 64) (hbits : difficultyBits < 2 ^ 32)
    (hbits' : difficultyBits' < 2 ^ 32)
    (h : mineSigningBytes domain recipient anchor salt nonce difficultyBits = .ok bytes)
    (h' : mineSigningBytes domain recipient' anchor' salt' nonce' difficultyBits' = .ok bytes) :
    recipient' = recipient ∧ anchor' = anchor ∧ salt' = salt ∧ nonce' = nonce
      ∧ difficultyBits' = difficultyBits := by
  obtain ⟨start, named, anchorHash, layout⟩ := mineSigningBytes_layout h
  obtain ⟨start', named', anchorHash', layout'⟩ := mineSigningBytes_layout h'
  obtain rfl : start = start' := Except.ok.inj (layout.start_eq.symm.trans layout'.start_eq)
  obtain rfl : key.val = named := by
    rcases layout.named_eq with ⟨key', hkey', rfl⟩ | ⟨hnone, -⟩
    · rw [Except.ok.inj (names.symm.trans hkey')]
    · exact absurd names (hnone key)
  have heq := List.append_cancel_left (layout.bytes_eq.symm.trans layout'.bytes_eq)
  have hlength : named'.length = 32 := by
    have hlengths := congrArg List.length heq
    simp only [List.length_append, Wire.bigEndian_length, key.property, anchorHash.property,
      anchorHash'.property] at hlengths
    omega
  -- every field has the same length in both, so they are equal one by one
  obtain ⟨-, heq⟩ := List.append_inj heq rfl
  obtain ⟨-, heq⟩ := List.append_inj heq (by simp)
  obtain ⟨hnamed, heq⟩ := List.append_inj heq (by rw [key.property, hlength])
  obtain ⟨-, heq⟩ := List.append_inj heq rfl
  obtain ⟨hanchor, heq⟩ := List.append_inj heq (by rw [anchorHash.property, anchorHash'.property])
  obtain ⟨hsalts, heq⟩ := List.append_inj heq (by simp)
  obtain ⟨hnonces, hdifficulties⟩ := List.append_inj heq (by simp)
  refine ⟨?_, ?_, (Wire.bigEndian_inj hsalt hsalt').mp hsalts |>.symm,
    (Wire.bigEndian_inj hnonce hnonce').mp hnonces |>.symm,
    (Wire.bigEndian_inj hbits hbits').mp hdifficulties |>.symm⟩
  · rcases layout'.named_eq with ⟨key', hkey', rfl⟩ | ⟨-, hlong⟩
    · rw [decodeCanonicalHexArray_eq_ok.mp names, decodeCanonicalHexArray_eq_ok.mp hkey', hnamed]
    · omega
  · rw [layout.anchor_eq, layout'.anchor_eq, hanchor]

/-! ## The header of a coinbase -/

/-- The layout of a header: its anchor, the digest of the coinbase, the difficulty and the lower
half of the nonce. -/
lemma stratumMineHeaderBytesOf_eq_ok {domain : TransactionSigningDomain} {recipient anchor : Str}
    {salt nonce difficultyBits : ℕ} {header : Bytes}
    (h : stratumMineHeaderBytesOf domain recipient anchor salt nonce difficultyBits = .ok header) :
    ∃ (anchorBytes : FixedBytes 32) (coinbase : Bytes),
      stratumCoinbaseBytes domain recipient anchor salt nonce difficultyBits = .ok coinbase
      ∧ header = [1, 0, 0, 0] ++ (anchorBytes.val ++ ((doubleSha256 coinbase).val
        ++ ([0, 0, 0, 0] ++ ((Wire.bigEndian 4 difficultyBits).reverse
          ++ (Wire.bigEndian 4 (nonce % 2 ^ 32)).reverse)))) := by
  simp only [stratumMineHeaderBytesOf, withContext, Outcome.bind_eq_ok, Outcome.mapErr_eq_ok,
    Outcome.pure_eq_ok] at h
  obtain ⟨anchorBytes, -, coinbase, hcoinbase, rfl⟩ := h
  exact ⟨anchorBytes, coinbase, hcoinbase, by simp only [List.append_assoc]⟩

omit [Crypto] in
/-- Equal headers have the same coinbase digest and the same lower half of the nonce. -/
lemma stratumHeader_inj {anchorBytes anchorBytes' digest digest' : FixedBytes 32}
    {nonce nonce' difficultyBits difficultyBits' : ℕ}
    (h : [1, 0, 0, 0] ++ (anchorBytes.val ++ (digest.val
        ++ ([0, 0, 0, 0] ++ ((Wire.bigEndian 4 difficultyBits).reverse
          ++ (Wire.bigEndian 4 (nonce % 2 ^ 32)).reverse))))
      = ([1, 0, 0, 0] : Bytes) ++ (anchorBytes'.val ++ (digest'.val
        ++ ([0, 0, 0, 0] ++ ((Wire.bigEndian 4 difficultyBits').reverse
          ++ (Wire.bigEndian 4 (nonce' % 2 ^ 32)).reverse))))) :
    digest = digest' ∧ nonce % 2 ^ 32 = nonce' % 2 ^ 32 := by
  obtain ⟨-, heq⟩ := List.append_inj h rfl
  obtain ⟨-, heq⟩ := List.append_inj heq (by rw [anchorBytes.property, anchorBytes'.property])
  obtain ⟨hdigest, heq⟩ := List.append_inj heq (by rw [digest.property, digest'.property])
  obtain ⟨-, heq⟩ := List.append_inj heq rfl
  obtain ⟨-, hnonce⟩ := List.append_inj heq (by simp)
  have hlow (n : ℕ) : n % 2 ^ 32 < 256 ^ 4 := Nat.mod_lt _ (by decide)
  exact ⟨Subtype.ext hdigest,
    (Wire.bigEndian_inj (hlow nonce) (hlow nonce')).mp (List.reverse_injective hnonce)⟩

/-- The coinbase starts with the signing bytes and closes with the upper half of the nonce. -/
lemma stratumCoinbaseBytes_eq_ok {domain : TransactionSigningDomain}
    (chainBound : domain.chainBound = true) {recipient anchor : Str}
    {salt nonce difficultyBits : ℕ} {coinbase : Bytes}
    (h : stratumCoinbaseBytes domain recipient anchor salt nonce difficultyBits = .ok coinbase) :
    ∃ start, mineSigningBytes domain recipient anchor salt 0 difficultyBits = .ok start
      ∧ coinbase = start ++ ([0, 0, 0, 0] ++ Wire.bigEndian 4 (nonce / 2 ^ 32)) := by
  simp only [stratumCoinbaseBytes, stratumCoinbasePrefix, chainBound, if_true,
    Outcome.bind_eq_ok, Outcome.pure_eq_ok] at h
  obtain ⟨start, hstart, rfl⟩ := h
  exact ⟨start, hstart, by simp only [List.append_assoc]⟩

/-! ## The proof of an action -/

/-- The hash takes different values on different inputs of a list. -/
def HashInjectiveOn (inputs : List Bytes) : Prop :=
  ∀ a ∈ inputs, ∀ b ∈ inputs, Crypto.sha256 a = Crypto.sha256 b → a = b

namespace Transaction

omit [Crypto] in
/-- The integers of a mine action are in the range of their types, `u64` and `u32`. -/
def MineInRange : Transaction → Prop
  | mine _ _ salt nonce difficultyBits _ _ =>
    salt < 2 ^ 64 ∧ nonce < 2 ^ 64 ∧ difficultyBits < 2 ^ 32
  | _ => True

omit [Crypto] in
/-- The recipient of a mine action is the lower-case text of a key. -/
def MineNamesKey : Transaction → Prop
  | mine recipient _ _ _ _ _ _ => ∃ key, decodeCanonicalHexArray publicKeyBytes recipient = .ok key
  | _ => False

omit [Crypto] in
/-- A mine action is proved by the header of a coinbase. -/
def hasProofHeader : Transaction → Bool
  | mine _ _ _ _ _ proofHeader _ => proofHeader.isSome
  | _ => false

/-- What the check of a mine action hashes: the signing bytes, or the coinbase and the header,
each of them twice. -/
def mineHashed (domain : TransactionSigningDomain) : Transaction → List Bytes
  | mine recipient anchor salt nonce difficultyBits none _ =>
    (mineSigningBytes domain recipient anchor salt nonce difficultyBits).toOption.toList
  | mine recipient anchor salt nonce difficultyBits (some _) _ =>
    ((stratumCoinbaseBytes domain recipient anchor salt nonce difficultyBits).toOption.toList
      ++ (stratumMineHeaderBytesOf domain recipient anchor salt nonce
        difficultyBits).toOption.toList).flatMap fun bytes => [bytes, (Crypto.sha256 bytes).val]
  | _ => []

/-- A mine action whose proof verifies in a domain. -/
structure MineProved (domain : TransactionSigningDomain) (transaction : Transaction) : Prop where
  isMine : transaction.isMine = true
  inRange : transaction.MineInRange
  verified : transaction.verifySignature domain = .ok ⟨⟩

variable {domain : TransactionSigningDomain} {recipient anchor proofHeader signature : Str}
  {salt nonce difficultyBits : ℕ}

lemma verifySignature_plain (chainBound : domain.chainBound = true)
    (h : (mine recipient anchor salt nonce difficultyBits none signature).verifySignature domain
      = .ok ⟨⟩) :
    ∃ bytes, mineSigningBytes domain recipient anchor salt nonce difficultyBits = .ok bytes
      ∧ signature = hexHashBytes bytes := by
  simp only [verifySignature, mineSignature, chainBound, if_true, Outcome.bind_eq_ok,
    Outcome.pure_eq_ok, Outcome.bailIf_eq_ok, not_not] at h
  obtain ⟨_, ⟨bytes, hbytes, rfl⟩, _, hsignature, -⟩ := h
  exact ⟨bytes, hbytes, hsignature⟩

lemma verifySignature_header
    (h : (mine recipient anchor salt nonce difficultyBits (some proofHeader)
      signature).verifySignature domain = .ok ⟨⟩) :
    ∃ header, stratumMineHeaderBytesOf domain recipient anchor salt nonce difficultyBits
        = .ok header
      ∧ proofHeader = hexEncode header ∧ signature = stratumMineSignature header := by
  simp only [verifySignature, Outcome.bind_eq_ok, Outcome.bailIf_eq_ok, Outcome.pure_eq_ok,
    not_not] at h
  obtain ⟨header, hheader, _, hproof, _, rfl, _, hsignature, -⟩ := h
  exact ⟨header, hheader, hproof, hsignature⟩

/-- A recipient that is not the text of a key may get a blank behind it, and the proof still
verifies. -/
lemma verifySignature_blank {proofHeader : Option Str} (chainBound : domain.chainBound = true)
    (notKey : ∀ key, decodeCanonicalHexArray publicKeyBytes recipient ≠ .ok key) :
    (mine (recipient ++ [' ']) anchor salt nonce difficultyBits proofHeader
        signature).verifySignature domain
      = (mine recipient anchor salt nonce difficultyBits proofHeader signature).verifySignature
        domain := by
  simp only [verifySignature, stratumMineHeaderBytesOf, stratumCoinbaseBytes,
    stratumCoinbasePrefix, mineSignature, chainBound, if_true, mineSigningBytes_blank notKey]

/-- The plain proof of an action whose recipient is a key determines the action. -/
lemma eq_of_plain_proof {recipient' anchor' : Str} {salt' nonce' difficultyBits' : ℕ}
    {key : FixedBytes 32} (chainBound : domain.chainBound = true)
    (names : decodeCanonicalHexArray publicKeyBytes recipient = .ok key)
    (proved : MineProved domain (mine recipient anchor salt nonce difficultyBits none signature))
    (proved' : MineProved domain
      (mine recipient' anchor' salt' nonce' difficultyBits' none signature))
    (injective : HashInjectiveOn
      (mineHashed domain (mine recipient anchor salt nonce difficultyBits none signature)
        ++ mineHashed domain (mine recipient' anchor' salt' nonce' difficultyBits' none
          signature))) :
    mine recipient' anchor' salt' nonce' difficultyBits' none signature
      = mine recipient anchor salt nonce difficultyBits none signature := by
  obtain ⟨hsalt, hnonce, hbits⟩ := proved.inRange
  obtain ⟨hsalt', hnonce', hbits'⟩ := proved'.inRange
  obtain ⟨bytes, hbytes, hsignature⟩ := verifySignature_plain chainBound proved.verified
  obtain ⟨bytes', hbytes', hsignature'⟩ := verifySignature_plain chainBound proved'.verified
  have hdigest : Crypto.sha256 bytes = Crypto.sha256 bytes' :=
    Subtype.ext (hexEncode_injective (hsignature.symm.trans hsignature'))
  obtain rfl : bytes = bytes' := injective bytes (by simp [mineHashed, hbytes, Except.toOption])
    bytes' (by simp [mineHashed, hbytes', Except.toOption]) hdigest
  obtain ⟨rfl, rfl, rfl, rfl, rfl⟩ := mineSigningBytes_injective names hsalt hsalt' hnonce hnonce'
    hbits hbits' hbytes hbytes'
  rfl

/-- So does the header. -/
lemma eq_of_header_proof {recipient' anchor' proofHeader' : Str}
    {salt' nonce' difficultyBits' : ℕ} {key : FixedBytes 32}
    (chainBound : domain.chainBound = true)
    (names : decodeCanonicalHexArray publicKeyBytes recipient = .ok key)
    (proved : MineProved domain
      (mine recipient anchor salt nonce difficultyBits (some proofHeader) signature))
    (proved' : MineProved domain
      (mine recipient' anchor' salt' nonce' difficultyBits' (some proofHeader') signature))
    (injective : HashInjectiveOn
      (mineHashed domain (mine recipient anchor salt nonce difficultyBits (some proofHeader)
          signature)
        ++ mineHashed domain (mine recipient' anchor' salt' nonce' difficultyBits'
          (some proofHeader') signature))) :
    mine recipient' anchor' salt' nonce' difficultyBits' (some proofHeader') signature
      = mine recipient anchor salt nonce difficultyBits (some proofHeader) signature := by
  obtain ⟨hsalt, hnonce, hbits⟩ := proved.inRange
  obtain ⟨hsalt', hnonce', hbits'⟩ := proved'.inRange
  obtain ⟨header, hheader, rfl, hsignature⟩ := verifySignature_header proved.verified
  obtain ⟨header', hheader', rfl, hsignature'⟩ := verifySignature_header proved'.verified
  obtain ⟨anchorBytes, coinbase, hcoinbase, hlayout⟩ := stratumMineHeaderBytesOf_eq_ok hheader
  obtain ⟨anchorBytes', coinbase', hcoinbase', hlayout'⟩ := stratumMineHeaderBytesOf_eq_ok hheader'
  -- two equal double digests of hashed bytes come from the same bytes
  have hdouble {a b : Bytes}
      (ha : a = coinbase ∨ a = header) (hb : b = coinbase' ∨ b = header')
      (hdigest : doubleSha256 a = doubleSha256 b) : a = b := by
    have hmem {c : Bytes} (hc : c = coinbase ∨ c = header) :
        c ∈ mineHashed domain (mine recipient anchor salt nonce difficultyBits
            (some (hexEncode header)) signature)
          ∧ (Crypto.sha256 c).val ∈ mineHashed domain (mine recipient anchor salt nonce
            difficultyBits (some (hexEncode header)) signature) := by
      rcases hc with rfl | rfl <;> simp [mineHashed, hcoinbase, hheader, Except.toOption]
    have hmem' {c : Bytes} (hc : c = coinbase' ∨ c = header') :
        c ∈ mineHashed domain (mine recipient' anchor' salt' nonce' difficultyBits'
            (some (hexEncode header')) signature)
          ∧ (Crypto.sha256 c).val ∈ mineHashed domain (mine recipient' anchor' salt' nonce'
            difficultyBits' (some (hexEncode header')) signature) := by
      rcases hc with rfl | rfl <;> simp [mineHashed, hcoinbase', hheader', Except.toOption]
    have hinner := injective _ (List.mem_append_left _ (hmem ha).2) _
      (List.mem_append_right _ (hmem' hb).2) hdigest
    exact injective _ (List.mem_append_left _ (hmem ha).1) _
      (List.mem_append_right _ (hmem' hb).1) (Subtype.ext hinner)
  have hheaders : header = header' := by
    refine hdouble (.inr rfl) (.inr rfl) (Subtype.ext (List.reverse_injective ?_))
    exact hexEncode_injective (hsignature.symm.trans hsignature')
  obtain ⟨hdigest, hlow⟩ := stratumHeader_inj (hlayout.symm.trans (hheaders.trans hlayout'))
  have hcoinbases : coinbase = coinbase' := hdouble (.inl rfl) (.inl rfl) hdigest
  obtain ⟨start, hstart, rfl⟩ := stratumCoinbaseBytes_eq_ok chainBound hcoinbase
  obtain ⟨start', hstart', rfl⟩ := stratumCoinbaseBytes_eq_ok chainBound hcoinbase'
  obtain ⟨rfl, hclose⟩ := List.append_inj' hcoinbases (by simp)
  have hhigh : nonce / 2 ^ 32 = nonce' / 2 ^ 32 := by
    have hupper (n : ℕ) (hn : n < 2 ^ 64) : n / 2 ^ 32 < 256 ^ 4 := by omega
    exact (Wire.bigEndian_inj (hupper nonce hnonce) (hupper nonce' hnonce')).mp
      (List.append_cancel_left hclose)
  obtain rfl : nonce = nonce' := by omega
  obtain ⟨rfl, rfl, rfl, -, rfl⟩ := mineSigningBytes_injective names hsalt hsalt' (by decide)
    (by decide) hbits hbits' hstart hstart'
  rw [hheaders]

/-- **What a proof binds.** In a domain that is bound to the chain, a mine action with a verified
proof is the only one with this proof if and only if its recipient is the lower-case text of a
key, and no action of the other kind happens to have the same proof. -/
theorem mine_proof_binds_iff {transaction : Transaction} (chainBound : domain.chainBound = true)
    (proved : MineProved domain transaction)
    (injective : ∀ other, MineProved domain other → other.signature = transaction.signature →
      HashInjectiveOn (mineHashed domain transaction ++ mineHashed domain other)) :
    (∀ other, MineProved domain other → other.signature = transaction.signature →
        other = transaction) ↔
      transaction.MineNamesKey
        ∧ ∀ other, MineProved domain other → other.signature = transaction.signature →
          other.hasProofHeader = transaction.hasProofHeader := by
  obtain ⟨recipient, anchor, salt, nonce, difficultyBits, proofHeader, signature, rfl⟩ :
      ∃ recipient anchor salt nonce difficultyBits proofHeader signature,
        transaction = mine recipient anchor salt nonce difficultyBits proofHeader signature := by
    cases transaction with
    | mine => exact ⟨_, _, _, _, _, _, _, rfl⟩
    | transfer => cases proved.isMine
    | burn => cases proved.isMine
  constructor
  · intro unique
    refine ⟨?_, fun other hother hsignature => by rw [unique other hother hsignature]⟩
    by_contra hnotKey
    have hblank := unique (mine (recipient ++ [' ']) anchor salt nonce difficultyBits proofHeader
      signature) ⟨rfl, proved.inRange, by
        rw [verifySignature_blank chainBound fun key hkey => hnotKey ⟨key, hkey⟩]
        exact proved.verified⟩ rfl
    simp at hblank
  · rintro ⟨⟨key, hkey⟩, kinds⟩ other hother hsignature
    have hkind := kinds other hother hsignature
    have hinjective := injective other hother hsignature
    cases other with
    | transfer => cases hother.isMine
    | burn => cases hother.isMine
    | mine recipient' anchor' salt' nonce' difficultyBits' proofHeader' signature' =>
      obtain rfl : signature' = signature := hsignature
      cases proofHeader with
      | none =>
        cases proofHeader' with
        | none => exact eq_of_plain_proof chainBound hkey proved hother hinjective
        | some => cases hkind
      | some =>
        cases proofHeader' with
        | none => cases hkind
        | some => exact eq_of_header_proof chainBound hkey proved hother hinjective

end Transaction

end Iuna

namespace Iuna.Toy

open Transaction

def chainDomain : TransactionSigningDomain := .new LaunchProfile.default.profileId (repeatChar '0' 64)

lemma zero_inRange {recipient anchor signature : Str} :
    (mine recipient anchor 0 0 0 none signature).MineInRange := by
  show (0 : ℕ) < 2 ^ 64 ∧ (0 : ℕ) < 2 ^ 64 ∧ (0 : ℕ) < 2 ^ 32
  decide

/-- The signing bytes of an action of the owner. -/
def ownerBytes : Bytes :=
  ((@mineSigningBytes crypto chainDomain owner (repeatChar '0' 64) 0 0 0).toOption).getD []

/-- A hash that is zero on these bytes and nowhere else. -/
@[reducible]
def isolatingCrypto : Crypto :=
  { crypto with
    sha256 := fun bytes =>
      if bytes = ownerBytes then ⟨List.replicate 32 0, rfl⟩ else ⟨List.replicate 32 1, rfl⟩ }

section Isolating

attribute [local instance] isolatingCrypto

lemma sha256_isolates (bytes : Bytes) :
    (Crypto.sha256 bytes).val = List.replicate 32 (if bytes = ownerBytes then 0 else 1) := by
  show (if bytes = ownerBytes then (⟨List.replicate 32 0, rfl⟩ : FixedBytes 32)
    else ⟨List.replicate 32 1, rfl⟩).val = _
  split <;> rfl

lemma sha256_eq_zero {bytes : Bytes}
    (h : (Crypto.sha256 bytes).val = (Crypto.sha256 ownerBytes).val) : bytes = ownerBytes := by
  by_contra hother
  rw [sha256_isolates, sha256_isolates, if_neg hother, if_pos rfl] at h
  exact absurd h (by decide)

def ownerAction : Transaction :=
  .mine owner (repeatChar '0' 64) 0 0 0 none (hexHashBytes ownerBytes)

set_option maxRecDepth 10000 in
lemma ownerAction_bytes :
    mineSigningBytes chainDomain owner (repeatChar '0' 64) 0 0 0 = .ok ownerBytes
      ∧ ownerBytes.length ≠ 32
      ∧ ownerAction.verifySignature chainDomain = .ok ⟨⟩ := by
  decide +kernel

lemma ownerAction_proved : MineProved chainDomain ownerAction :=
  ⟨rfl, zero_inRange, ownerAction_bytes.2.2⟩

lemma ownerAction_injective (other : Transaction) (proved : MineProved chainDomain other)
    (same : other.signature = ownerAction.signature) :
    HashInjectiveOn (mineHashed chainDomain ownerAction ++ mineHashed chainDomain other) := by
  have howner : mineHashed chainDomain ownerAction = [ownerBytes] := by
    simp [mineHashed, ownerAction, ownerAction_bytes.1, Except.toOption]
  cases other with
  | transfer => cases proved.isMine
  | burn => cases proved.isMine
  | mine recipient anchor salt nonce difficultyBits proofHeader signature =>
    have hsignature : signature = hexHashBytes ownerBytes := by
      simpa only [ownerAction, Transaction.signature] using same
    cases proofHeader with
    | none =>
      obtain ⟨bytes, hbytes, hproof⟩ := verifySignature_plain rfl proved.verified
      obtain rfl := sha256_eq_zero (hexEncode_injective (hproof.symm.trans hsignature))
      have hother : mineHashed chainDomain (mine recipient anchor salt nonce difficultyBits none
          signature) = [ownerBytes] := by
        simp [mineHashed, hbytes, Except.toOption]
      rw [howner, hother]
      simp [HashInjectiveOn]
    | some proofHeader =>
      obtain ⟨header, -, -, hproof⟩ := verifySignature_header proved.verified
      have hreverse := hexEncode_injective (hproof.symm.trans hsignature)
      have hzero : (doubleSha256 header).val = (Crypto.sha256 ownerBytes).val := by
        rw [← List.reverse_reverse (doubleSha256 header).val, hreverse, sha256_isolates,
          List.reverse_replicate]
      have hinner := sha256_eq_zero hzero
      exact absurd (congrArg List.length hinner ▸ (Crypto.sha256 header).property)
        ownerAction_bytes.2.1

/-- The proof of the owner's action. -/
theorem mine_proof_binds_iff_owner :
    (∀ other, MineProved chainDomain other → other.signature = ownerAction.signature →
        other = ownerAction) ↔
      ownerAction.MineNamesKey
        ∧ ∀ other, MineProved chainDomain other → other.signature = ownerAction.signature →
          other.hasProofHeader = ownerAction.hasProofHeader :=
  mine_proof_binds_iff rfl ownerAction_proved ownerAction_injective

end Isolating

attribute [local instance] crypto

/-- A hybrid address. -/
def hybridAddress : Str :=
  (encodeVersionedAddress ⟨.hybridKeyCommitment, ⟨List.replicate 32 7, rfl⟩⟩
    .mainnet).toOption.getD []

/-- An action for a recipient text, with the proof of the address. -/
def hybridAction (recipient : Str) : Transaction :=
  .mine recipient (repeatChar '0' 64) 0 0 0 none
    ((mineSignature chainDomain hybridAddress (repeatChar '0' 64) 0 0 0).toOption.getD [])

set_option maxRecDepth 10000 in
lemma hybridAction_verified :
    (hybridAction hybridAddress).verifySignature chainDomain = .ok ⟨⟩
      ∧ (hybridAction (hybridAddress ++ [' '])).verifySignature chainDomain = .ok ⟨⟩ := by
  decide +kernel

set_option maxRecDepth 10000 in
lemma hybridAddress_not_key :
    (decodeCanonicalHexArray publicKeyBytes hybridAddress).toOption = none := by
  decide +kernel

lemma hybridAction_injective : HashInjectiveOn (mineHashed chainDomain (hybridAction hybridAddress)
    ++ mineHashed chainDomain (hybridAction (hybridAddress ++ [' ']))) := by
  obtain ⟨bytes, hbytes, -⟩ := verifySignature_plain rfl hybridAction_verified.1
  have hblank : mineSigningBytes chainDomain (hybridAddress ++ [' ']) (repeatChar '0' 64) 0 0 0
      = .ok bytes := by
    refine (mineSigningBytes_blank (fun key hkey => ?_) _ _ _ _ _).trans hbytes
    have hnone := hybridAddress_not_key
    rw [hkey] at hnone
    cases hnone
  simp [mineHashed, hybridAction, hbytes, hblank, Except.toOption, HashInjectiveOn]

/-- **A proof with two recipients.** The text of a hybrid address and the same text with a blank
behind it have one proof, and the hash sees no collision in them. -/
theorem respelled_recipient :
    ¬ ∀ transaction other, MineProved chainDomain transaction → MineProved chainDomain other →
      HashInjectiveOn (mineHashed chainDomain transaction ++ mineHashed chainDomain other) →
      other.signature = transaction.signature → other = transaction := by
  intro binds
  have hsame := binds (hybridAction hybridAddress) (hybridAction (hybridAddress ++ [' ']))
    ⟨rfl, zero_inRange, hybridAction_verified.1⟩ ⟨rfl, zero_inRange, hybridAction_verified.2⟩
    hybridAction_injective rfl
  simp [hybridAction] at hsame

end Iuna.Toy
