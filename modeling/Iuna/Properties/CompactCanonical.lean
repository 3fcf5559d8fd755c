import Iuna.Properties.CompactTransactions
import Iuna.Properties.Launch

/-!
# One spelling for every block

The remaining parts of a block body, the body itself and a run of blocks, and from them the result
of this group of modules: of the byte strings that the compact decoder accepts, exactly those are
written again as they were read that the strict readers accept.
-/

namespace Iuna

open Respelling

/-! ## The burn bundle section -/

lemma ite_bind_write {α β : Type} (c : Prop) [Decidable c] (x y : StateT EncodeTables Result α)
    (f : α → StateT EncodeTables Result β) :
    ((if c then x else y) >>= f) = if c then x >>= f else y >>= f := by
  split <;> rfl

lemma get_bind_const {α : Type} (r : CompactReader α) :
    ((get : CompactReader EncodeTables) >>= fun _ => r) = r := rfl

section Reading

variable [Crypto]

/-- The reward address that only version 9 carries. -/
def writeReward (version : ℕ) (text : String) (rewardAddress : Option Str) : CompactWriter :=
  if hybridRewardCompactSnapshotVersion ≤ version then
    CompactWriter.optional CompactWriter.address rewardAddress
  else do
    let _ ← (liftM (bailIf rewardAddress.isSome text) : StateT EncodeTables Result Unit)
    pure []

lemma respells_reward (version : ℕ) (text : String) (s : EncodeTables) :
    Respells s
      (if hybridRewardCompactSnapshotVersion ≤ version then
        CompactReader.optional CompactReader.address else pure none)
      (if hybridRewardCompactSnapshotVersion ≤ version then
        CompactReader.optional Strict.address else pure none)
      (writeReward version text) := by
  refine Respells.ite (fun h => ?_) fun h => ?_
  · rw [show writeReward version text = CompactWriter.optional CompactWriter.address from
      funext fun _ => if_pos h]
    exact respells_optional respells_address s
  · refine Respells.pure s none ?_
    rw [writeReward, if_neg h]
    rfl

omit [Crypto] in
/-- The slot of a bundle signature. -/
lemma respells_slot (s : EncodeTables) :
    Respells s
      (do
        let slot ← CompactReader.varint
        CompactReader.check (bailIf (255 < slot) "burn bundle slot does not fit u8")
        pure slot)
      (do
        let slot ← Strict.varint
        CompactReader.check (bailIf (255 < slot) "burn bundle slot does not fit u8")
        pure slot)
      fun n => (pure (CompactWriter.varint n) : CompactWriter) :=
  (respells_varint s).checked rfl rfl

lemma respells_decodeBundleSignature (version : ℕ) (s : EncodeTables) :
    Respells s (decodeBundleSignature version) (Strict.decodeBundleSignature version)
      (encodeBundleSignature version) := by
  refine Respells.map (g := fun a => (⟨a.1, a.2.1, a.2.2.1, a.2.2.2⟩ : BurnBundleSignature))
    ((respells_slot s).pair fun _ _ s _ _ => (respells_address s).pair fun _ _ s _ _ =>
      (respells_reward version
        s!"compact snapshot version {version} cannot encode a committee reward address" s).pair
        fun _ _ s _ _ => respells_fixedHex s 64 "burn bundle signature") ?_ ?_ ?_
  · simp only [decodeBundleSignature, pair, bind_assoc, pure_bind, ite_bind_eq]
  · simp only [Strict.decodeBundleSignature, pair, bind_assoc, pure_bind, ite_bind_eq]
  · intro bytes a s' rest _
    simp only [encodeBundleSignature, writeReward, pairWriter, bind_assoc, pure_bind, ite_bind_write,
      List.append_assoc, List.nil_append]

/-- A burn of the section: its first position in the block, and its mask. -/
def writeMasked {α : Type} [BEq α] (values : List α) (text : String) (value : α) (mask : ℕ) :
    CompactWriter := do
  let index ← (liftM (orError text (values.idxOf? value)) : StateT EncodeTables Result ℕ)
  pure (CompactWriter.varint index ++ [UInt8.ofNat mask])

omit [Crypto] in
lemma writeMasked_eq {α : Type} [BEq α] [LawfulBEq α] (values : List α) (text : String) (value : α)
    (mask : ℕ) (s : EncodeTables) :
    writeMasked values text value mask s =
      pairWriter (writeReference (fun _ => values) (.message text)) (fun _ => writeByte)
        (value, mask) s := by
  show _ = (writeReference (fun _ => values) (.message text) value s >>= fun written =>
    (do
      let bytes ← writeByte mask
      pure (written.1 ++ bytes) : CompactWriter) written.2)
  cases h : values.idxOf? value with
  | none =>
    rw [writeMasked, writeReference, h]
    rfl
  | some index =>
    rw [writeMasked, writeReference, h]
    rfl

/-- A reference into a list of the block. -/
def maskedIndex {α : Type} (label text : String) (values : List α) : CompactReader α :=
  reference (fun _ => values)
    (fun len => bailIf (values.length - 1 < len)
      s!"compact {label} {len} exceeds limit {values.length - 1}") text

def strictMaskedIndex {α : Type} [BEq α] [LawfulBEq α] (label text : String) (values : List α) :
    CompactReader α :=
  strictReference (fun _ => values)
    (fun len => bailIf (values.length - 1 < len)
      s!"compact {label} {len} exceeds limit {values.length - 1}") text

omit [Crypto] in
lemma respells_decodeMaskedBurn (transactions : List Transaction) (s : EncodeTables) :
    Respells s (decodeMaskedBurn transactions) (Strict.decodeMaskedBurn transactions)
      fun masked => writeMasked transactions
        "burn bundle transaction is missing from block transactions" masked.burn masked.bundleMask := by
  have hburn : Respells s
      (do
        let burn ← maskedIndex "burn bundle transaction index"
          "burn bundle transaction index is out of bounds" transactions
        CompactReader.check (do
          bailIf (burn.isBurn = false) "burn bundle transaction index does not reference a burn"
          .ok burn))
      (do
        let burn ← strictMaskedIndex "burn bundle transaction index"
          "burn bundle transaction index is out of bounds" transactions
        CompactReader.check (do
          bailIf (burn.isBurn = false) "burn bundle transaction index does not reference a burn"
          .ok burn))
      (writeReference (fun _ => transactions)
        (.message "burn bundle transaction is missing from block transactions")) := by
    refine (respells_reference s _ _ _
      (.message "burn bundle transaction is missing from block transactions")).same rfl rfl ?_
    intro bytes a b s' rest h hb
    simp only [Outcome.bind_eq_ok, Except.ok.injEq] at hb
    obtain ⟨-, -, rfl⟩ := hb
    rfl
  refine (hburn.pair fun _ _ s _ _ => respells_u8 s).map
    (g := fun a => { burn := a.1, bundleMask := a.2 }) ?_ ?_ ?_
  · simp only [decodeMaskedBurn, CompactReader.boundedUsize, maskedIndex, reference, pair, bind_assoc,
      pure_bind, get_bind_const, ← check_bind_pure]
  · simp only [Strict.decodeMaskedBurn, Strict.boundedUsize, strictMaskedIndex, strictReference, pair,
      bind_assoc, pure_bind, get_bind_const, ← check_bind_pure]
  · intro bytes a s' rest _
    exact writeMasked_eq _ _ _ _ s

omit [Crypto] in
lemma respells_decodeMaskedBurnV2 (envelopes : List Str) (s : EncodeTables) :
    Respells s (decodeMaskedBurnV2 envelopes) (Strict.decodeMaskedBurnV2 envelopes)
      fun masked => writeMasked envelopes
        "transaction v2 burn bundle envelope is missing from block" masked.envelope
        masked.bundleMask := by
  have hindex : Respells s
      (maskedIndex "transaction v2 burn bundle index"
        "transaction v2 burn bundle index is out of bounds" envelopes)
      (strictMaskedIndex "transaction v2 burn bundle index"
        "transaction v2 burn bundle index is out of bounds" envelopes)
      (writeReference (fun _ => envelopes)
        (.message "transaction v2 burn bundle envelope is missing from block")) :=
    respells_reference s _ _ _ _
  refine (hindex.pair fun _ _ s _ _ => respells_u8 s).map
    (g := fun a => { envelope := a.1, bundleMask := a.2 }) ?_ ?_ ?_
  · simp only [decodeMaskedBurnV2, CompactReader.boundedUsize, maskedIndex, reference, pair,
      bind_assoc, pure_bind, get_bind_const]
  · simp only [Strict.decodeMaskedBurnV2, Strict.boundedUsize, strictMaskedIndex, strictReference,
      pair, bind_assoc, pure_bind, get_bind_const]
  · intro bytes a s' rest _
    exact writeMasked_eq _ _ _ _ s

omit [Crypto] in
/-- The v2 burns that only version 9 carries. -/
def writeBurnsV2 (envelopes : List Str) (version : ℕ) (burnsV2 : List MaskedBurnV2) :
    CompactWriter :=
  if hybridRewardCompactSnapshotVersion ≤ version then
    writeVec (fun masked : MaskedBurnV2 => writeMasked envelopes
      "transaction v2 burn bundle envelope is missing from block" masked.envelope masked.bundleMask)
      burnsV2
  else do
    let _ ← (liftM (bailIf (burnsV2 ≠ [])
      s!"compact snapshot version {version} cannot encode transaction v2 burn attestations") :
      StateT EncodeTables Result Unit)
    pure []

/-- The section as a writer of its own, under the lists of the block. -/
def writeSection (transactions : List Transaction) (envelopes : List Str) (version : ℕ) :
    List BurnBundleSignature × List MaskedBurn × List MaskedBurnV2 → CompactWriter :=
  pairWriter (writeVec (encodeBundleSignature version)) fun _ =>
    pairWriter (writeVec fun masked : MaskedBurn => writeMasked transactions
      "burn bundle transaction is missing from block transactions" masked.burn masked.bundleMask)
      fun _ => writeBurnsV2 envelopes version

omit [Crypto] in
lemma encodeBurnBundleSection_eq (block : Block) (version : ℕ) :
    encodeBurnBundleSection block version =
      writeSection block.transactions block.transactionsV2 version
        (block.burnBundleSection.signatures, block.burnBundleSection.burns,
          block.burnBundleSection.burnsV2) := by
  simp only [encodeBurnBundleSection, writeSection, writeBurnsV2, pairWriter, writeVec, writeMasked, bind_assoc,
    pure_bind, ite_bind_write, List.append_assoc]

omit [Crypto] in
lemma respells_burnsV2 (envelopes : List Str) (version : ℕ) (s : EncodeTables) :
    Respells s
      (if hybridRewardCompactSnapshotVersion ≤ version then
        CompactReader.vec "transaction v2 burn bundle count" (decodeMaskedBurnV2 envelopes)
        else pure [])
      (if hybridRewardCompactSnapshotVersion ≤ version then
        Strict.vec "transaction v2 burn bundle count" (Strict.decodeMaskedBurnV2 envelopes)
        else pure [])
      (writeBurnsV2 envelopes version) := by
  refine Respells.ite (fun h => ?_) fun h => ?_
  · rw [show writeBurnsV2 envelopes version = writeVec _ from funext fun _ => if_pos h]
    exact respells_vec _ (respells_decodeMaskedBurnV2 envelopes) s
  · refine Respells.pure s [] ?_
    rw [writeBurnsV2, if_neg h]
    rfl

lemma respells_decodeBurnBundleSection (transactions : List Transaction) (envelopes : List Str)
    (version : ℕ) (s : EncodeTables) :
    Respells s (decodeBurnBundleSection transactions envelopes version)
      (Strict.decodeBurnBundleSection transactions envelopes version)
      fun sect => writeSection transactions envelopes version
        (sect.signatures, sect.burns, sect.burnsV2) := by
  refine Respells.map (g := fun a => (⟨a.1, a.2.1, a.2.2⟩ : BurnBundleSection))
    ((respells_vec "burn bundle signature count" (respells_decodeBundleSignature version) s).pair fun _ _ s _ _ =>
      (respells_vec "burn bundle burn count" (respells_decodeMaskedBurn transactions) s).pair fun _ _ s _ _ =>
        respells_burnsV2 envelopes version s) ?_ ?_ ?_
  · simp only [decodeBurnBundleSection, pair, bind_assoc, pure_bind, ite_bind_eq]
  · simp only [Strict.decodeBurnBundleSection, pair, bind_assoc, pure_bind, ite_bind_eq]
  · intro bytes a s' rest _
    rfl

/-- The leader proof behind its flag. -/
lemma respells_decodeLeaderProof (s : EncodeTables) :
    Respells s decodeLeaderProof Strict.decodeLeaderProof encodeLeaderProof := by
  refine respells_optional (fun s => ?_) s
  refine Respells.map (g := fun a => (⟨a.1, a.2.1, a.2.2⟩ : LeaderProof))
    ((respells_protocolIdRef s).pair fun _ _ s _ _ => (respells_address s).pair fun _ _ s _ _ =>
      respells_fixedHex s 64 "leader signature") ?_ ?_ ?_
  · simp only [pair, bind_assoc, pure_bind]
  · simp only [pair, bind_assoc, pure_bind]
  · intro bytes a s' rest _
    simp only [pairWriter, bind_assoc, pure_bind, List.append_assoc]

end Reading

section Reading

variable [Crypto]

/-! ## Block bodies -/

/-- The reward address and its signature, which only version 9 carries. -/
def writeHybrid (version : ℕ) (fields : Option Str × Option Str) : CompactWriter :=
  if hybridRewardCompactSnapshotVersion ≤ version then do
    let addressBytes ← CompactWriter.optional CompactWriter.address fields.1
    let signatureBytes ← CompactWriter.optional (fun signature =>
      (liftM (CompactWriter.fixedHex 64 signature "reward address signature") : CompactWriter))
      fields.2
    pure (addressBytes ++ signatureBytes)
  else do
    let _ ← (liftM (bailIf (fields.1.isSome ∨ fields.2.isSome)
      s!"compact snapshot version {version} cannot encode a hybrid reward address") :
      StateT EncodeTables Result Unit)
    pure []

def readHybrid (version : ℕ) : CompactReader (Option Str × Option Str) :=
  pair (if hybridRewardCompactSnapshotVersion ≤ version then
    CompactReader.optional CompactReader.address else pure none) fun _ =>
      if hybridRewardCompactSnapshotVersion ≤ version then
        CompactReader.optional (CompactReader.fixedHex 64) else pure none

def strictHybrid (version : ℕ) : CompactReader (Option Str × Option Str) :=
  pair (if hybridRewardCompactSnapshotVersion ≤ version then
    CompactReader.optional Strict.address else pure none) fun _ =>
      if hybridRewardCompactSnapshotVersion ≤ version then
        CompactReader.optional (CompactReader.fixedHex 64) else pure none

lemma respells_hybrid (version : ℕ) (s : EncodeTables) :
    Respells s (readHybrid version) (strictHybrid version) (writeHybrid version) := by
  by_cases h : hybridRewardCompactSnapshotVersion ≤ version
  · refine Respells.map (g := id) ((respells_optional respells_address s).pair fun _ _ s _ _ =>
      respells_optional (fun s => respells_fixedHex s 64 "reward address signature") s) ?_ ?_ ?_
    · simp only [readHybrid, if_pos h, id, bind_pure]
    · simp only [strictHybrid, if_pos h, id, bind_pure]
    · intro bytes a s' rest _
      simp only [writeHybrid, if_pos h, pairWriter, id]
  · have hread : readHybrid version = pure (none, none) := by
      simp only [readHybrid, if_neg h, pair, pure_bind]
    have hstrict : strictHybrid version = pure (none, none) := by
      simp only [strictHybrid, if_neg h, pair, pure_bind]
    rw [hread, hstrict]
    refine Respells.pure s _ ?_
    rw [writeHybrid, if_neg h]
    rfl

omit [Crypto] in
/-- The v2 envelopes, which versions from 8 on carry. -/
def writeEnvelopes (version : ℕ) (envelopes : List Str) : CompactWriter :=
  if transactionV2CompactSnapshotVersion ≤ version then
    writeVec (fun envelope => (liftM (CompactWriter.hex envelope) : CompactWriter)) envelopes
  else do
    let _ ← (liftM (bailIf (envelopes ≠ [])
      s!"compact snapshot version {version} cannot encode transaction v2 envelopes") :
      StateT EncodeTables Result Unit)
    pure []

omit [Crypto] in
lemma respells_envelopes (version : ℕ) (s : EncodeTables) :
    Respells s
      (if transactionV2CompactSnapshotVersion ≤ version then
        CompactReader.vec "block transaction v2 count" CompactReader.hex else pure [])
      (if transactionV2CompactSnapshotVersion ≤ version then
        Strict.vec "block transaction v2 count" Strict.hex else pure [])
      (writeEnvelopes version) := by
  refine Respells.ite (fun h => ?_) fun h => ?_
  · rw [show writeEnvelopes version = writeVec _ from funext fun _ => if_pos h]
    exact respells_vec _ respells_hex s
  · refine Respells.pure s [] ?_
    rw [writeEnvelopes, if_neg h]
    rfl

omit [Crypto] in
/-- The finalizer mode of a tag. -/
def finalizerModeOf (mode : ℕ) : Result FinalizerMode :=
  if mode = 0 then .ok .ticket
  else if mode = 1 then .ok .recovery
  else bail s!"invalid finalizer mode tag {mode}"

omit [Crypto] in
lemma check_finalizerModeOf (mode : ℕ) :
    CompactReader.check (finalizerModeOf mode) =
      if mode = 0 then pure FinalizerMode.ticket
      else if mode = 1 then pure FinalizerMode.recovery
      else CompactReader.fail s!"invalid finalizer mode tag {mode}" := by
  unfold finalizerModeOf
  split
  · rfl
  · split <;> rfl

omit [Crypto] in
def writeFinalizerMode (mode : FinalizerMode) : CompactWriter :=
  pure [match mode with
    | .ticket => 0
    | .recovery => 1]

omit [Crypto] in
lemma respells_finalizerMode (s : EncodeTables) :
    Respells s
      (do
        let mode ← CompactReader.u8
        CompactReader.check (finalizerModeOf mode))
      (do
        let mode ← CompactReader.u8
        CompactReader.check (finalizerModeOf mode)) writeFinalizerMode := by
  refine (respells_u8 s).same rfl rfl ?_
  intro bytes a b s' rest h hb
  unfold finalizerModeOf at hb
  by_cases h0 : a = 0
  · rw [if_pos h0] at hb
    cases hb
    rw [h0]
    rfl
  rw [if_neg h0] at hb
  by_cases h1 : a = 1
  · rw [if_pos h1] at hb
    cases hb
    rw [h1]
    rfl
  · rw [if_neg h1] at hb
    cases hb

abbrev BlockParts := ℕ × Str × (Option Str × Option Str) × FinalizerMode × ℕ × ℕ × ℕ × Str ×
  Option LeaderProof × List Transaction × List Str × BurnBundleSection

/-- The parts of a block body in the order of their bytes. -/
def blockParts (version : ℕ) : CompactReader BlockParts :=
  pair CompactReader.varint fun _ => pair CompactReader.address fun _ =>
    pair (readHybrid version) fun _ =>
      pair (do
        let mode ← CompactReader.u8
        CompactReader.check (finalizerModeOf mode)) fun _ =>
        pair CompactReader.u32 fun _ => pair CompactReader.varint fun _ =>
          pair CompactReader.varint fun _ => pair CompactReader.compactVdfOutput fun _ =>
            pair decodeLeaderProof fun _ =>
              pair (CompactReader.vec "block transaction count" decodeBlockTransaction)
                fun transactions =>
                pair (if transactionV2CompactSnapshotVersion ≤ version then
                  CompactReader.vec "block transaction v2 count" CompactReader.hex else pure [])
                  fun envelopes => decodeBurnBundleSection transactions envelopes version

def strictBlockParts (version : ℕ) : CompactReader BlockParts :=
  pair Strict.varint fun _ => pair Strict.address fun _ =>
    pair (strictHybrid version) fun _ =>
      pair (do
        let mode ← CompactReader.u8
        CompactReader.check (finalizerModeOf mode)) fun _ =>
        pair Strict.u32 fun _ => pair Strict.varint fun _ =>
          pair Strict.varint fun _ => pair Strict.compactVdfOutput fun _ =>
            pair Strict.decodeLeaderProof fun _ =>
              pair (Strict.vec "block transaction count" Strict.decodeBlockTransaction)
                fun transactions =>
                pair (if transactionV2CompactSnapshotVersion ≤ version then
                  Strict.vec "block transaction v2 count" Strict.hex else pure [])
                  fun envelopes => Strict.decodeBurnBundleSection transactions envelopes version

omit [Crypto] in
def writeInteger (value : ℕ) : CompactWriter := pure (CompactWriter.varint value)

omit [Crypto] in
def writeBlockParts (version : ℕ) : BlockParts → CompactWriter :=
  pairWriter writeInteger fun _ => pairWriter CompactWriter.address fun _ =>
    pairWriter (writeHybrid version) fun _ => pairWriter writeFinalizerMode fun _ =>
      pairWriter writeInteger fun _ => pairWriter writeInteger fun _ =>
        pairWriter writeInteger fun _ =>
          pairWriter (fun value => (liftM (CompactWriter.compactVdfOutput value) : CompactWriter))
            fun _ => pairWriter encodeLeaderProof fun _ =>
              pairWriter (writeVec encodeBlockTransaction) fun transactions =>
                pairWriter (writeEnvelopes version) fun envelopes sect =>
                  writeSection transactions envelopes version
                    (sect.signatures, sect.burns, sect.burnsV2)

lemma respells_blockParts (version : ℕ) (s : EncodeTables) :
    Respells s (blockParts version) (strictBlockParts version) (writeBlockParts version) :=
  (respells_varint s).pair fun _ _ s _ _ => (respells_address s).pair fun _ _ s _ _ =>
    (respells_hybrid version s).pair fun _ _ s _ _ => (respells_finalizerMode s).pair
      fun _ _ s _ _ => (respells_u32 s).pair fun _ _ s _ _ => (respells_varint s).pair
        fun _ _ s _ _ => (respells_varint s).pair fun _ _ s _ _ =>
          (respells_compactVdfOutput s).pair fun _ _ s _ _ =>
            (respells_decodeLeaderProof s).pair fun _ _ s _ _ =>
              (respells_vec _ respells_decodeBlockTransaction s).pair fun _ transactions s _ _ =>
                (respells_envelopes version s).pair fun _ envelopes s _ _ =>
                  respells_decodeBurnBundleSection transactions envelopes version s

/-- The block of the parts. -/
def bodyOf (height : ℕ) (prevHash : Str) (parts : BlockParts) : Block :=
  let block : Block :=
    { height := height
      prevHash := prevHash
      timestampMs := parts.1
      miner := parts.2.1
      rewardAddress := parts.2.2.1.1
      rewardAddressSignature := parts.2.2.1.2
      finalizerMode := parts.2.2.2.1
      finalizerRank := parts.2.2.2.2.1
      reward := parts.2.2.2.2.2.1
      vdfRounds := parts.2.2.2.2.2.2.1
      vdfOutput := parts.2.2.2.2.2.2.2.1
      leaderProof := parts.2.2.2.2.2.2.2.2.1
      burnBundleSection := parts.2.2.2.2.2.2.2.2.2.2.2
      transactions := parts.2.2.2.2.2.2.2.2.2.1
      transactionsV2 := parts.2.2.2.2.2.2.2.2.2.2.1
      hash := [] }
  { block with hash := block.computeHash }

omit [Crypto] in
lemma encodeRewardAddress_eq (block : Block) (version : ℕ) :
    encodeRewardAddress block version =
      writeHybrid version (block.rewardAddress, block.rewardAddressSignature) := rfl

omit [Crypto] in
lemma encodeEnvelopes_eq (block : Block) (version : ℕ) :
    encodeEnvelopes block version = writeEnvelopes version block.transactionsV2 := rfl

lemma encodeBlockBody_bodyOf (version height : ℕ) (prevHash : Str) (parts : BlockParts) :
    encodeBlockBody version (bodyOf height prevHash parts) = writeBlockParts version parts := by
  obtain ⟨timestampMs, miner, hybrid, mode, rank, reward, rounds, output, proof, transactions,
    envelopes, sect⟩ := parts
  cases mode <;>
    simp only [encodeBlockBody, encodeRewardAddress_eq, encodeEnvelopes_eq,
      encodeBurnBundleSection_eq, bodyOf, writeBlockParts, writeFinalizerMode, writeInteger,
      writeVec, pairWriter, bind_assoc, pure_bind, List.append_assoc, List.cons_append,
      List.nil_append]

lemma decodeBlockBody_eq (version height : ℕ) (prevHash : Str) :
    decodeBlockBody height prevHash version = (do
      let parts ← blockParts version
      pure (bodyOf height prevHash parts)) := by
  simp only [decodeBlockBody, blockParts, readHybrid, pair, bind_assoc, pure_bind, ite_bind_eq,
    bodyOf, check_finalizerModeOf]

lemma respells_decodeBlockBody (version height : ℕ) (prevHash : Str) (s : EncodeTables) :
    Respells s (decodeBlockBody height prevHash version)
      (Strict.decodeBlockBody height prevHash version) (encodeBlockBody version) := by
  refine (respells_blockParts version s).map (g := bodyOf height prevHash)
    (decodeBlockBody_eq version height prevHash) ?_ ?_
  · simp only [Strict.decodeBlockBody, strictBlockParts, strictHybrid, pair, bind_assoc, pure_bind,
      ite_bind_eq, bodyOf, check_finalizerModeOf]
  · intro bytes a s' rest _
    rw [encodeBlockBody_bodyOf]

/-! ## Runs of blocks -/

/-- What a decoded block says about its place. -/
lemma decodeBlockBody_place {version height : ℕ} {prevHash : Str} :
    Yields (fun block => block.height = height ∧ block.prevHash = prevHash ∧
      block.hash = block.computeHash) (decodeBlockBody height prevHash version) := by
  rw [decodeBlockBody_eq]
  exact .bind fun parts => .pure ⟨rfl, rfl, rfl⟩

/-- One block body and its hash in the table. -/
def writeBlock (block : Block) : CompactWriter := do
  let body ← encodeBlockBody compactSnapshotVersion block
  modify fun tables => tables.registerProtocolId block.hash
  pure body

lemma respells_block (height : ℕ) (prevHash : Str) (s : EncodeTables) :
    Respells s
      (do
        let block ← decodeBlockBody height prevHash compactSnapshotVersion
        modify fun tables => tables.registerProtocolId block.hash
        pure block)
      (do
        let block ← Strict.decodeBlockBody height prevHash compactSnapshotVersion
        modify fun tables => tables.registerProtocolId block.hash
        pure block) writeBlock :=
  (respells_decodeBlockBody compactSnapshotVersion height prevHash s).modifying
    fun block tables => tables.registerProtocolId block.hash

lemma respells_blocks (count height : ℕ) (prevHash : Str) (s : EncodeTables) :
    Respells s (decodeSnapshotBlocks compactSnapshotVersion count height prevHash)
      (Strict.decodeSnapshotBlocks compactSnapshotVersion count height prevHash)
      fun blocks => encodeSnapshotBlocks blocks height prevHash := by
  induction count generalizing height prevHash s with
  | zero => exact Respells.pure s [] rfl
  | succ count ih =>
    refine ((respells_block height prevHash s).pair fun _ block s' _ _ =>
      ih (height + 1) block.hash s').map (g := fun a => a.1 :: a.2) ?_ ?_ ?_
    · simp only [decodeSnapshotBlocks, pair, bind_assoc, pure_bind]
    · simp only [Strict.decodeSnapshotBlocks, pair, bind_assoc, pure_bind]
    · intro bytes a s' rest ha
      obtain ⟨block, blocks⟩ := a
      obtain ⟨s₁, rest₁, hblock, -⟩ := accepts_pair_mk ha
      have hplace : block.height = height ∧ block.prevHash = prevHash ∧
          block.hash = block.computeHash := by
        obtain ⟨block', s₂, rest₂, hbody, hmodify⟩ := read_bind_eq_ok.mp hblock
        cases hmodify
        exact decodeBlockBody_place _ _ _ _ _ hbody
      obtain ⟨hheight, hprev, hhash⟩ := hplace
      have hagree : ∀ {α : Type} [DecidableEq α] {a b : α} (text : String), a = b →
          bailIf (a ≠ b) text = .ok ⟨⟩ := fun text h => if_neg (not_not.mpr h)
      simp only [encodeSnapshotBlocks, pairWriter, writeBlock, bind_assoc, pure_bind,
        hagree _ hheight, hagree _ hprev, hagree _ hhash, lift_ok]

end Reading

/-! ## The result -/

/-- Re-encoding what was decoded, under the same version and tables, gives the same bytes exactly
when the bytes make the writer's choice at every point where the format leaves one. -/
theorem compact_canonical [Crypto] (tables : EncodeTables) :
    (∀ version height prevHash bytes block tables',
      decodeBlockBody height prevHash version tables bytes = .ok ((block, tables'), []) →
        ((∃ t, encodeBlockBody version block tables = .ok (bytes, t)) ↔
          Outcome.succeeds (Strict.decodeBlockBody height prevHash version tables bytes))) ∧
    (∀ count height prevHash bytes blocks tables',
      decodeSnapshotBlocks compactSnapshotVersion count height prevHash tables bytes =
          .ok ((blocks, tables'), []) →
        ((∃ t, encodeSnapshotBlocks blocks height prevHash tables = .ok (bytes, t)) ↔
          Outcome.succeeds (Strict.decodeSnapshotBlocks compactSnapshotVersion count height prevHash
            tables bytes))) ∧
    (∀ bytes value tables',
      CompactReader.varint tables bytes = .ok ((value, tables'), []) →
        (CompactWriter.varint value = bytes ↔
          Outcome.succeeds (Strict.varint tables bytes))) := by
  refine ⟨?_, ?_, ?_⟩
  · intro version height prevHash bytes block tables' hread
    rw [Outcome.succeeds_iff]
    exact Respells.reproduced (respells_decodeBlockBody version height prevHash tables) hread
  · intro count height prevHash bytes blocks tables' hread
    rw [Outcome.succeeds_iff]
    exact Respells.reproduced (respells_blocks count height prevHash tables) hread
  · intro bytes value tables' hread
    rw [Outcome.succeeds_iff, ← Respells.reproduced (respells_varint tables) hread]
    constructor
    · rintro rfl
      exact ⟨tables, rfl⟩
    · rintro ⟨t, ht⟩
      exact (Prod.mk.inj (write_pure_eq_ok.mp ht)).1.symm

namespace Toy

attribute [local instance] crypto

/-- A body of version 9 without transactions, with its timestamp spelled as given. -/
def emptyBody (timestamp : Bytes) : Bytes :=
  timestamp ++ 1 :: List.replicate 32 7 ++ List.replicate 14 0

/-- The body is accepted to its end, whatever the spelling of a timestamp of five. -/
lemma emptyBody_accepted {timestamp : Bytes}
    (h : (decodeBlockBody 0 [] 9 .empty (emptyBody timestamp)).toOption.any
      (fun result => result.2.isEmpty) = true) :
    ∃ block tables, decodeBlockBody 0 [] 9 .empty (emptyBody timestamp) =
      .ok ((block, tables), []) := by
  cases hread : decodeBlockBody 0 [] 9 .empty (emptyBody timestamp) with
  | error e =>
    rw [hread] at h
    cases h
  | ok result =>
    obtain ⟨⟨block, tables⟩, rest⟩ := result
    rw [hread] at h
    obtain rfl : rest = [] := List.isEmpty_iff.mp h
    exact ⟨block, tables, rfl⟩

/-- The first block, which includes a burn, as a snapshot holds it. -/
def blockBytes : Bytes :=
  ((encodeSnapshotBlocks [block] 1 genesis.tip.hash .empty).toOption.map Prod.fst).getD []

def readBlockBytes : Result ((List Block × EncodeTables) × Bytes) :=
  decodeSnapshotBlocks compactSnapshotVersion 1 1 genesis.tip.hash .empty blockBytes

set_option maxRecDepth 10000 in
lemma blockBytes_read : readBlockBytes.toOption.any
    (fun result => decide (result.2 = [] ∧ result.1.1 = [block])) = true := by
  decide +kernel

lemma blockBytes_accepted : ∃ tables, readBlockBytes = .ok (([block], tables), []) := by
  have hread := blockBytes_read
  cases h : readBlockBytes with
  | error e =>
    rw [h] at hread
    cases hread
  | ok result =>
    obtain ⟨⟨blocks, tables⟩, rest⟩ := result
    rw [h] at hread
    simp only [Except.toOption, Option.any_some, decide_eq_true_eq] at hread
    obtain ⟨hrest, hblocks⟩ := hread
    exact ⟨tables, by rw [hrest, hblocks]⟩

set_option maxRecDepth 10000 in
lemma blockBytes_strict : Outcome.succeeds (Strict.decodeSnapshotBlocks compactSnapshotVersion 1 1
    genesis.tip.hash .empty blockBytes) := by
  decide +kernel

/-- The bytes of a block with a burn are reproduced. -/
theorem blockBytes_reproduced : ∃ tables,
    encodeSnapshotBlocks [block] 1 genesis.tip.hash .empty = .ok (blockBytes, tables) := by
  obtain ⟨tables, hread⟩ := blockBytes_accepted
  exact ((compact_canonical .empty).2.1 1 1 genesis.tip.hash blockBytes [block] tables hread).mpr
    blockBytes_strict

/-- A timestamp padded with an empty group is accepted, and written without the padding. -/
theorem paddedBody_not_reproduced :
    ¬ ∀ version height prevHash bytes block tables',
      decodeBlockBody height prevHash version .empty bytes = .ok ((block, tables'), []) →
        ∃ t, encodeBlockBody version block .empty = .ok (bytes, t) := by
  intro hcanonical
  obtain ⟨block, tables, hread⟩ := @emptyBody_accepted [0x85, 0] (by decide)
  obtain ⟨x, hx⟩ := (Respells.reproduced (respells_decodeBlockBody 9 0 [] .empty) hread).mp
    (hcanonical 9 0 [] _ block tables hread)
  have hrejected : Outcome.succeeds
      (Strict.decodeBlockBody 0 [] 9 .empty (emptyBody [0x85, 0])) = false := by
    decide
  rw [hx] at hrejected
  cases hrejected

end Toy

end Iuna
