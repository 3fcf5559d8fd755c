import Iuna.Properties.Launch
import Iuna.Properties.WalletMigrations
import Iuna.Properties.WalletTransfers

/-!
# The browser wallet and the node

The wallet and the node only meet in texts and bytes.  The first part says exactly when they agree
about them; the second shows, on a toy network, a migration about which they agree and one about
which they do not.
-/

namespace Iuna.BrowserWallet

/-- **The wallet and the node.** The address codecs agree on an address of a network exactly when
the network has one prefix for both and a legacy key is one that the node accepts.  A migration that
was built is one that the node accepts exactly when its request is within the rules, and so is a
transfer when the largest coins that pay for it with change are; the node accepts no other, but for
one whose change is less than the fee for its own output. -/
theorem wallet_agreement [Crypto] [SigningKeys] (correct : SigningKeys.Correct) :
    (∀ (networkId : Str) (address : VersionedAddress),
      AddressAgrees networkId address ↔ SameNetwork networkId ∧ KeyValid address) ∧
    (∀ (request : TransferRequest) (built : BuiltTransaction), buildTransfer request = .ok built →
      (TransferFits request 2 → TransferAgrees request built) ∧
        (TransferAgrees request built → TransferFits request 1)) ∧
    ∀ (request : MigrationRequest) (built : BuiltTransaction), buildMigration request = .ok built →
      (MigrationAgrees request built ↔ MigrationFits request) :=
  ⟨fun _ _ => addressAgrees_iff,
    fun _ _ h => ⟨transferAgrees_of_fits correct h, fits_of_transferAgrees correct h⟩,
    fun _ _ h => migrationAgrees_iff correct h⟩

end Iuna.BrowserWallet

namespace Iuna.Toy

open BrowserWallet

attribute [local instance] crypto

/-- The keys of the verifiers above: a seed is its own public key. -/
@[reducible]
def signingKeys : SigningKeys where
  ed25519Public := fun seed => seed
  ed25519Sign := sign
  mlDsa44Public := fun seed => digest 1312 seed.val
  mlDsa44Sign := fun seed message => some (digest 2420 (seed.val ++ message))

attribute [local instance] signingKeys

lemma signingKeys_correct : SigningKeys.Correct where
  ed25519_valid := fun _ => rfl
  ed25519_verifies := fun _ _ => decide_eq_true rfl
  mlDsa44_valid := fun _ _ _ _ => rfl
  mlDsa44_verifies := fun _ _ _ _ => rfl

def legacyCoin : LegacyUtxo :=
  { outpoint := { txid := repeatChar '0' 64, index := 0 }, amount := 1000000 }

/-- The migration of some coins of one wallet, after the activation of aggregation. -/
def migrationOf (utxos : List LegacyUtxo) : MigrationRequest where
  seed := str "seed"
  chainId := str "iuna"
  genesisHash := repeatChar '0' 64
  destinationIndex := 0
  feeRate := str "1"
  signingHeight := 5000
  authorizationAggregationActivationHeight := 4500
  utxos := utxos

lemma migrationOf_built :
    Outcome.succeeds (buildMigration (migrationOf [legacyCoin])) = true ∧
      Outcome.succeeds (buildMigration (migrationOf [legacyCoin, legacyCoin])) = true := by
  decide +kernel

/-- **A migration that the node refuses.** A network whose name only contains the name of a test
network has another prefix in the wallet than in the node, and the migration of one coin listed
twice is built and refused. -/
theorem wallet_disagreement :
    ¬ AddressAgrees (str "iuna-testnet-2") v2Owner ∧
      ∃ built, buildMigration (migrationOf [legacyCoin, legacyCoin]) = .ok built ∧
        ¬ MigrationAgrees (migrationOf [legacyCoin, legacyCoin]) built := by
  constructor
  · intro hagrees
    have hsame := (addressAgrees_iff.mp hagrees).1 (.inl ⟨str "iuna-", str "-2", rfl⟩)
    exact absurd hsame (by decide)
  · obtain ⟨built, hbuilt⟩ := Outcome.succeeds_iff.mp migrationOf_built.2
    refine ⟨built, hbuilt, fun hagrees => ?_⟩
    have hfits := (migrationAgrees_iff signingKeys_correct hbuilt).mp hagrees
    exact absurd hfits.distinct (by simp [migrationOf])

/-- A coin of the first derived address. -/
def hybridCoin (index : UInt32) (amount : UInt64) : HybridUtxo where
  addressIndex := 1
  addressBranch := .external
  outpoint := { txid := repeatChar '0' 64, index := index }
  amount := amount

/-- A transfer that needs two of three coins, after the activation of aggregation. -/
def transferOf : TransferRequest where
  seed := str "seed"
  chainId := str "iuna"
  genesisHash := repeatChar '0' 64
  recipientAddress := str "iuna1pqqqqqqqqqqqqqqqqqqqqqqqqqqqqqqqqqqqqqqqqqqqqqqqqqqqq5epm28"
  amount := str "500000"
  feeRate := str "1"
  changeIndex := 3
  signingHeight := 5000
  authorizationAggregationActivationHeight := 4500
  utxos := [hybridCoin 0 400000, hybridCoin 1 300000, hybridCoin 2 10]

lemma transferOf_sorted : transferOf.utxos.mergeSort spendsBefore = transferOf.utxos :=
  List.mergeSort_of_pairwise (by decide +kernel)

def transferTerms : TransferTerms where
  amount := 500000
  feeRate := 1
  recipient := { version := 1, payload := ⟨List.replicate 32 0, length_zeros⟩ }
  genesisHash := ⟨List.replicate 32 0, length_zeros⟩
  aggregateAuthorizations := true
  available := transferOf.utxos

set_option maxRecDepth 10000 in
lemma transferOf_reads : parseU64 transferOf.amount "amount" = .ok transferTerms.amount
    ∧ parsePositiveU64 transferOf.feeRate "fee rate" = .ok transferTerms.feeRate
    ∧ decodeAddress transferOf.recipientAddress transferOf.chainId = .ok transferTerms.recipient
    ∧ decodeArray 32 transferOf.genesisHash "genesis hash" = .ok transferTerms.genesisHash := by
  decide +kernel

lemma transferOf_terms : BrowserWallet.readTransfer transferOf = .ok transferTerms := by
  obtain ⟨hamount, hrate, hrecipient, hgenesis⟩ := transferOf_reads
  simp only [BrowserWallet.readTransfer, Outcome.bind_eq_ok, Outcome.bailIf_eq_ok,
    Outcome.pure_eq_ok]
  refine ⟨_, hamount, _, hrate, ⟨⟩, by decide, _, hrecipient, ⟨⟩, not_not.mpr rfl, _, hgenesis, ?_⟩
  rw [transferOf_sorted]
  rfl

/-- The two rounds of the fee loop: the first one finds the fee, the second one pays it. -/
def transferRounds : Result TransferPlan := do
  let round ← feeRound transferOf transferTerms 1
  let paying ← feeRound transferOf transferTerms round.requiredFee
  bailIf (round.requiredFee ≤ 1 ∨ round.requiredFee < paying.requiredFee
    ∨ paying.total < transferTerms.amount + round.requiredFee) "another number of rounds"
  pure { terms := transferTerms, selected := paying.selected, total := paying.total,
         outputs := paying.outputs, fee := round.requiredFee }

set_option maxRecDepth 10000 in
lemma transferRounds_isOk : transferRounds.isOk = true := by decide +kernel

def transferPlan : TransferPlan := Outcome.value transferRounds transferRounds_isOk

lemma planTransfer_of_rounds {plan : TransferPlan} (h : transferRounds = .ok plan) :
    planTransfer transferOf = .ok plan := by
  simp only [transferRounds, Outcome.bind_eq_ok, Outcome.bailIf_eq_ok, Outcome.pure_eq_ok,
    not_or, not_lt, not_le] at h
  obtain ⟨round, hround, paying, hpaying, _, ⟨hmore, hpaid, htotal⟩, rfl⟩ := h
  have hlast : feeLoop transferOf transferTerms round.requiredFee = .ok
      { terms := transferTerms, selected := paying.selected, total := paying.total,
        outputs := paying.outputs, fee := round.requiredFee } := by
    rw [feeLoop, Outcome.bind_eq_ok]
    exact ⟨paying, hpaying, by rw [dif_pos hpaid]; rfl⟩
  have hloop : feeLoop transferOf transferTerms 1 = .ok
      { terms := transferTerms, selected := paying.selected, total := paying.total,
        outputs := paying.outputs, fee := round.requiredFee } := by
    rw [feeLoop, Outcome.bind_eq_ok]
    exact ⟨round, hround, by rw [dif_neg (not_le.mpr hmore), hlast]⟩
  simp only [planTransfer, Outcome.bind_eq_ok, Outcome.bailIf_eq_ok, Outcome.pure_eq_ok, not_lt]
  exact ⟨_, transferOf_terms, _, hloop, ⟨⟩, htotal, rfl⟩

lemma transferOf_plan : planTransfer transferOf = .ok transferPlan :=
  planTransfer_of_rounds (Outcome.eq_ok_value transferRounds transferRounds_isOk)

/-- Every input is authorized: the toy keys sign every payload. -/
lemma authorizeInput_isOk (seed : Str) (payload : Bytes) (utxo : HybridUtxo) :
    ∃ bytes, authorizeInput seed payload utxo = .ok bytes := by
  obtain ⟨signature, hsignature⟩ : ∃ signature, hybridSignature seed
      (mlSeed seed utxo.addressBranch utxo.addressIndex) payload = .ok signature := ⟨_, rfl⟩
  have hencoded := encodeAuthorization_eq
    { publicKey := hybridKey seed utxo.addressBranch utxo.addressIndex, signature := signature }
  simp only [authorizeInput, Outcome.bind_eq_ok]
  exact ⟨_, signature, hsignature, hencoded⟩

lemma authorizations_isOk (seed : Str) (payload : Bytes) (coins : List HybridUtxo) :
    ∃ authorizations, coins.mapM (authorizeInput seed payload) = .ok authorizations := by
  induction coins with
  | nil => exact ⟨[], rfl⟩
  | cons utxo coins ih =>
    obtain ⟨bytes, hbytes⟩ := authorizeInput_isOk seed payload utxo
    obtain ⟨rest, hrest⟩ := ih
    refine ⟨bytes :: rest, ?_⟩
    simp only [List.mapM_cons, Outcome.bind_eq_ok, Outcome.pure_eq_ok]
    exact ⟨bytes, hbytes, rest, hrest, rfl⟩

set_option maxRecDepth 10000 in
lemma transferOf_encodes : transferRounds.toOption.any (fun plan =>
    Outcome.succeeds (BrowserWallet.encodePrefix transferOf.chainId plan.terms.genesisHash)
      && Outcome.succeeds (pushU32 plan.selected.length)
      && Outcome.succeeds (plan.selected.mapM (BrowserWallet.encodeInput transferOf.seed))
      && Outcome.succeeds (BrowserWallet.encodeOutputs plan.outputs)
      && Outcome.succeeds (pushU32
        (authorizationInputs plan.terms.aggregateAuthorizations plan.selected).length)) = true := by
  decide +kernel

lemma transferOf_built : ∃ built, buildTransfer transferOf = .ok built := by
  have hencodes := Outcome.value_of_any transferOf_encodes transferRounds_isOk
  simp only [Bool.and_eq_true, Outcome.succeeds_iff] at hencodes
  obtain ⟨⟨⟨⟨⟨start, hstart⟩, count, hcount⟩, inputs, hinputs⟩, outputs, houtputs⟩, signing,
    hsigning⟩ := hencodes
  obtain ⟨authorizations, hauthorizations⟩ := authorizations_isOk transferOf.seed
    (start ++ [1] ++ count ++ inputs.flatten ++ outputs ++ Wire.bigEndian 8 transferPlan.fee)
    (authorizationInputs transferPlan.terms.aggregateAuthorizations transferPlan.selected)
  simp only [buildTransfer, Outcome.bind_eq_ok, Outcome.pure_eq_ok]
  exact ⟨_, transferPlan, transferOf_plan, start, hstart, count, hcount, inputs, hinputs, outputs,
    houtputs, signing, hsigning, authorizations, hauthorizations, rfl⟩

set_option maxRecDepth 10000 in
lemma transferOf_pays : 500000 + feeOf transferOf transferOf.aggregates 1 2
      [hybridCoin 0 400000, hybridCoin 1 300000] ≤ 400000 + (300000 + 0)
    ∧ ([hybridCoin 0 400000, hybridCoin 1 300000].map fun utxo => utxo.outpoint.named).Nodup
    ∧ ((authorizationInputs transferOf.aggregates
      [hybridCoin 0 400000, hybridCoin 1 300000]).map (ownerOf transferOf.seed)).Nodup := by
  decide +kernel

lemma transferOf_fits : TransferFits transferOf 2 := by
  obtain ⟨hpays, hdistinct, howners⟩ := transferOf_pays
  refine ⟨500000, 1, [hybridCoin 0 400000, hybridCoin 1 300000], transferOf_reads.1,
    transferOf_reads.2.1, ?_, hpays, by decide, hdistinct, ?_⟩
  · rw [transferOf_sorted]
    exact ⟨[hybridCoin 2 10], rfl⟩
  · rw [if_neg (by decide)]
    exact howners

/-- A transfer from two of three coins, the migration of one coin, and an address of the test
network. -/
theorem wallet_agreement_transfer :
    AddressAgrees (str "iuna-local-testnet-v1") v2Owner ∧
      (∃ built, buildTransfer transferOf = .ok built ∧ TransferAgrees transferOf built) ∧
      ∃ built, buildMigration (migrationOf [legacyCoin]) = .ok built ∧
        MigrationAgrees (migrationOf [legacyCoin]) built := by
  obtain ⟨haddress, htransfer, hmigration⟩ := wallet_agreement signingKeys_correct
  refine ⟨(haddress _ _).mpr ⟨fun _ => .inl rfl, fun hlegacy => by cases hlegacy⟩, ?_, ?_⟩
  · obtain ⟨built, hbuilt⟩ := transferOf_built
    exact ⟨built, hbuilt, (htransfer _ _ hbuilt).1 transferOf_fits⟩
  · obtain ⟨built, hbuilt⟩ := Outcome.succeeds_iff.mp migrationOf_built.1
    exact ⟨built, hbuilt, (hmigration _ _ hbuilt).mpr ⟨by simp [migrationOf], .inr rfl⟩⟩

end Iuna.Toy
