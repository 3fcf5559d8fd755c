import Iuna.Adapters.BrowserWallet
import Iuna.Properties.WalletEncoding

/-!
# Transfers of the browser wallet

The fee loop ends with a selection that pays for the outputs and for the size of the transaction
(`feeLoop_spec`).  What `build_transfer` returns is the encoding of a transfer of that selection
(`buildTransfer_written`), and the node accepts it exactly when the selection is within its rules
(`transferAgrees_iff`).  The loop takes the largest coins, and no more of them than are needed for
the amount and the fee of a transfer with change (`feeLoop_extends`), so that the rules can be asked
of the coins of the request (`transferAgrees_of_fits`).
-/

namespace Iuna.BrowserWallet

open Wire TransactionV2

variable [Crypto] [SigningKeys]

/-! ## The selection -/

omit [Crypto] [SigningKeys] in
/-- The coins that are taken are the first ones, and their total fits its type. -/
lemma coverRequired_spec {required total : ℕ} {coins selected : List HybridUtxo} {total' : ℕ}
    (small : total ≤ u64Max) (h : coverRequired required coins total = .ok (selected, total')) :
    selected <+: coins ∧ total' = total + (selected.map fun utxo => utxo.amount.toNat).sum ∧
      total' ≤ u64Max := by
  induction coins generalizing total selected total' with
  | nil =>
    simp only [coverRequired, Outcome.pure_eq_ok, Prod.mk.injEq] at h
    obtain ⟨rfl, rfl⟩ := h
    exact ⟨List.prefix_refl _, by simp, small⟩
  | cons utxo rest ih =>
    simp only [coverRequired, Outcome.bind_eq_ok, Outcome.ofOption_eq_ok, checkedAdd_eq_some] at h
    obtain ⟨next, ⟨rfl, hnext⟩, h⟩ := h
    split at h
    · simp only [Outcome.pure_eq_ok, Prod.mk.injEq] at h
      obtain ⟨rfl, rfl⟩ := h
      exact ⟨⟨rest, rfl⟩, by simp, hnext⟩
    · simp only [Outcome.bind_eq_ok, Outcome.pure_eq_ok, Prod.exists, Prod.mk.injEq] at h
      obtain ⟨taken, total'', hrest, rfl, rfl⟩ := h
      obtain ⟨hfirst, hsum, hle⟩ := ih hnext hrest
      refine ⟨List.cons_prefix_cons.mpr ⟨rfl, hfirst⟩, ?_, hle⟩
      rw [hsum, List.map_cons, List.sum_cons]
      omega

/-- Whether a request aggregates its authorizations. -/
def TransferRequest.aggregates (request : TransferRequest) : Bool :=
  request.authorizationAggregationActivationHeight ≤ request.signingHeight

/-- What a selection of coins pays for: the outputs and a fee for the size of the transaction. -/
structure Balanced (request : TransferRequest) (terms : TransferTerms) (selected : List HybridUtxo)
    (outputs : List (Address × ℕ)) (fee : ℕ) : Prop where
  selected_prefix : selected <+: terms.available
  outputs_eq : ∃ change, (selected.map fun utxo => utxo.amount.toNat).sum
      = terms.amount + fee + change ∧
    outputs = (terms.recipient, terms.amount) ::
      if 0 < change then [(hybridAddress request.seed .external request.changeIndex, change)]
      else []
  total_le : (selected.map fun utxo => utxo.amount.toNat).sum ≤ u64Max
  fee_pays : terms.feeRate * transferEncodedSize request.chainId selected.length outputs.length
    (authorizationInputs terms.aggregateAuthorizations selected).length ≤ fee
  fee_pos : 1 ≤ fee

omit [Crypto] [SigningKeys] in
lemma requiredFee_eq_ok {feeRate size : ℕ} {fee : { fee : ℕ // fee ≤ u64Max }}
    (h : requiredFee feeRate size = .ok fee) : fee.val = max (feeRate * size) 1 := by
  unfold requiredFee at h
  split at h
  · rw [← Outcome.pure_eq_ok.mp h]
  · cases h

/-- A round whose fee is enough leaves a balanced selection. -/
lemma feeRound_spec {request : TransferRequest} {terms : TransferTerms} {fee : ℕ} {round : FeeRound}
    (h : feeRound request terms fee = .ok round) (paid : round.requiredFee ≤ fee) :
    Balanced request terms round.selected round.outputs fee := by
  simp only [feeRound, Outcome.bind_eq_ok, Outcome.ofOption_eq_ok, checkedAdd_eq_some,
    Outcome.bailIf_eq_ok, Outcome.pure_eq_ok, Prod.exists, not_lt] at h
  obtain ⟨required, ⟨rfl, -⟩, selected, total, hcover, _, hcovers, _, -, needed, hneeded, rfl⟩ := h
  obtain ⟨hfirst, hsum, hle⟩ := coverRequired_spec (by decide) hcover
  rw [Nat.zero_add] at hsum
  have hfee := requiredFee_eq_ok hneeded
  refine ⟨hfirst, ⟨total - (terms.amount + fee), ?_, rfl⟩, ?_,
    (le_of_requiredFee hneeded).trans paid, by dsimp only at paid; omega⟩
  · rw [← hsum]
    omega
  · rw [← hsum]
    exact hle

/-- The fee loop ends with a fee that is enough. -/
lemma feeLoop_spec {request : TransferRequest} {terms : TransferTerms} {fee : ℕ}
    {plan : TransferPlan} (h : feeLoop request terms fee = .ok plan) :
    plan.terms = terms ∧ Balanced request terms plan.selected plan.outputs plan.fee := by
  induction fee using feeLoop.induct with
  | case1 fee ih =>
    rw [feeLoop, Outcome.bind_eq_ok] at h
    obtain ⟨round, hround, h⟩ := h
    split at h
    · rename_i hpaid
      cases Outcome.pure_eq_ok.mp h
      exact ⟨rfl, feeRound_spec hround hpaid⟩
    · rename_i hmore
      exact ih round hmore h

omit [Crypto] [SigningKeys] in
/-- Coins that cover what is required are enough. -/
lemma coverRequired_prefix {required total : ℕ} {coins covering selected : List HybridUtxo}
    {total' : ℕ} (first : covering <+: coins)
    (covers : required ≤ total + (covering.map fun utxo => utxo.amount.toNat).sum)
    (missing : total < required) (h : coverRequired required coins total = .ok (selected, total')) :
    selected <+: covering := by
  induction coins generalizing total covering selected total' with
  | nil =>
    obtain rfl := List.prefix_nil.mp first
    simp only [List.map_nil, List.sum_nil] at covers
    omega
  | cons utxo rest ih =>
    cases covering with
    | nil =>
      simp only [List.map_nil, List.sum_nil] at covers
      omega
    | cons other others =>
      obtain ⟨rfl, hothers⟩ := List.cons_prefix_cons.mp first
      simp only [coverRequired, Outcome.bind_eq_ok, Outcome.ofOption_eq_ok, checkedAdd_eq_some] at h
      obtain ⟨next, ⟨rfl, -⟩, h⟩ := h
      split at h
      · simp only [Outcome.pure_eq_ok, Prod.mk.injEq] at h
        obtain ⟨rfl, -⟩ := h
        exact ⟨others, rfl⟩
      · rename_i hmore
        simp only [Outcome.bind_eq_ok, Outcome.pure_eq_ok, Prod.exists, Prod.mk.injEq] at h
        obtain ⟨taken, total'', hrest, rfl, -⟩ := h
        rw [List.map_cons, List.sum_cons] at covers
        exact List.cons_prefix_cons.mpr
          ⟨rfl, ih hothers (by omega) (by omega) hrest⟩

omit [Crypto] [SigningKeys] in
/-- The signing coins of the first coins are the first signing coins. -/
lemma authorizationInputs_append (aggregate : Bool) (first rest : List HybridUtxo) :
    ∃ added, authorizationInputs aggregate (first ++ rest)
        = authorizationInputs aggregate first ++ added ∧ added.Sublist rest := by
  unfold authorizationInputs
  split
  · unfold uniqueHybridOwnerInputs
    rw [List.foldl_append]
    generalize first.foldl _ _ = unique
    induction rest generalizing unique with
    | nil => exact ⟨[], by simp⟩
    | cons utxo rest ih =>
      rw [List.foldl_cons]
      split
      · obtain ⟨added, hadded, hsublist⟩ := ih unique
        exact ⟨added, hadded, hsublist.cons _⟩
      · obtain ⟨added, hadded, hsublist⟩ := ih (unique ++ [utxo])
        rw [List.append_assoc] at hadded
        exact ⟨utxo :: added, hadded, hsublist.cons_cons _⟩
  · exact ⟨rest, rfl, .refl _⟩

omit [Crypto] [SigningKeys] in
lemma authorizationInputs_extends {aggregate : Bool} {first coins : List HybridUtxo}
    (prefixed : first <+: coins) :
    authorizationInputs aggregate first <+: authorizationInputs aggregate coins := by
  obtain ⟨rest, rfl⟩ := prefixed
  obtain ⟨added, hadded, -⟩ := authorizationInputs_append aggregate first rest
  exact ⟨added, hadded.symm⟩

/-- The fee that the loop asks for a transfer of some coins, with a number of outputs. -/
def feeOf (request : TransferRequest) (aggregate : Bool) (feeRate outputs : ℕ)
    (coins : List HybridUtxo) : ℕ :=
  max (feeRate * transferEncodedSize request.chainId coins.length outputs
    (authorizationInputs aggregate coins).length) 1

omit [Crypto] [SigningKeys] in
/-- More coins and more outputs cost more. -/
lemma feeOf_mono (request : TransferRequest) (aggregate : Bool) (feeRate : ℕ) {fewer more : ℕ}
    (outputs : fewer ≤ more) {first coins : List HybridUtxo} (prefixed : first <+: coins) :
    feeOf request aggregate feeRate fewer first ≤ feeOf request aggregate feeRate more coins := by
  have hcount := prefixed.length_le
  have hauthorizations : (authorizationInputs aggregate first).length
      ≤ (authorizationInputs aggregate coins).length :=
    (authorizationInputs_extends prefixed).length_le
  refine max_le_max (Nat.mul_le_mul_left _ ?_) le_rfl
  unfold transferEncodedSize
  have := Nat.mul_le_mul_right (1 + 4 + hybridPublicKeyBytes + 4 + hybridSignatureBytes)
    hauthorizations
  omega

/-- The loop takes no more than coins that pay for the amount and for a transfer of themselves with
change: its fee does not pass theirs. -/
lemma feeLoop_extends {request : TransferRequest} {terms : TransferTerms} {fee : ℕ}
    {plan : TransferPlan} {coins : List HybridUtxo} (largest : coins <+: terms.available)
    (pays : terms.amount + feeOf request terms.aggregateAuthorizations terms.feeRate 2 coins
      ≤ (coins.map fun utxo => utxo.amount.toNat).sum)
    (within : 0 < fee)
    (cheap : fee ≤ feeOf request terms.aggregateAuthorizations terms.feeRate 2 coins)
    (h : feeLoop request terms fee = .ok plan) : plan.selected <+: coins := by
  induction fee using feeLoop.induct with
  | case1 fee ih =>
    rw [feeLoop, Outcome.bind_eq_ok] at h
    obtain ⟨round, hround, h⟩ := h
    have hselected : round.selected <+: coins ∧ round.requiredFee
        ≤ feeOf request terms.aggregateAuthorizations terms.feeRate 2 coins
        ∧ 0 < round.requiredFee := by
      simp only [feeRound, Outcome.bind_eq_ok, Outcome.ofOption_eq_ok, checkedAdd_eq_some,
        Outcome.bailIf_eq_ok, Outcome.pure_eq_ok, Prod.exists, not_lt] at hround
      obtain ⟨required, ⟨rfl, -⟩, selected, total, hcover, _, -, _, -, needed, hneeded, rfl⟩ :=
        hround
      have hfirst := coverRequired_prefix largest (by omega) (by omega) hcover
      have hfee := requiredFee_eq_ok hneeded
      refine ⟨hfirst, ?_, by dsimp only; omega⟩
      dsimp only
      rw [hfee]
      refine feeOf_mono request _ _ ?_ hfirst
      split
      · exact le_rfl
      · exact Nat.le_succ 1
    split at h
    · cases Outcome.pure_eq_ok.mp h
      exact hselected.1
    · rename_i hmore
      exact ih round hmore hselected.2.2 hselected.2.1 h

/-! ## Agreement -/

/-- An input spends a coin: it names its outpoint and its owner. -/
structure SpendsCoin (seed : Str) (utxo : HybridUtxo) (input : TransactionV2Input) : Prop where
  txid : decodeHexArray 32 utxo.outpoint.txid = .ok input.outpointTxid
  index : utxo.outpoint.index.toNat = input.outpointIndex
  owner : hybridOwner seed utxo.addressBranch utxo.addressIndex = input.owner

/-- The outputs pay the recipient of a request its amount, and the rest to the change address. -/
structure PaysRecipient (request : TransferRequest) (outputs : List TransactionV2Output) :
    Prop where
  split : ∃ recipient amount change,
    decodeAddress request.recipientAddress request.chainId = .ok (walletAddress recipient) ∧
      parseU64 request.amount "amount" = .ok amount ∧
      outputs = { address := recipient, amount := amount } :: change ∧
      ∀ output ∈ change, output.address = hybridOwner request.seed .external request.changeIndex

/-- The transfer that was built is one that the node accepts: it spends coins of the request, each
once, pays the recipient, and conserves the amounts. -/
def TransferAgrees (request : TransferRequest) (built : BuiltTransaction) : Prop :=
  ∃ bytes domain inputs outputs fee authorizations selected,
    Accepted request.chainId request.genesisHash request.feeRate request.signingHeight built bytes
      domain (.transfer inputs outputs fee authorizations) ∧
    List.Subperm selected request.utxos ∧ List.Forall₂ (SpendsCoin request.seed) selected inputs ∧
    PaysRecipient request outputs ∧
    (selected.map fun utxo => utxo.amount.toNat).sum
      = (outputs.map TransactionV2Output.amount).sum + fee

/-- Some coins of a request are within the rules of the node: at most a thousand of them, no
outpoint twice, and the signatures that the policy of the signing height asks for, one for each coin
before the activation of aggregation and no owner twice from then on. -/
structure CoinsFit (request : TransferRequest) (coins : List HybridUtxo) : Prop where
  count : coins.length ≤ maxV2Inputs
  distinct : (coins.map fun utxo => utxo.outpoint.named).Nodup
  signers : if request.signingHeight < authorizationAggregationActivationHeight then
      (authorizationInputs request.aggregates coins).length = coins.length
    else ((authorizationInputs request.aggregates coins).map (ownerOf request.seed)).Nodup

/-- The largest coins of a request that are within the rules of the node pay for its amount and for
the fee of a transfer of themselves, with a number of outputs. -/
def TransferFits (request : TransferRequest) (outputs : ℕ) : Prop :=
  ∃ amount feeRate coins, parseU64 request.amount "amount" = .ok amount ∧
    parsePositiveU64 request.feeRate "fee rate" = .ok feeRate ∧
    coins <+: request.utxos.mergeSort spendsBefore ∧
    amount + feeOf request request.aggregates feeRate outputs coins
      ≤ (coins.map fun utxo => utxo.amount.toNat).sum ∧
    CoinsFit request coins

/-! ## The signing coins -/

omit [Crypto] [SigningKeys] in
/-- The first coin of every derived address, and no address is left out. -/
lemma uniqueHybridOwnerInputs_spec (inputs : List HybridUtxo) :
    (uniqueHybridOwnerInputs inputs).Sublist inputs ∧ ∀ input ∈ inputs,
      ∃ candidate ∈ uniqueHybridOwnerInputs inputs,
        candidate.addressBranch = input.addressBranch ∧
          candidate.addressIndex = input.addressIndex := by
  unfold uniqueHybridOwnerInputs
  have hfold (unique : List HybridUtxo) :
      ∃ added, inputs.foldl (fun unique input =>
          if unique.any fun candidate => candidate.addressBranch = input.addressBranch ∧
              candidate.addressIndex = input.addressIndex
          then unique else unique ++ [input]) unique = unique ++ added ∧
        added.Sublist inputs ∧ ∀ input ∈ inputs, ∃ candidate ∈ unique ++ added,
          candidate.addressBranch = input.addressBranch ∧
            candidate.addressIndex = input.addressIndex := by
    induction inputs generalizing unique with
    | nil => exact ⟨[], by simp⟩
    | cons input inputs ih =>
      rw [List.foldl_cons]
      by_cases hknown : unique.any (fun candidate =>
          candidate.addressBranch = input.addressBranch ∧
            candidate.addressIndex = input.addressIndex) = true
      · rw [if_pos hknown]
        obtain ⟨added, hadded, hsub, hcovers⟩ := ih unique
        refine ⟨added, hadded, hsub.cons _, List.forall_mem_cons.mpr ⟨?_, hcovers⟩⟩
        obtain ⟨candidate, hmem, hsame⟩ := List.any_eq_true.mp hknown
        exact ⟨candidate, List.mem_append_left _ hmem, of_decide_eq_true hsame⟩
      · rw [if_neg hknown]
        obtain ⟨added, hadded, hsub, hcovers⟩ := ih (unique ++ [input])
        rw [List.append_assoc] at hadded hcovers
        refine ⟨input :: added, hadded, hsub.cons_cons _, List.forall_mem_cons.mpr ⟨?_, hcovers⟩⟩
        exact ⟨input, by simp, rfl, rfl⟩
  obtain ⟨added, hadded, hsub, hcovers⟩ := hfold []
  rw [hadded]
  exact ⟨hsub, hcovers⟩

omit [Crypto] [SigningKeys] in
lemma authorizationInputs_spec (aggregate : Bool) (selected : List HybridUtxo) :
    (authorizationInputs aggregate selected).Sublist selected ∧ ∀ utxo ∈ selected,
      ∃ candidate ∈ authorizationInputs aggregate selected,
        candidate.addressBranch = utxo.addressBranch ∧
          candidate.addressIndex = utxo.addressIndex := by
  unfold authorizationInputs
  split
  · exact uniqueHybridOwnerInputs_spec selected
  · exact ⟨List.Sublist.refl _, fun utxo hutxo => ⟨utxo, hutxo, rfl, rfl⟩⟩

/-- The owner of a coin, as the node holds it. -/
def coinOwner (seed : Str) (utxo : HybridUtxo) : VersionedAddress :=
  hybridOwner seed utxo.addressBranch utxo.addressIndex

lemma nodup_coinOwner {seed : Str} {coins : List HybridUtxo} :
    (coins.map (coinOwner seed)).Nodup ↔ (coins.map (ownerOf seed)).Nodup := by
  have hmap : coins.map (ownerOf seed) = (coins.map (coinOwner seed)).map walletAddress := by
    rw [List.map_map]
    rfl
  rw [hmap]
  exact (List.nodup_map_iff fun _ _ h => walletAddress_injective h).symm

/-! ## The plan of a transfer -/

/-- What an accepted request and the selection for it say about a plan. -/
structure Planned (request : TransferRequest) (plan : TransferPlan) : Prop where
  amount : parseU64 request.amount "amount" = .ok plan.terms.amount
  amount_pos : plan.terms.amount ≠ 0
  feeRate : parsePositiveU64 request.feeRate "fee rate" = .ok plan.terms.feeRate
  recipient : ∃ recipient : VersionedAddress, recipient.version = .hybridKeyCommitment ∧
    walletAddress recipient = plan.terms.recipient ∧
    decodeAddress request.recipientAddress request.chainId = .ok plan.terms.recipient
  genesis : decodeHexArray 32 request.genesisHash = .ok plan.terms.genesisHash
  aggregates : plan.terms.aggregateAuthorizations = request.aggregates
  available : plan.terms.available = request.utxos.mergeSort spendsBefore
  balanced : Balanced request plan.terms plan.selected plan.outputs plan.fee

lemma planned {request : TransferRequest} {plan : TransferPlan}
    (h : planTransfer request = .ok plan) : Planned request plan := by
  simp only [planTransfer, readTransfer, Outcome.bind_eq_ok, Outcome.bailIf_eq_ok,
    Outcome.pure_eq_ok, decodeArray_eq_ok, not_not] at h
  obtain ⟨terms, ⟨amount, hamount, feeRate, hfeeRate, _, hpositive, recipient, hrecipient, _,
    hversion, genesisHash, hgenesis, rfl⟩, plan', hloop, _, -, rfl⟩ := h
  obtain ⟨hterms, hbalanced⟩ := feeLoop_spec hloop
  have hcommitment : walletAddress { version := .hybridKeyCommitment, payload := recipient.payload }
      = recipient := by
    rw [walletAddress, AddressVersion.wireId, ← hversion]
  refine ⟨?_, ?_, ?_,
    ⟨{ version := .hybridKeyCommitment, payload := recipient.payload }, rfl, ?_, ?_⟩, ?_, ?_, ?_, ?_⟩
  all_goals rw [hterms]
  · exact hamount
  · exact hpositive
  · exact hfeeRate
  · exact hcommitment
  · exact hrecipient
  · exact hgenesis
  · rfl
  · exact hbalanced

namespace Planned

variable {request : TransferRequest} {plan : TransferPlan}

lemma selected_ne_nil (planned : Planned request plan) : plan.selected ≠ [] := by
  intro hnil
  obtain ⟨change, hsum, -⟩ := planned.balanced.outputs_eq
  rw [hnil] at hsum
  have := planned.amount_pos
  simp at hsum
  omega

/-- The outputs of a plan, as the node holds them. -/
lemma outputs (planned : Planned request plan) :
    ∃ outputs : List TransactionV2Output, plan.outputs = outputs.map walletOutput ∧
      PaysRecipient request outputs ∧
      (plan.selected.map fun utxo => utxo.amount.toNat).sum
        = (outputs.map TransactionV2Output.amount).sum + plan.fee ∧
      outputs ≠ [] ∧ outputs.length ≤ 2 ∧
      ∀ output ∈ outputs, output.amount ≠ 0 ∧ output.amount < 256 ^ 8 ∧
        output.address.version = .hybridKeyCommitment := by
  obtain ⟨recipient, hversion, hrecipient, hdecoded⟩ := planned.recipient
  obtain ⟨change, hsum, houtputs⟩ := planned.balanced.outputs_eq
  have hle := planned.balanced.total_le
  have hmax : u64Max < 256 ^ 8 := by decide
  have hpositive := planned.amount_pos
  have hamount : plan.terms.amount < 256 ^ 8 := by omega
  have hsmall : change < 256 ^ 8 := by omega
  have hdecoded' : decodeAddress request.recipientAddress request.chainId
      = .ok (walletAddress recipient) := by rw [hrecipient, hdecoded]
  by_cases hchange : 0 < change
  · rw [if_pos hchange] at houtputs
    refine ⟨[{ address := recipient, amount := plan.terms.amount },
      { address := hybridOwner request.seed .external request.changeIndex, amount := change }],
      ?_, ⟨recipient, plan.terms.amount, _, hdecoded', planned.amount, rfl, by simp⟩, ?_, by simp,
      by simp, ?_⟩
    · rw [houtputs, ← hrecipient]
      rfl
    · simp only [List.map_cons, List.map_nil, List.sum_cons, List.sum_nil]
      omega
    · intro output houtput
      simp only [List.mem_cons, List.not_mem_nil, or_false] at houtput
      rcases houtput with rfl | rfl
      · exact ⟨hpositive, hamount, hversion⟩
      · exact ⟨hchange.ne', hsmall, rfl⟩
  · rw [if_neg hchange] at houtputs
    refine ⟨[{ address := recipient, amount := plan.terms.amount }],
      ?_, ⟨recipient, plan.terms.amount, _, hdecoded', planned.amount, rfl, by simp⟩, ?_, by simp,
      by simp, ?_⟩
    · rw [houtputs, ← hrecipient]
      rfl
    · simp only [List.map_cons, List.map_nil, List.sum_cons, List.sum_nil]
      omega
    · intro output houtput
      rw [List.mem_singleton.mp houtput]
      exact ⟨hpositive, hamount, hversion⟩

end Planned

/-! ## The bytes of a transfer -/

lemma encodeInput_eq_ok {seed : Str} {utxo : HybridUtxo} {bytes : Bytes}
    (h : encodeInput seed utxo = .ok bytes) :
    ∃ input, SpendsCoin seed utxo input ∧ encodeInputV2 input = bytes := by
  simp only [encodeInput, Outcome.bind_eq_ok, decodeArray_eq_ok, Outcome.pure_eq_ok] at h
  obtain ⟨txid, htxid, rfl⟩ := h
  exact ⟨{ outpointTxid := txid, outpointIndex := utxo.outpoint.index.toNat,
           owner := hybridOwner seed utxo.addressBranch utxo.addressIndex },
    ⟨htxid, rfl, rfl⟩, rfl⟩

/-- An authorization is by the key of a coin, and it verifies over a payload. -/
structure SignsFor (seed : Str) (payload : Bytes) (utxo : HybridUtxo)
    (authorization : V2SpendingAuthorization) : Prop where
  scheme : authorization.scheme = .hybridEd25519MlDsa44
  address : authorization.authorizedAddress = .ok (coinOwner seed utxo)
  verifies : TransactionV2.verifyAuthorization payload authorization = .ok ⟨⟩

lemma authorizeInput_eq_ok (correct : SigningKeys.Correct) {seed : Str} {payload : Bytes}
    {utxo : HybridUtxo} {bytes : Bytes} (h : authorizeInput seed payload utxo = .ok bytes) :
    ∃ authorization, SignsFor seed payload utxo authorization ∧
      Iuna.encodeAuthorization authorization = bytes := by
  simp only [authorizeInput, Outcome.bind_eq_ok] at h
  obtain ⟨signature, hsignature, hbytes⟩ := h
  have hencoded := encodeAuthorization_eq
    { publicKey := hybridKey seed utxo.addressBranch utxo.addressIndex, signature := signature }
  refine ⟨{ publicKey := hybridKey seed utxo.addressBranch utxo.addressIndex,
            signature := signature }, ⟨rfl, ?_, verifyAuthorization_hybrid correct hsignature⟩,
    Except.ok.inj (hencoded.symm.trans hbytes)⟩
  exact hybridKeyCommitmentAddress_eq seed utxo.addressBranch utxo.addressIndex

lemma owners_of_spends {seed : Str} {coins : List HybridUtxo} {inputs : List TransactionV2Input}
    (h : List.Forall₂ (SpendsCoin seed) coins inputs) :
    inputs.map TransactionV2Input.owner = coins.map (coinOwner seed) := by
  induction h with
  | nil => rfl
  | cons hhead _ ih => rw [List.map_cons, List.map_cons, ih, ← hhead.owner, coinOwner]

/-- Two inputs name one outpoint exactly when their coins do. -/
lemma nodup_of_spends {seed : Str} {coins : List HybridUtxo} {inputs : List TransactionV2Input}
    (h : List.Forall₂ (SpendsCoin seed) coins inputs) :
    (inputs.map fun input => (input.outpointTxid, input.outpointIndex)).Nodup ↔
      (coins.map fun utxo => utxo.outpoint.named).Nodup := by
  have hnamed : coins.map (fun utxo => utxo.outpoint.named)
      = (inputs.map fun input => (input.outpointTxid, input.outpointIndex)).map
        fun outpoint => (some outpoint.1.val, outpoint.2) := by
    induction h with
    | nil => rfl
    | cons hhead _ ih =>
      rw [List.map_cons, List.map_cons, List.map_cons, ih, Outpoint.named,
        decodeHexArray_eq_ok.mp hhead.txid, hhead.index]
      rfl
  rw [hnamed]
  refine (List.nodup_map_iff fun a b h => ?_).symm
  obtain ⟨htxid, hindex⟩ := Prod.mk.inj h
  exact Prod.ext (Subtype.ext (Option.some.inj htxid)) hindex

/-- The transaction that a plan is written as. -/
structure TransferWritten (request : TransferRequest) (built : BuiltTransaction)
    (plan : TransferPlan) (domain : TransactionV2Domain) (inputs : List TransactionV2Input)
    (outputs : List TransactionV2Output) (authorizations : List V2SpendingAuthorization) :
    Prop where
  planned : planTransfer request = .ok plan
  count : plan.selected.length ≤ u32Max
  valid : domain.Valid
  chain : domain.chainId = request.chainId
  genesis : decodeHexArray 32 request.genesisHash = .ok domain.genesisHash
  outputs_eq : plan.outputs = outputs.map walletOutput
  spends : List.Forall₂ (SpendsCoin request.seed) plan.selected inputs
  signs : List.Forall₂ (SignsFor request.seed
      (prefixBytes domain ++ (TransactionV2.transfer inputs outputs plan.fee []).bodyBytes))
    (authorizationInputs plan.terms.aggregateAuthorizations plan.selected) authorizations
  built_eq : built = builtTransaction (prefixBytes domain
    ++ ((TransactionV2.transfer inputs outputs plan.fee authorizations).bodyBytes
      ++ countedList Iuna.encodeAuthorization authorizations)) plan.fee plan.selected.length

/-- What `build_transfer` returns is the encoding of a transfer of the plan. -/
lemma buildTransfer_written (correct : SigningKeys.Correct) {request : TransferRequest}
    {built : BuiltTransaction} (h : buildTransfer request = .ok built) :
    ∃ plan domain inputs outputs authorizations,
      TransferWritten request built plan domain inputs outputs authorizations := by
  simp only [buildTransfer, Outcome.bind_eq_ok, Outcome.pure_eq_ok, encodePrefix_eq_ok,
    pushU32_eq_ok] at h
  obtain ⟨plan, hplan, _, ⟨hvalid, rfl⟩, _, ⟨hcount, rfl⟩, inputBytes, hinputs, outputBytes,
    houtputs, _, ⟨-, rfl⟩, authorizationBytes, hauthorizations, rfl⟩ := h
  have hplanned := planned hplan
  obtain ⟨outputs, houtputsEq, -⟩ := hplanned.outputs
  rw [houtputsEq, encodeOutputs_eq_ok] at houtputs
  obtain ⟨-, -, rfl⟩ := houtputs
  obtain ⟨inputs, hspends, hinputs⟩ := exists_written encodeInput_eq_ok hinputs
  have hsigning (authorizations : List V2SpendingAuthorization) :
      prefixBytes { chainId := request.chainId, genesisHash := plan.terms.genesisHash } ++ [1]
          ++ bigEndian 4 plan.selected.length ++ inputBytes.flatten
          ++ countedList encodeOutputV2 outputs ++ bigEndian 8 plan.fee
        = prefixBytes { chainId := request.chainId, genesisHash := plan.terms.genesisHash }
          ++ (TransactionV2.transfer inputs outputs plan.fee authorizations).bodyBytes := by
    rw [hspends.length_eq, ← hinputs]
    simp only [TransactionV2.bodyBytes, countedList, List.append_assoc, List.cons_append,
      List.nil_append]
  rw [hsigning []] at hauthorizations
  obtain ⟨authorizations, hsigns, hauthorizations⟩ :=
    exists_written (authorizeInput_eq_ok correct) hauthorizations
  refine ⟨plan, _, inputs, outputs, authorizations, hplan, hcount, hvalid, rfl, hplanned.genesis,
    houtputsEq, hspends, hsigns, ?_⟩
  rw [hsigning authorizations, ← hauthorizations, hsigns.length_eq]
  simp only [countedList, List.append_assoc]

namespace TransferWritten

variable {request : TransferRequest} {built : BuiltTransaction} {plan : TransferPlan}
  {domain : TransactionV2Domain} {inputs : List TransactionV2Input}
  {outputs : List TransactionV2Output} {authorizations : List V2SpendingAuthorization}

lemma owners (written : TransferWritten request built plan domain inputs outputs authorizations) :
    (TransactionV2.transfer inputs outputs plan.fee authorizations).owners
      = plan.selected.map (coinOwner request.seed) :=
  owners_of_spends written.spends

/-- The owners of the signing coins sign. -/
lemma signedBy (written : TransferWritten request built plan domain inputs outputs authorizations) :
    (TransactionV2.transfer inputs outputs plan.fee authorizations).SignedBy .hybridKeyCommitment
      .hybridEd25519MlDsa44
      ((authorizationInputs plan.terms.aggregateAuthorizations plan.selected).map
        (coinOwner request.seed)) where
  expected := rfl
  authorizes := List.forall₂_map_right_iff.mpr
    (written.signs.flip.imp fun _ _ h => h.address)
  schemes := by
    intro authorization hmem
    obtain ⟨utxo, -, hsigns⟩ := Outcome.exists_partner written.signs hmem
    exact hsigns.scheme
  versions := by
    intro owner howner
    rw [written.owners] at howner
    obtain ⟨utxo, -, rfl⟩ := List.mem_map.mp howner
    rfl
  sublist := by
    rw [written.owners]
    exact (authorizationInputs_spec _ _).1.map _
  covers := by
    intro owner howner
    rw [written.owners] at howner
    obtain ⟨utxo, hutxo, rfl⟩ := List.mem_map.mp howner
    obtain ⟨candidate, hcandidate, hbranch, hindex⟩ := (authorizationInputs_spec _ _).2 utxo hutxo
    refine List.mem_map.mpr ⟨candidate, hcandidate, ?_⟩
    rw [coinOwner, coinOwner, hbranch, hindex]

/-- The policy asks of the signers what `CoinsFit` asks of the signing coins. -/
lemma signersFit_iff
    (written : TransferWritten request built plan domain inputs outputs authorizations) :
    TransactionV2.SignersFit
        (TransactionV2.transfer inputs outputs plan.fee authorizations).owners
        ((authorizationInputs plan.terms.aggregateAuthorizations plan.selected).map
          (coinOwner request.seed)) request.signingHeight ↔
      if request.signingHeight < authorizationAggregationActivationHeight then
        (authorizationInputs plan.terms.aggregateAuthorizations plan.selected).length
          = plan.selected.length
      else ((authorizationInputs plan.terms.aggregateAuthorizations plan.selected).map
        (ownerOf request.seed)).Nodup := by
  unfold TransactionV2.SignersFit
  rw [written.owners, List.length_map, List.length_map, nodup_coinOwner]

end TransferWritten

/-! ## What the node accepts of a transfer -/

omit [Crypto] [SigningKeys] in
/-- The unsigned shape of a transfer with one or two hybrid outputs: the inputs are few and
distinct. -/
lemma transferShape_iff {inputs : List TransactionV2Input} {outputs : List TransactionV2Output}
    (fee : ℕ) (authorizations : List V2SpendingAuthorization) (inputs_ne : inputs ≠ [])
    (outputs_ne : outputs ≠ []) (few : outputs.length ≤ maxV2Outputs)
    (hybrid : ∀ output ∈ outputs, output.amount ≠ 0 ∧
      output.address.version = .hybridKeyCommitment) :
    (TransactionV2.transfer inputs outputs fee authorizations).validateUnsignedShape = .ok ⟨⟩ ↔
      inputs.length ≤ maxV2Inputs ∧
        (inputs.map fun input => (input.outpointTxid, input.outpointIndex)).Nodup := by
  have hpositive : ¬ (outputs.any fun output => output.amount = 0) = true := by
    intro hany
    obtain ⟨output, hmem, hzero⟩ := List.any_eq_true.mp hany
    exact (hybrid output hmem).1 (of_decide_eq_true hzero)
  have hversions :
      ¬ (outputs.any fun output => output.address.version ≠ .hybridKeyCommitment) = true := by
    intro hany
    obtain ⟨output, hmem, hother⟩ := List.any_eq_true.mp hany
    exact of_decide_eq_true hother (hybrid output hmem).2
  simp only [validateUnsignedShape, inputCount, TransactionV2.outputs, Outcome.bind_eq_ok,
    Outcome.bailIf_eq_ok, not_not]
  constructor
  · rintro ⟨_, hcount, _, -, _, -, _, -, _, -, hdistinct⟩
    exact ⟨not_lt.mp (Outcome.bailIf_eq_ok.mp hcount), hdistinct⟩
  · rintro ⟨hcount, hdistinct⟩
    exact ⟨⟨⟩, Outcome.bailIf_eq_ok.mpr (not_lt.mpr hcount), ⟨⟩,
      Outcome.bailIf_eq_ok.mpr (not_lt.mpr few), ⟨⟩, Outcome.bailIf_eq_ok.mpr hpositive, ⟨⟩,
      not_or.mpr ⟨inputs_ne, outputs_ne⟩, ⟨⟩, hversions, hdistinct⟩

namespace TransferWritten

variable {request : TransferRequest} {built : BuiltTransaction} {plan : TransferPlan}
  {domain : TransactionV2Domain} {inputs : List TransactionV2Input}
  {outputs : List TransactionV2Output} {authorizations : List V2SpendingAuthorization}

/-- The size that the fee is computed from is the size of the envelope. -/
lemma envelope_length
    (written : TransferWritten request built plan domain inputs outputs authorizations) :
    (envelopeBytes domain (.transfer inputs outputs plan.fee authorizations)).length
      = transferEncodedSize request.chainId plan.selected.length plan.outputs.length
        (authorizationInputs plan.terms.aggregateAuthorizations plan.selected).length := by
  have hscheme := authorizations_length written.signedBy.schemes
  simp only [TransactionV2.authorizations] at hscheme
  simp only [envelopeBytes, bodyBytes, countedList, TransactionV2.authorizations,
    List.length_append, List.length_cons, bigEndian_length, prefixBytes_length,
    flatMap_length encodeInputV2_length, flatMap_length encodeOutputV2_length, hscheme,
    transferEncodedSize, written.chain, written.outputs_eq, List.length_map,
    written.spends.length_eq, written.signs.length_eq, SignatureScheme.publicKeyBytes,
    SignatureScheme.signatureBytes, hybridPublicKeyBytes, hybridSignatureBytes]
  omega

lemma written (written : TransferWritten request built plan domain inputs outputs authorizations)
    (planned : Planned request plan) (few : outputs.length ≤ 2)
    (small : ∀ output ∈ outputs, output.amount < 256 ^ 8) :
    WrittenTransaction domain (.transfer inputs outputs plan.fee authorizations)
      .hybridKeyCommitment .hybridEd25519MlDsa44
      ((authorizationInputs plan.terms.aggregateAuthorizations plan.selected).map
        (coinOwner request.seed)) where
  valid := written.valid
  spends := .inl ⟨_, _, _, _, rfl⟩
  fits := by
    have hle := planned.balanced.total_le
    obtain ⟨change, hsum, -⟩ := planned.balanced.outputs_eq
    have hmax : u64Max < 256 ^ 8 := by decide
    have hfee : plan.fee < 256 ^ 8 := by omega
    refine ⟨fun input hinput => ?_, small, hfee⟩
    obtain ⟨utxo, -, hspends⟩ := Outcome.exists_partner written.spends hinput
    rw [← hspends.index]
    exact utxo.outpoint.index.toNat_lt
  small := by
    have hcount := written.count
    have hmax : u32Max < 256 ^ 4 := by decide
    rw [inputCount, ← written.spends.length_eq]
    omega
  outputs := few.trans (by decide)
  signed := written.signedBy
  verifies := by
    intro authorization hmem
    obtain ⟨utxo, -, hsigns⟩ := Outcome.exists_partner written.signs hmem
    exact hsigns.verifies

end TransferWritten

omit [Crypto] [SigningKeys] in
lemma walletOutput_injective : Function.Injective walletOutput := by
  rintro ⟨address, amount⟩ ⟨address', amount'⟩ h
  obtain ⟨haddress, hamount⟩ := Prod.mk.inj h
  dsimp only at haddress hamount
  rw [walletAddress_injective haddress, hamount]

/-- The transfer that was built agrees with the node exactly when the picked coins are within its
rules. -/
lemma transferAgrees_iff (correct : SigningKeys.Correct) {request : TransferRequest}
    {built : BuiltTransaction} (h : buildTransfer request = .ok built) :
    TransferAgrees request built ↔
      ∀ plan, planTransfer request = .ok plan → CoinsFit request plan.selected := by
  obtain ⟨plan, domain, inputs, outputs, authorizations, hwritten⟩ :=
    buildTransfer_written correct h
  have hplanned := planned hwritten.planned
  obtain ⟨outputs', houtputs', hpays, hbalance, hne, hfew, hhybrid⟩ := hplanned.outputs
  obtain rfl : outputs' = outputs :=
    List.map_injective_iff.mpr walletOutput_injective (houtputs'.symm.trans hwritten.outputs_eq)
  have hready := hwritten.written hplanned hfew fun output houtput => (hhybrid output houtput).2.1
  have hbuilt : built = builtTransaction
      (envelopeBytes domain (.transfer inputs outputs' plan.fee authorizations)) plan.fee
      inputs.length := by
    rw [hwritten.built_eq, hwritten.spends.length_eq]
    rfl
  have hinputs : inputs ≠ [] := fun hnil => hplanned.selected_ne_nil
    (List.length_eq_zero_iff.mp (by rw [hwritten.spends.length_eq, hnil, List.length_nil]))
  have hshape := transferShape_iff plan.fee authorizations hinputs hne
    (hfew.trans (by decide)) fun output houtput =>
      ⟨(hhybrid output houtput).1, (hhybrid output houtput).2.2⟩
  rw [nodup_of_spends hwritten.spends, ← hwritten.spends.length_eq] at hshape
  constructor
  · rintro ⟨bytes, domain', inputs', outputs'', fee', authorizations', selected', haccepted, -⟩
      plan' hplan'
    obtain rfl : plan = plan' := Except.ok.inj (hwritten.planned.symm.trans hplan')
    rw [hbuilt] at haccepted
    obtain ⟨-, hunsigned, hsigners⟩ := hready.of_accepted haccepted
    obtain ⟨hcount, hdistinct⟩ := hshape.mp hunsigned
    have hfit := hwritten.signersFit_iff.mp hsigners
    rw [hplanned.aggregates] at hfit
    exact ⟨hcount, hdistinct, hfit⟩
  · intro hfits
    obtain ⟨hcount, hdistinct, hsigners⟩ := hfits plan hwritten.planned
    rw [← hplanned.aggregates] at hsigners
    have havailable : List.Subperm plan.selected request.utxos := by
      have hsubperm := hplanned.balanced.selected_prefix.sublist.subperm
      rw [hplanned.available] at hsubperm
      exact hsubperm.trans (List.mergeSort_perm _ _).subperm
    have hrate : plan.terms.feeRate
        * (envelopeBytes domain (.transfer inputs outputs' plan.fee authorizations)).length
          ≤ plan.fee := by
      rw [hwritten.envelope_length]
      exact hplanned.balanced.fee_pays
    have haccepted := hready.accepted hwritten.genesis ⟨_, hplanned.feeRate, hrate⟩
      (hshape.mpr ⟨hcount, hdistinct⟩) (hwritten.signersFit_iff.mpr hsigners)
    rw [hwritten.chain] at haccepted
    exact ⟨_, _, _, _, _, _, _, hbuilt ▸ haccepted,
      havailable, hwritten.spends, hpays,
      hbalance⟩

/-- The rules hold of the first coins, too. -/
lemma CoinsFit.of_prefix {request : TransferRequest} {first coins : List HybridUtxo}
    (fits : CoinsFit request coins) (prefixed : first <+: coins) : CoinsFit request first := by
  refine ⟨prefixed.length_le.trans fits.count,
    fits.distinct.sublist (prefixed.sublist.map _), ?_⟩
  have hsigners := fits.signers
  split at hsigners
  · rename_i hbelow
    rw [if_pos hbelow]
    obtain ⟨rest, rfl⟩ := prefixed
    obtain ⟨added, hadded, hsublist⟩ := authorizationInputs_append request.aggregates first rest
    have hfirst := (authorizationInputs_spec request.aggregates first).1.length_le
    have hrest := hsublist.length_le
    rw [hadded, List.length_append, List.length_append] at hsigners
    omega
  · rename_i habove
    rw [if_neg habove]
    exact hsigners.sublist ((authorizationInputs_extends prefixed).sublist.map _)

/-- The node accepts the transfer if coins within its rules pay for a transfer with change. -/
lemma transferAgrees_of_fits (correct : SigningKeys.Correct) {request : TransferRequest}
    {built : BuiltTransaction} (h : buildTransfer request = .ok built)
    (fits : TransferFits request 2) : TransferAgrees request built := by
  refine (transferAgrees_iff correct h).mpr fun plan hplan => ?_
  obtain ⟨amount, feeRate, coins, hamount, hrate, hlargest, hpays, hfits⟩ := fits
  have hplanned := planned hplan
  obtain rfl := Except.ok.inj (hplanned.amount.symm.trans hamount)
  obtain rfl := Except.ok.inj (hplanned.feeRate.symm.trans hrate)
  rw [← hplanned.available] at hlargest
  rw [← hplanned.aggregates] at hpays
  simp only [planTransfer, Outcome.bind_eq_ok, Outcome.pure_eq_ok] at hplan
  obtain ⟨terms, -, plan', hloop, _, -, rfl⟩ := hplan
  obtain ⟨hterms, -⟩ := feeLoop_spec hloop
  rw [hterms] at hlargest hpays
  exact hfits.of_prefix (feeLoop_extends hlargest hpays Nat.one_pos (le_max_right _ _) hloop)

/-- What the node accepts is paid by coins within its rules, with change or without. -/
lemma fits_of_transferAgrees (correct : SigningKeys.Correct) {request : TransferRequest}
    {built : BuiltTransaction} (h : buildTransfer request = .ok built)
    (agrees : TransferAgrees request built) : TransferFits request 1 := by
  obtain ⟨plan, _, _, _, _, hwritten⟩ := buildTransfer_written correct h
  have hplanned := planned hwritten.planned
  have hfits := (transferAgrees_iff correct h).mp agrees plan hwritten.planned
  have hlargest := hplanned.balanced.selected_prefix
  obtain ⟨change, hsum, houtputs⟩ := hplanned.balanced.outputs_eq
  have hpays := hplanned.balanced.fee_pays
  have hpositive := hplanned.balanced.fee_pos
  have hone : 1 ≤ plan.outputs.length := by simp [houtputs]
  have hsize : plan.terms.feeRate * transferEncodedSize request.chainId plan.selected.length 1
      (authorizationInputs plan.terms.aggregateAuthorizations plan.selected).length
        ≤ plan.fee := by
    refine (Nat.mul_le_mul_left _ ?_).trans hpays
    unfold transferEncodedSize
    omega
  rw [hplanned.available] at hlargest
  refine ⟨plan.terms.amount, plan.terms.feeRate, plan.selected, hplanned.amount, hplanned.feeRate,
    hlargest, ?_, hfits⟩
  unfold feeOf
  rw [hplanned.aggregates] at hsize
  omega

end Iuna.BrowserWallet
