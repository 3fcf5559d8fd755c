import Iuna.Properties.PendingAfterBlock

/-!
# The window of an anchored burn

A burn names a block, its anchor.  It may wait in a pool while the anchor is the tip or the parent
of the tip (`MayWait`), and it may enter a block whose grandparent is the anchor (`MayEnter`).  Four
checks phrase this, two for each format; the first section shows that they agree.  The rest
follows a burn that is anchored to the tip over two blocks: the first leaves it waiting
(`retained`, `retainedV2`), after the second it is gone (`expelled`, `expelledV2`).
-/

namespace Iuna

open Mutate Runs

/-- A burn waits while its anchor is the tip or the parent of the tip. -/
def MayWait (tip parent anchor : FixedBytes 32) : Prop := anchor = tip ∨ anchor = parent

/-- A burn enters the block after the tip if its anchor is the grandparent of the block, which is the
parent of the tip. -/
def MayEnter (parent anchor : FixedBytes 32) : Prop := anchor = parent

lemma hexEncode_val_inj {n : ℕ} {array array' : FixedBytes n} :
    hexEncode array.val = hexEncode array'.val ↔ array = array' := by
  constructor
  · intro h
    have hdecode := decodeHexArray_hexEncode array
    rw [h, decodeHexArray_hexEncode] at hdecode
    exact (Except.ok.inj hdecode).symm
  · rintro rfl
    rfl

namespace Ledger

/-- The tip and its parent are named by the hexadecimal text of their hashes. -/
structure TipHashes (ledger : Ledger) (tip parent : FixedBytes 32) : Prop where
  tip : ledger.tip.hash = hexEncode tip.val
  parent : ledger.tip.prevHash = hexEncode parent.val

variable {ledger : Ledger} {tip parent anchor : FixedBytes 32}

/-! ## The four checks -/

lemma next_le_following (height : ℕ) : saturatingAdd height 1 ≤ saturatingAdd height 2 := by
  unfold saturatingAdd
  omega

/-- The legacy rule of the pools. -/
lemma legacy_mayWait (hashes : ledger.TipHashes tip parent) {transaction : Transaction}
    (burn : transaction.isBurn = true)
    (anchored : transaction.burnAnchor = some (hexEncode anchor.val))
    (active : tipBoundBurnActivationHeight ≤ saturatingAdd ledger.height 1) :
    ledger.validateTransactionAnchorForPending transaction = .ok () ↔
      MayWait tip parent anchor := by
  have hfollowing := active.trans (next_le_following ledger.height)
  unfold validateTransactionAnchorForPending
  rw [if_neg (by simp [burn])]
  dsimp only
  rw [anchored, hashes.tip, hashes.parent, if_neg (by simp)]
  simp only [active, hfollowing, true_and, Option.some.injEq, hexEncode_val_inj, MayWait]
  by_cases hparent : anchor = parent
  · rw [if_pos hparent]
    exact ⟨fun _ => .inr hparent, fun _ => rfl⟩
  · rw [if_neg hparent]
    by_cases htip : anchor = tip
    · rw [if_pos htip]
      exact ⟨fun _ => .inl htip, fun _ => rfl⟩
    · rw [if_neg htip]
      simp [hparent, htip]

/-- The v2 rule of the pools. -/
lemma v2_mayWait (hashes : ledger.TipHashes tip parent) {transaction : TransactionV2}
    (burn : transaction.isBurn = true) (anchored : transaction.burnAnchor = some anchor) :
    ledger.validateTransactionV2AnchorForPending transaction = .ok () ↔
      MayWait tip parent anchor := by
  unfold validateTransactionV2AnchorForPending
  rw [if_neg (by simp [burn]), anchored, hashes.tip, hashes.parent]
  simp only [orError, Outcome.bind_eq_ok, Outcome.ofOption_eq_ok, Option.some.injEq, withContext,
    Outcome.mapErr_eq_ok, decodeHexArray_hexEncode, Except.ok.injEq, exists_eq_left', MayWait]
  by_cases hwaits : anchor = tip ∨ anchor = parent
  · rw [if_neg (by tauto)]
    exact ⟨fun _ => hwaits, fun _ => rfl⟩
  · rw [if_pos (by tauto)]
    simp [hwaits]

/-- The legacy rule of the blocks. -/
lemma legacy_mayEnter (hashes : ledger.TipHashes tip parent) {transaction : Transaction}
    (burn : transaction.isBurn = true)
    (anchored : transaction.burnAnchor = some (hexEncode anchor.val)) {height : ℕ}
    (active : tipBoundBurnActivationHeight ≤ height) :
    ledger.validateTransactionAnchorForBlock transaction height = .ok () ↔
      MayEnter parent anchor := by
  unfold validateTransactionAnchorForBlock
  rw [if_neg (by simp [burn]), if_neg (by omega), anchored, hashes.parent]
  simp only [orError, Outcome.bind_eq_ok, Outcome.ofOption_eq_ok, Option.some.injEq,
    exists_eq_left', Outcome.bailIf_eq_ok, not_not, hexEncode_val_inj, MayEnter]

/-- The v2 rule of the blocks. -/
lemma v2_mayEnter (hashes : ledger.TipHashes tip parent) {transaction : TransactionV2}
    (burn : transaction.isBurn = true) (anchored : transaction.burnAnchor = some anchor)
    {height : ℕ} (active : tipBoundBurnActivationHeight ≤ height) :
    ledger.validateTransactionV2AnchorForBlock transaction height = .ok () ↔
      MayEnter parent anchor := by
  unfold validateTransactionV2AnchorForBlock
  rw [if_neg (by simp [burn]), anchored, hashes.parent]
  simp only [orError, Outcome.bind_eq_ok, Outcome.ofOption_eq_ok, Option.some.injEq, withContext,
    Outcome.mapErr_eq_ok, decodeHexArray_hexEncode, Except.ok.injEq, exists_eq_left',
    Outcome.bailIf_eq_ok, active, true_and, not_not, MayEnter]

variable [Crypto]

/-! ## The hashes of the tip -/

lemma hexHash_eq (input : Str) : ∃ hash : FixedBytes 32, hexHash input = hexEncode hash.val :=
  ⟨Crypto.sha256 (utf8 input), rfl⟩

/-- The hashes of the tip after a block: its own, and the one of the tip before. -/
lemma tipHashes_of_accepts (hashes : ledger.TipHashes tip parent) {ledger' : Ledger} {block : Block}
    {effects : BlockEffects} (accepts : ledger.Accepts block effects ledger') :
    ∃ hash, ledger'.TipHashes hash tip := by
  obtain ⟨_, prechecked⟩ := accepts.prechecked
  obtain ⟨hash, hhash⟩ := hexHash_eq (colons [str "block", block.contentHash, block.vdfSeed,
    block.vdfOutput])
  refine ⟨hash, ?_, ?_⟩
  · rw [accepts.tip, ← prechecked.hash]
    exact hhash
  · rw [accepts.tip, prechecked.prevHash, hashes.tip]

/-- **The tip.** In every reachable ledger the tip and its parent are named by hexadecimal hashes. -/
theorem reachable_tipHashes {ledger : Ledger} (reachable : Reachable ledger) :
    ∃ tip parent, ledger.TipHashes tip parent := by
  obtain ⟨genesis, events, initial, run⟩ := reachable
  refine run_track (fun _ ledger => ∃ tip parent, ledger.TipHashes tip parent) run ?_ ?_ ?_ ?_
  · obtain ⟨_, genesisBlock, _, _, _, _, _, _, -, hgenesis, -, -, rfl⟩ := initial_eq initial
    obtain ⟨hash, hhash⟩ : ∃ hash : FixedBytes 32, genesisBlock.hash = hexEncode hash.val := by
      rw [hgenesis]
      exact hexHash_eq _
    have hparent : genesisBlock.prevHash = hexEncode (List.replicate 32 0) := by
      rw [hgenesis]
      change repeatChar '0' 64 = hexEncode (List.replicate 32 0)
      decide
    exact ⟨hash, ⟨List.replicate 32 0, rfl⟩, hhash, hparent⟩
  · rintro _ ledger block effects ledger' ⟨tip, parent, hashes⟩ accepts
    obtain ⟨hash, hashes'⟩ := tipHashes_of_accepts hashes accepts
    exact ⟨hash, tip, hashes'⟩
  · rintro _ ledger pools ⟨tip, parent, hashes⟩
    exact ⟨tip, parent, hashes.tip, hashes.parent⟩
  · rintro _ ledger recentLimit ⟨tip, parent, hashes⟩
    exact ⟨tip, parent, by rw [retainRecentChainBlocks_tip]; exact hashes.tip,
      by rw [retainRecentChainBlocks_tip]; exact hashes.parent⟩

/-! ## Admission -/

/-- What the admission of a legacy transaction has checked. -/
structure Checked (ledger : Ledger) (transaction : Transaction) : Prop where
  terms : ledger.validateTransactionTerms transaction = .ok ()
  anchor : ledger.validateTransactionAnchorForPending transaction = .ok ()
  signature : transaction.verifySignature (ledger.transactionSigningDomainForPending transaction)
    = .ok ()

/-- A legacy transaction that is added has been checked. -/
lemma checked_of_submitted {transaction : Transaction} {pools : Pools}
    (submitted : ledger.submitTransactionWithOutcome transaction ledger.toPools
      = .ok .added pools) : ledger.Checked transaction := by
  unfold submitTransactionWithOutcome at submitted
  simp only [Mutate.get_bind_eq_ok] at submitted
  split at submitted
  · cases (Mutate.pure_eq_ok.mp submitted).1
  · simp only [Mutate.liftM_eq_lift, Mutate.lift_bind_eq_ok] at submitted
    obtain ⟨_, hterms, _, hanchor, _, hsignature, -⟩ := submitted
    exact ⟨hterms, hanchor, hsignature⟩

/-- What the admission of a v2 transaction has checked of its anchor and its heights. -/
structure CheckedV2 (ledger : Ledger) (transaction : TransactionV2) : Prop where
  active : transactionV2ActivationHeight ≤ saturatingAdd ledger.height 1
  policy : transaction.validateAuthorizationPolicyAtHeight (saturatingAdd ledger.height 1) = .ok ()
  anchor : ledger.validateTransactionV2AnchorForPending transaction = .ok ()

/-- A v2 transaction that is added has been checked. -/
lemma checkedV2_of_submitted {transaction : TransactionV2} {pools : Pools}
    (submitted : ledger.submitTransactionV2 transaction ledger.toPools = .ok .added pools) :
    ledger.CheckedV2 transaction := by
  unfold submitTransactionV2 at submitted
  simp only [Mutate.get_bind_eq_ok, Mutate.liftM_eq_lift, Mutate.lift_bind_eq_ok] at submitted
  obtain ⟨_, hactive, _, hpolicy, _, hanchor, -⟩ := submitted
  refine ⟨?_, hpolicy, hanchor⟩
  have hheight := Outcome.bailIf_eq_ok.mp hactive
  exact not_lt.mp hheight

/-! ## Entering a block -/

/-- A legacy burn of an accepted block is anchored to the grandparent of the block. -/
lemma entered {ledger' : Ledger} {block : Block}
    (step : Step ledger (.accepted block) ledger')
    (active : tipBoundBurnActivationHeight ≤ block.height) {transaction : Transaction}
    (mem : transaction ∈ block.transactions) (burn : transaction.isBurn = true) :
    transaction.burnAnchor = some ledger.tip.prevHash := by
  obtain ⟨effects, accepts⟩ := step_accepted step
  obtain ⟨seen, middle, last, domain, staged⟩ := stageBlock_eq_ok.mp accepts.staged
  obtain ⟨_, _, hround⟩ := staged.transactions.step_of_mem mem
  have hanchor := (applyBlockTransaction_eq_ok.mp hround).2.2.1
  unfold validateTransactionAnchorForBlock at hanchor
  rw [if_neg (by simp [burn]), if_neg (by omega)] at hanchor
  simp only [orError, Outcome.bind_eq_ok, Outcome.ofOption_eq_ok, Outcome.bailIf_eq_ok,
    not_not] at hanchor
  obtain ⟨anchor, hsome, rfl⟩ := hanchor
  exact hsome

/-- A v2 burn of an accepted block is anchored to the grandparent of the block. -/
lemma enteredV2 (hashes : ledger.TipHashes tip parent) {ledger' : Ledger} {block : Block}
    (step : Step ledger (.accepted block) ledger') {envelope : Str}
    (mem : envelope ∈ block.transactionsV2) :
    ∃ domain transaction, ledger.transactionV2Domain = .ok domain ∧
      decodeCanonicalTransactionV2Envelope envelope domain = .ok transaction ∧
      (transaction.isBurn = true → transaction.burnAnchor = some parent) := by
  obtain ⟨effects, accepts⟩ := step_accepted step
  obtain ⟨_, prechecked⟩ := accepts.prechecked
  obtain ⟨seen, middle, last, domain, staged⟩ := stageBlock_eq_ok.mp accepts.staged
  obtain ⟨_, _, hround⟩ := staged.envelopes.step_of_mem mem
  obtain ⟨transaction, _, _, hdecode, hanchor, -⟩ := applyBlockEnvelope_eq_ok.mp hround
  refine ⟨domain, transaction, staged.transactionV2Domain, hdecode, fun burn => ?_⟩
  have hactive : tipBoundBurnActivationHeight ≤ block.height := by
    refine le_trans (by decide) (prechecked.v2Active ?_)
    exact List.ne_nil_of_mem mem
  unfold validateTransactionV2AnchorForBlock at hanchor
  rw [if_neg (by simp [burn]), hashes.parent] at hanchor
  simp only [orError, Outcome.bind_eq_ok, Outcome.ofOption_eq_ok, withContext,
    Outcome.mapErr_eq_ok, decodeHexArray_hexEncode, Except.ok.injEq, exists_eq_left',
    Outcome.bailIf_eq_ok, hactive, true_and, not_not] at hanchor
  obtain ⟨anchor, hsome, rfl⟩ := hanchor
  exact hsome

/-! ## The first block -/

omit [Crypto] in
/-- A burn that is anchored to the tip passes the pool check only if it may enter the block after
the next. -/
lemma active_of_anchored {transaction : Transaction} (burn : transaction.isBurn = true)
    (anchored : transaction.burnAnchor = some ledger.tip.hash)
    (h : ledger.validateTransactionAnchorForPending transaction = .ok ()) :
    tipBoundBurnActivationHeight ≤ saturatingAdd ledger.height 2 := by
  unfold validateTransactionAnchorForPending at h
  rw [if_neg (by simp [burn])] at h
  dsimp only at h
  rw [anchored, if_neg (by simp)] at h
  split at h
  · rename_i hnext
    exact hnext.1.trans (next_le_following ledger.height)
  · split at h
    · rename_i hfollowing
      exact hfollowing.1
    · cases h

/-- The terms of a burn do not depend on the ledger. -/
lemma terms_of_burn (ledger recorded : Ledger) {transaction : Transaction}
    (burn : transaction.isBurn = true) :
    recorded.validateTransactionTerms transaction
      = ledger.validateTransactionTerms transaction := by
  cases transaction with
  | burn inputs change amount fee anchor signature => rfl
  | transfer => cases burn
  | mine => cases burn

/-- **The first block.** A burn that is anchored to the tip stays pending over a block that neither
includes it nor spends its inputs, and it may enter the next block. -/
theorem retained {ledger' : Ledger} {block : Block} (step : Step ledger (.accepted block) ledger')
    {transaction : Transaction} (pending : transaction ∈ ledger.pending)
    (burn : transaction.isBurn = true)
    (anchored : transaction.burnAnchor = some ledger.tip.hash)
    (checked : ledger.Checked transaction) (apart : block.hash ≠ ledger.tip.hash)
    (notIncluded : transaction.signature ∉ block.transactions.map Transaction.signature)
    (available : transactionInputsAvailable transaction ledger'.utxos = true) :
    transaction ∈ ledger'.pending ∧
      ledger'.validateTransactionAnchorForBlock transaction (saturatingAdd ledger'.height 1)
        = .ok () := by
  obtain ⟨effects, accepts⟩ := step_accepted step
  obtain ⟨_, prechecked⟩ := accepts.prechecked
  have hactive := active_of_anchored burn anchored checked.anchor
  have htip := accepts.tip
  have hheight : saturatingAdd ledger'.height 1 = saturatingAdd ledger.height 2 := by
    unfold height saturatingAdd
    rw [accepts.tip_height]
  have hparent : ledger'.tip.prevHash = ledger.tip.hash := by
    rw [htip]
    exact prechecked.prevHash
  have hhash : transaction.burnAnchor ≠ some ledger'.tip.hash := by
    rw [anchored, htip]
    exact fun hsame => apart (Option.some.inj hsame).symm
  have hdomain : ledger'.transactionSigningDomainForPending transaction
      = ledger.transactionSigningDomainForPending transaction := by
    unfold transactionSigningDomainForPending
    dsimp only
    rw [if_neg (by tauto), if_pos ⟨burn, anchored, hactive⟩, hheight]
    unfold transactionSigningDomainAt genesisHash
    rw [accepts.launchProfile, accepts.genesis]
  have hwaits : ledger'.validateTransactionAnchorForPending transaction = .ok () := by
    unfold validateTransactionAnchorForPending
    rw [if_neg (by simp [burn])]
    dsimp only
    rw [anchored, if_neg (by simp), if_pos ⟨by rw [hheight]; exact hactive, by rw [hparent]⟩]
    rfl
  have henters : ledger'.validateTransactionAnchorForBlock transaction
      (saturatingAdd ledger'.height 1) = .ok () := by
    unfold validateTransactionAnchorForBlock
    rw [if_neg (by simp [burn]), hheight, if_neg (not_lt.mpr hactive), anchored]
    simp [orError, hparent]
  refine ⟨?_, henters⟩
  have hterms : ledger'.validateTransactionTerms transaction = .ok () := by
    rw [terms_of_burn ledger ledger' burn]
    exact checked.terms
  have hsignature : transaction.verifySignature
      (ledger'.transactionSigningDomainForPending transaction) = .ok () := by
    rw [hdomain]
    exact checked.signature
  cases step with
  | accepted isNew applied =>
    obtain ⟨recorded, pools, vdfRounds, -, hrefresh, rfl⟩ := accepted_eq isNew applied
    have refreshed := recorded.refreshPools_refreshed
      (block.transactions.map Transaction.signature) ledger.toPools
    rw [after_of_ok hrefresh] at refreshed
    obtain ⟨promoted, hpools, -⟩ := refreshed.pending
    change transaction ∈ pools.pending
    rw [hpools]
    refine List.mem_append_left _ (List.mem_filter.mpr ⟨pending, ?_⟩)
    rw [decide_eq_true_eq]
    refine ⟨available, ?_⟩
    unfold survivesBlock
    rw [decide_eq_true_eq]
    exact ⟨notIncluded, Outcome.succeeds_iff.mpr ⟨_, hterms⟩, Outcome.succeeds_iff.mpr ⟨_, hwaits⟩,
      Outcome.succeeds_iff.mpr ⟨_, hsignature⟩⟩

/-! ## The second block -/

/-- What is left in the legacy pools after a block has passed the pool check. -/
lemma waits_of_left {ledger' : Ledger} {block : Block}
    (step : Step ledger (.accepted block) ledger') {transaction : Transaction}
    (left : transaction ∈ ledger'.pending ∨ transaction ∈ ledger'.orphans) :
    Outcome.succeeds (ledger'.validateTransactionAnchorForPending transaction) = true := by
  cases step with
  | accepted isNew applied =>
    obtain ⟨recorded, pools, vdfRounds, -, hrefresh, rfl⟩ := accepted_eq isNew applied
    have refreshed := recorded.refreshPools_refreshed
      (block.transactions.map Transaction.signature) ledger.toPools
    rw [after_of_ok hrefresh] at refreshed
    obtain ⟨promoted, hpools, hpromoted⟩ := refreshed.pending
    have hsurvives : recorded.survivesBlock (block.transactions.map Transaction.signature)
        transaction = true := by
      rcases left with left | left
      · change transaction ∈ pools.pending at left
        rw [hpools, List.mem_append] at left
        rcases left with left | left
        · have hkept := List.of_mem_filter left
          rw [decide_eq_true_eq] at hkept
          exact hkept.2
        · exact List.of_mem_filter (hpromoted transaction left)
      · exact List.of_mem_filter (refreshed.orphans transaction left)
    unfold survivesBlock at hsurvives
    rw [decide_eq_true_eq] at hsurvives
    exact hsurvives.2.2.1

/-- **The second block.** A burn that is anchored to neither of the last two blocks is gone. -/
theorem expelled {ledger' : Ledger} {block : Block} (step : Step ledger (.accepted block) ledger')
    {transaction : Transaction} (burn : transaction.isBurn = true) {anchor : Str}
    (anchored : transaction.burnAnchor = some anchor) (tipApart : anchor ≠ block.hash)
    (parentApart : anchor ≠ ledger.tip.hash) :
    transaction ∉ ledger'.pending ∧ transaction ∉ ledger'.orphans := by
  obtain ⟨effects, accepts⟩ := step_accepted step
  obtain ⟨_, prechecked⟩ := accepts.prechecked
  have hrefused : Outcome.succeeds (ledger'.validateTransactionAnchorForPending transaction)
      = false := by
    unfold validateTransactionAnchorForPending
    rw [if_neg (by simp [burn])]
    dsimp only
    rw [anchored, accepts.tip, prechecked.prevHash, if_neg (by simp), if_neg (by simp [parentApart]),
      if_neg (by simp [tipApart])]
    rfl
  constructor
  · intro left
    have hwaits := waits_of_left step (.inl left)
    rw [hrefused] at hwaits
    cases hwaits
  · intro left
    have hwaits := waits_of_left step (.inr left)
    rw [hrefused] at hwaits
    cases hwaits

/-! ## The v2 pool -/

section V2

variable (ledger : Ledger) (domain : TransactionV2Domain) (height : ℕ)

/-- One round of the loop over the v2 pool: whether the transaction is kept, and the outputs for the
rest. -/
def keepsV2 (transaction : TransactionV2) (utxos : Utxos) : Bool × Utxos :=
  if Outcome.succeeds (ledger.validateTransactionV2AnchorForPending transaction)
      ∧ Outcome.succeeds (transaction.validateAuthorizationPolicyAtHeight height) then
    Mutate.attempt (applyPrevalidatedTransactionV2ToUtxos transaction domain ledger.network) utxos
  else (false, utxos)

/-- The transactions that the loop keeps. -/
def keptV2 : List TransactionV2 → Utxos → List TransactionV2
  | [], _ => []
  | transaction :: rest, utxos =>
    if (ledger.keepsV2 domain height transaction utxos).1 then
      transaction :: keptV2 rest (ledger.keepsV2 domain height transaction utxos).2
    else keptV2 rest utxos

/-- The outputs that the loop has reached after some transactions. -/
def outputsAfterV2 : List TransactionV2 → Utxos → Utxos
  | [], utxos => utxos
  | transaction :: rest, utxos =>
    if (ledger.keepsV2 domain height transaction utxos).1 then
      outputsAfterV2 rest (ledger.keepsV2 domain height transaction utxos).2
    else outputsAfterV2 rest utxos

variable {ledger domain height}

lemma revalidatePendingV2Loop_eq {transactions : List TransactionV2} {utxos : Utxos}
    {pools pools' : Pools}
    (run : ledger.revalidatePendingV2Loop domain height transactions utxos pools = .ok () pools') :
    pools'.pendingV2 = pools.pendingV2 ++ ledger.keptV2 domain height transactions utxos ∧
      pools'.pending = pools.pending := by
  induction transactions generalizing utxos pools with
  | nil =>
    obtain ⟨-, rfl⟩ := Mutate.pure_eq_ok.mp run
    exact ⟨by simp [keptV2], rfl⟩
  | cons transaction rest ih =>
    unfold revalidatePendingV2Loop at run
    obtain ⟨encoded, -, hrun⟩ := Mutate.lift_bind_eq_ok.mp run
    unfold keptV2
    cases hkeeps : ledger.keepsV2 domain height transaction utxos with
    | mk valid candidateUtxos =>
      have hround := hkeeps
      unfold keepsV2 at hround
      rw [hround] at hrun
      cases valid with
      | true =>
        obtain ⟨_, _, hmodify, hrest⟩ := Mutate.bind_eq_ok.mp hrun
        obtain rfl := Mutate.modify_eq_ok.mp hmodify
        obtain ⟨hkept, hpending⟩ := ih hrest
        rw [hkept, hpending]
        simp
      | false =>
        obtain ⟨hkept, hpending⟩ := ih hrun
        rw [hkept, hpending]
        simp

lemma waits_of_keptV2 {transactions : List TransactionV2} {utxos : Utxos}
    {transaction : TransactionV2} (h : transaction ∈ ledger.keptV2 domain height transactions utxos) :
    Outcome.succeeds (ledger.validateTransactionV2AnchorForPending transaction) = true := by
  induction transactions generalizing utxos with
  | nil => cases h
  | cons first rest ih =>
    unfold keptV2 at h
    split at h
    · rename_i hkeeps
      rcases List.mem_cons.mp h with rfl | h
      · unfold keepsV2 at hkeeps
        split at hkeeps
        · rename_i hchecked
          exact hchecked.1
        · cases hkeeps
      · exact ih h
    · exact ih h

/-- A transaction is kept if it passes its checks and applies when it is its turn. -/
lemma mem_keptV2 {before after : List TransactionV2} {utxos : Utxos} {transaction : TransactionV2}
    (keeps : (ledger.keepsV2 domain height transaction
      (ledger.outputsAfterV2 domain height before utxos)).1 = true) :
    transaction ∈ ledger.keptV2 domain height (before ++ transaction :: after) utxos := by
  induction before generalizing utxos with
  | nil =>
    rw [outputsAfterV2] at keeps
    rw [List.nil_append, keptV2, if_pos keeps]
    exact List.mem_cons_self
  | cons first before ih =>
    rw [outputsAfterV2] at keeps
    rw [List.cons_append, keptV2]
    split at keeps
    · rename_i hfirst
      rw [if_pos hfirst]
      exact List.mem_cons_of_mem _ (ih keeps)
    · rename_i hfirst
      rw [if_neg hfirst]
      exact ih keeps

end V2

/-- The v2 pool is still the given one. -/
def HoldsV2 (pendingV2 : List TransactionV2) (pools : Pools) : Prop := pools.pendingV2 = pendingV2

omit [Crypto] in
lemma refreshCounters_pendingV2 {pendingV2 : List TransactionV2} :
    Preserves (HoldsV2 pendingV2) refreshPendingPoolByteCounters := by
  refine preserves_get_bind fun pools h => ?_
  refine preserves_bind (preserves_lift _) (fun _ => ?_) pools h
  refine preserves_bind (preserves_modify fun _ h => h) fun _ => ?_
  refine preserves_bind (preserves_lift _) fun _ => ?_
  exact preserves_modify fun _ h => h

lemma promoteOrphanRounds_pendingV2 {pendingV2 : List TransactionV2} (rounds : ℕ) :
    Preserves (HoldsV2 pendingV2) (ledger.promoteOrphanRounds rounds) := by
  induction rounds with
  | zero => exact preserves_pure _
  | succ rounds ih =>
    refine preserves_get_bind fun pools h => ?_
    by_cases hfull : maxPendingTransactions ≤ pools.pending.length
    · rw [if_pos hfull]
      exact h
    · rw [if_neg hfull]
      refine holds_lift_bind h fun _ _ => ?_
      refine holds_lift_bind h fun promoted _ => ?_
      cases promoted with
      | none => exact h
      | some promoted =>
        obtain ⟨index, bytes⟩ := promoted
        exact ih _ h

/-- The v2 pool after the refresh, from the legacy transactions that are pending then. -/
lemma refreshPools_v2 {minedSignatures : List Str} {pools pools' : Pools}
    (refresh : ledger.refreshPools minedSignatures pools = .ok () pools') :
    ∃ legacy : Pools,
      if saturatingAdd ledger.height 1 < transactionV2ActivationHeight then
        legacy.pending = pools'.pending ∧ pools'.pendingV2 = []
      else legacy.pending = pools'.pending ∧ ∃ domain, ledger.transactionV2Domain = .ok domain ∧
        pools'.pendingV2 = ledger.keptV2 domain (saturatingAdd ledger.height 1) pools.pendingV2
          (ledger.withPools legacy).utxosAfterSpendablePending := by
  unfold refreshPools at refresh
  obtain ⟨_, filtered, hfilter, refresh⟩ := Mutate.bind_eq_ok.mp refresh
  obtain ⟨_, counted, hcounters, refresh⟩ := Mutate.bind_eq_ok.mp refresh
  obtain ⟨_, promoted, hpromote, refresh⟩ := Mutate.bind_eq_ok.mp refresh
  have hfiltered : filtered.pendingV2 = pools.pendingV2 := by
    obtain rfl := Mutate.modify_eq_ok.mp hfilter
    rfl
  have hcounted := refreshCounters_pendingV2.of_ok hcounters hfiltered
  have hpromotes : Preserves (HoldsV2 pools.pendingV2) ledger.promoteOrphanTransactions :=
    preserves_get_bind fun _ h => promoteOrphanRounds_pendingV2 _ _ h
  have hpromoted : promoted.pendingV2 = pools.pendingV2 := hpromotes.of_ok hpromote hcounted
  unfold revalidatePendingV2 at refresh
  dsimp only at refresh
  refine ⟨promoted, ?_⟩
  split
  · rename_i hearly
    rw [if_pos hearly] at refresh
    obtain rfl := Mutate.modify_eq_ok.mp refresh
    exact ⟨rfl, rfl⟩
  · rename_i hactive
    rw [if_neg hactive] at refresh
    obtain ⟨domain, hdomain, refresh⟩ := Mutate.lift_bind_eq_ok.mp refresh
    simp only [Mutate.get_bind_eq_ok] at refresh
    obtain ⟨_, _, hclear, refresh⟩ := Mutate.bind_eq_ok.mp refresh
    obtain rfl := Mutate.modify_eq_ok.mp hclear
    obtain ⟨hkept, hpending⟩ := revalidatePendingV2Loop_eq refresh
    rw [List.nil_append, hpromoted] at hkept
    exact ⟨hpending.symm, domain, hdomain, hkept⟩

/-! ## The v2 pool over two blocks -/

lemma validPendingRounds_congr {first second : Ledger}
    (h : first.validPendingStep = second.validPendingStep) (fuel : ℕ) (state : ValidPending) :
    first.validPendingRounds fuel state = second.validPendingRounds fuel state := by
  induction fuel generalizing state with
  | zero => rfl
  | succ fuel ih =>
    unfold validPendingRounds
    rw [h]
    split
    · rfl
    · dsimp only
      rw [ih]

/-- The outputs beside the legacy pool depend on the legacy transactions that are pending only. -/
lemma spendable_withPools (recorded : Ledger) {pools pools' : Pools} (vdfRounds : ℕ)
    (h : pools.pending = pools'.pending) :
    (recorded.withPools pools).utxosAfterSpendablePending
      = { recorded.withPools pools' with vdfRounds := vdfRounds }.utxosAfterSpendablePending := by
  have hstep : (recorded.withPools pools).validPendingStep
      = { recorded.withPools pools' with vdfRounds := vdfRounds }.validPendingStep := rfl
  have hvalid : (recorded.withPools pools).validPendingTransactions
      = { recorded.withPools pools' with vdfRounds := vdfRounds }.validPendingTransactions := by
    unfold validPendingTransactions
    rw [validPendingRounds_congr hstep]
    change Ledger.validPendingRounds _ (pools.pending.length + 1)
      { utxos := recorded.utxos, valid := [], selectedMineAnchors := [], progressed := false,
        stillPending := pools.pending } = _
    rw [h]
    rfl
  unfold utxosAfterSpendablePending
  rw [hvalid]
  rfl

lemma keptV2_congr {first second : Ledger} {domain : TransactionV2Domain} {height : ℕ}
    (h : first.keepsV2 domain height = second.keepsV2 domain height)
    (transactions : List TransactionV2) (utxos : Utxos) :
    first.keptV2 domain height transactions utxos
      = second.keptV2 domain height transactions utxos := by
  induction transactions generalizing utxos with
  | nil => rfl
  | cons transaction rest ih =>
    unfold keptV2
    rw [h, ih, ih]

/-- The v2 pool after a block. -/
lemma pendingV2_of_accepted {ledger' : Ledger} {block : Block}
    (step : Step ledger (.accepted block) ledger') :
    if saturatingAdd ledger'.height 1 < transactionV2ActivationHeight then ledger'.pendingV2 = []
    else ∃ domain, ledger'.transactionV2Domain = .ok domain ∧
      ledger'.pendingV2 = ledger'.keptV2 domain (saturatingAdd ledger'.height 1) ledger.pendingV2
        ledger'.utxosAfterSpendablePending := by
  cases step with
  | accepted isNew applied =>
    obtain ⟨recorded, pools, vdfRounds, -, hrefresh, rfl⟩ := accepted_eq isNew applied
    obtain ⟨legacy, hrefreshed⟩ := refreshPools_v2 hrefresh
    change if saturatingAdd recorded.height 1 < transactionV2ActivationHeight then
      pools.pendingV2 = [] else _
    split at hrefreshed
    · rename_i hearly
      rw [if_pos hearly]
      exact hrefreshed.2
    · rename_i hactive
      rw [if_neg hactive]
      obtain ⟨hpending, domain, hdomain, hkept⟩ := hrefreshed
      refine ⟨domain, hdomain, ?_⟩
      rw [← spendable_withPools recorded vdfRounds hpending]
      have hkeeps : recorded.keepsV2 domain (saturatingAdd recorded.height 1)
          = { recorded.withPools pools with vdfRounds := vdfRounds }.keepsV2 domain
            (saturatingAdd recorded.height 1) := rfl
      exact hkept.trans (keptV2_congr hkeeps _ _)

/-- **The first block.** A v2 burn that is anchored to the tip stays pending over a block, if its
authorizations satisfy the policy of the next height and it still applies when it is its turn; and
it may enter the next block. -/
theorem retainedV2 (hashes : ledger.TipHashes tip parent) {ledger' : Ledger} {block : Block}
    (step : Step ledger (.accepted block) ledger') {domain : TransactionV2Domain}
    (hdomain : ledger.transactionV2Domain = .ok domain) {before after : List TransactionV2}
    {transaction : TransactionV2} (pending : ledger.pendingV2 = before ++ transaction :: after)
    (burn : transaction.isBurn = true) (anchored : transaction.burnAnchor = some tip)
    (active : transactionV2ActivationHeight ≤ saturatingAdd ledger.height 1)
    (policy : transaction.validateAuthorizationPolicyAtHeight (saturatingAdd ledger'.height 1)
      = .ok ())
    (applies : (Mutate.attempt
      (applyPrevalidatedTransactionV2ToUtxos transaction domain ledger'.network)
      (ledger'.outputsAfterV2 domain (saturatingAdd ledger'.height 1) before
        ledger'.utxosAfterSpendablePending)).1 = true) :
    transaction ∈ ledger'.pendingV2 ∧
      ledger'.validateTransactionV2AnchorForBlock transaction (saturatingAdd ledger'.height 1)
        = .ok () := by
  obtain ⟨effects, accepts⟩ := step_accepted step
  obtain ⟨hash, hashes'⟩ := tipHashes_of_accepts hashes accepts
  have hactive : transactionV2ActivationHeight ≤ saturatingAdd ledger'.height 1 := by
    refine active.trans ?_
    unfold height saturatingAdd
    rw [accepts.tip_height]
    omega
  have hdomain' : ledger'.transactionV2Domain = .ok domain := by
    rw [← hdomain]
    exact transactionV2Domain_congr accepts.genesis accepts.launchProfile
  have hwaits : ledger'.validateTransactionV2AnchorForPending transaction = .ok () :=
    (v2_mayWait hashes' burn anchored).mpr (.inr rfl)
  constructor
  · have hpool := pendingV2_of_accepted step
    rw [if_neg (not_lt.mpr hactive)] at hpool
    obtain ⟨_, hother, hkept⟩ := hpool
    obtain rfl := Except.ok.inj (hdomain'.symm.trans hother)
    rw [hkept, pending]
    refine mem_keptV2 ?_
    unfold keepsV2
    rw [if_pos ⟨Outcome.succeeds_iff.mpr ⟨_, hwaits⟩, Outcome.succeeds_iff.mpr ⟨_, policy⟩⟩]
    exact applies
  · exact (v2_mayEnter hashes' burn anchored (le_trans (by decide) hactive)).mpr rfl

/-- **The second block.** A v2 burn that is anchored to neither of the last two blocks is gone. -/
theorem expelledV2 {ledger' : Ledger} {block : Block} (step : Step ledger (.accepted block) ledger')
    (hashes' : ledger'.TipHashes tip parent) {transaction : TransactionV2}
    (burn : transaction.isBurn = true) (anchored : transaction.burnAnchor = some anchor)
    (tipApart : anchor ≠ tip) (parentApart : anchor ≠ parent) :
    transaction ∉ ledger'.pendingV2 := by
  intro left
  have hpool := pendingV2_of_accepted step
  split at hpool
  · rw [hpool] at left
    cases left
  · obtain ⟨_, -, hkept⟩ := hpool
    rw [hkept] at left
    obtain ⟨_, hwaits⟩ := Outcome.succeeds_iff.mp (waits_of_keptV2 left)
    rcases (v2_mayWait hashes' burn anchored).mp hwaits with rfl | rfl
    · exact tipApart rfl
    · exact parentApart rfl

/-! ## The window -/

/-- The four rules are one window: the pools hold a burn while its anchor is the tip or its parent,
the next block takes it if its anchor is the parent. -/
structure OneWindow (ledger : Ledger) (tip parent : FixedBytes 32) : Prop where
  legacy : ∀ (transaction : Transaction) (anchor : FixedBytes 32), transaction.isBurn = true →
    transaction.burnAnchor = some (hexEncode anchor.val) →
    tipBoundBurnActivationHeight ≤ saturatingAdd ledger.height 1 →
    (ledger.validateTransactionAnchorForPending transaction = .ok () ↔ MayWait tip parent anchor) ∧
      (ledger.validateTransactionAnchorForBlock transaction (saturatingAdd ledger.height 1)
        = .ok () ↔ MayEnter parent anchor)
  v2 : ∀ (transaction : TransactionV2) (anchor : FixedBytes 32), transaction.isBurn = true →
    transaction.burnAnchor = some anchor →
    tipBoundBurnActivationHeight ≤ saturatingAdd ledger.height 1 →
    (ledger.validateTransactionV2AnchorForPending transaction = .ok () ↔
        MayWait tip parent anchor) ∧
      (ledger.validateTransactionV2AnchorForBlock transaction (saturatingAdd ledger.height 1)
        = .ok () ↔ MayEnter parent anchor)

/-- The burns of a block are anchored to its grandparent. -/
structure EntersAsGrandchild (ledger : Ledger) (parent : FixedBytes 32) (block : Block) : Prop where
  legacy : tipBoundBurnActivationHeight ≤ block.height → ∀ transaction ∈ block.transactions,
    transaction.isBurn = true → transaction.burnAnchor = some (hexEncode parent.val)
  v2 : ∀ envelope ∈ block.transactionsV2, ∃ domain transaction,
    ledger.transactionV2Domain = .ok domain ∧
      decodeCanonicalTransactionV2Envelope envelope domain = .ok transaction ∧
      (transaction.isBurn = true → transaction.burnAnchor = some parent)

/-- The burns that are anchored to the tip wait over a block: none of them is dropped for its anchor,
and all of them may enter the next block. -/
structure WaitsOver (ledger : Ledger) (tip : FixedBytes 32) (block : Block) (ledger' : Ledger) :
    Prop where
  legacy : ∀ transaction ∈ ledger.pending, transaction.isBurn = true →
    transaction.burnAnchor = some (hexEncode tip.val) → ledger.Checked transaction →
    transaction.signature ∉ block.transactions.map Transaction.signature →
    transactionInputsAvailable transaction ledger'.utxos = true →
    transaction ∈ ledger'.pending ∧
      ledger'.validateTransactionAnchorForBlock transaction (saturatingAdd ledger'.height 1)
        = .ok ()
  v2 : ∀ domain before transaction after, ledger.transactionV2Domain = .ok domain →
    ledger.pendingV2 = before ++ transaction :: after → transaction.isBurn = true →
    transaction.burnAnchor = some tip → ledger.CheckedV2 transaction →
    transaction.validateAuthorizationPolicyAtHeight (saturatingAdd ledger'.height 1) = .ok () →
    (Mutate.attempt (applyPrevalidatedTransactionV2ToUtxos transaction domain ledger'.network)
      (ledger'.outputsAfterV2 domain (saturatingAdd ledger'.height 1) before
        ledger'.utxosAfterSpendablePending)).1 = true →
    transaction ∈ ledger'.pendingV2 ∧
      ledger'.validateTransactionV2AnchorForBlock transaction (saturatingAdd ledger'.height 1)
        = .ok ()

/-- No burn is left that is anchored to a block. -/
structure Gone (tip : FixedBytes 32) (ledger : Ledger) : Prop where
  legacy : ∀ transaction : Transaction, transaction.isBurn = true →
    transaction.burnAnchor = some (hexEncode tip.val) →
    transaction ∉ ledger.pending ∧ transaction ∉ ledger.orphans
  v2 : ∀ transaction : TransactionV2, transaction.isBurn = true →
    transaction.burnAnchor = some tip → transaction ∉ ledger.pendingV2

/-- **The window of a burn.** In every reachable ledger the rules for the anchors of both formats
are one window, the burns of the next block are anchored to its grandparent, and what is admitted
has passed the checks.  Of the burns that are anchored to the tip none is dropped for its anchor by
the next block, which leaves them ready to enter the block after it; and after that block, whatever
has happened to the pools in between, none is left.  The blocks are taken to have other hashes than
the tip. -/
theorem burn_window {ledger : Ledger} (reachable : Reachable ledger) :
    ∃ tip parent, ledger.TipHashes tip parent ∧ ledger.OneWindow tip parent ∧
      (∀ transaction pools, ledger.submitTransactionWithOutcome transaction ledger.toPools
        = .ok .added pools → ledger.Checked transaction) ∧
      (∀ transaction pools, ledger.submitTransactionV2 transaction ledger.toPools
        = .ok .added pools → ledger.CheckedV2 transaction) ∧
      ∀ first ledger', Step ledger (.accepted first) ledger' →
        ledger.EntersAsGrandchild parent first ∧
        (first.hash ≠ ledger.tip.hash → ledger.WaitsOver tip first ledger' ∧
          ∀ pools second ledger'', Step (ledger'.withPools pools) (.accepted second) ledger'' →
            second.hash ≠ ledger.tip.hash → Gone tip ledger'') := by
  obtain ⟨tip, parent, hashes⟩ := reachable_tipHashes reachable
  refine ⟨tip, parent, hashes, ?_, fun _ _ => checked_of_submitted, fun _ _ =>
    checkedV2_of_submitted, ?_⟩
  · refine ⟨?_, ?_⟩
    · intro transaction anchor burn anchored active
      exact ⟨legacy_mayWait hashes burn anchored active, legacy_mayEnter hashes burn anchored active⟩
    · intro transaction anchor burn anchored active
      exact ⟨v2_mayWait hashes burn anchored, v2_mayEnter hashes burn anchored active⟩
  intro first ledger' step
  obtain ⟨effects, accepts⟩ := step_accepted step
  obtain ⟨firstHash, hashes'⟩ := tipHashes_of_accepts hashes accepts
  refine ⟨⟨?_, ?_⟩, fun apart => ⟨⟨?_, ?_⟩, ?_⟩⟩
  · intro active transaction mem burn
    rw [← hashes.parent]
    exact entered step active mem burn
  · intro envelope mem
    exact enteredV2 hashes step mem
  · intro transaction pending burn anchored checked notIncluded available
    rw [← hashes.tip] at anchored
    exact retained step pending burn anchored checked apart notIncluded available
  · intro domain before transaction after hdomain pending burn anchored checked policy applies
    exact retainedV2 hashes step hdomain pending burn anchored checked.active policy applies
  intro pools second ledger'' step' apart'
  obtain ⟨effects', accepts'⟩ := step_accepted step'
  obtain ⟨secondHash, hashes''⟩ :=
    @tipHashes_of_accepts (ledger'.withPools pools) firstHash tip _ ⟨hashes'.tip, hashes'.parent⟩
      ledger'' second effects' accepts'
  have hfirst : first.hash = hexEncode firstHash.val := by
    rw [← accepts.tip]
    exact hashes'.tip
  have hsecond : second.hash = hexEncode secondHash.val := by
    rw [← accepts'.tip]
    exact hashes''.tip
  rw [hashes.tip] at apart apart'
  refine ⟨?_, ?_⟩
  · intro transaction burn anchored
    refine expelled step' burn anchored apart'.symm ?_
    rw [withPools_tip, accepts.tip]
    exact apart.symm
  · intro transaction burn anchored
    refine expelledV2 step' hashes'' burn anchored ?_ ?_
    · rintro rfl
      exact apart' hsecond
    · rintro rfl
      exact apart hfirst

end Ledger

end Iuna

namespace Iuna.Toy

attribute [local instance] crypto

/-- The window over the first block of the toy network. -/
theorem burn_window_block : ∃ tip parent, genesis.TipHashes tip parent ∧
    genesis.OneWindow tip parent ∧ genesis.EntersAsGrandchild parent block ∧
      genesis.WaitsOver tip block ledger := by
  have hapart : block.hash ≠ genesis.tip.hash := by decide +kernel
  obtain ⟨tip, parent, hashes, hwindow, -, -, hblocks⟩ := Ledger.burn_window genesis_reachable
  obtain ⟨henters, hwaits⟩ := hblocks block ledger block_accepted
  exact ⟨tip, parent, hashes, hwindow, henters, (hwaits hapart).1⟩

end Iuna.Toy
