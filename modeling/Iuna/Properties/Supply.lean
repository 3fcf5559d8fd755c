import Iuna.Properties.Effects
import Iuna.Properties.Launch

/-!
# Conservation of the supply

The amounts of the unspent outputs add up to what the genesis block left, plus what the mine
actions of the accepted blocks mint, less what their transactions burn.  The fees that leave the
inputs of a block's transactions come back in the reward of the block, whose split between
finalizer and committee adds up to it (`entriesTotal_rewardOutputsForBlock`).

The outputs of a reward are named by the hash of the block and a position close to the largest
`u32`.  No output of a transaction has such a name (`IdsInUse`), so a reward overwrites nothing as
long as the hashes of different blocks are different.
-/

namespace Iuna

open Resource Runs

/-! ## The split of a reward -/

lemma committeeShares_map_fst (remaining : Amount) (members : List BurnCommitteeMember) :
    (committeeShares remaining members).map Prod.fst = members := by
  induction members generalizing remaining with
  | nil => rfl
  | cons member members ih => simp [committeeShares, ih]

/-- The shares of the committee add up to the pool: the last member gets what is left. -/
lemma committeeShares_total {remaining : Amount} {members : List BurnCommitteeMember}
    (nonempty : members ≠ []) :
    ((committeeShares remaining members).map Prod.snd).sum = remaining := by
  induction members generalizing remaining with
  | nil => exact absurd rfl nonempty
  | cons member members ih =>
    by_cases hlast : members = []
    · subst hlast
      simp [committeeShares]
    · simp only [committeeShares, hlast, if_false, List.map_cons, List.sum_cons, ih hlast]
      exact Nat.add_sub_of_le (Nat.div_le_self _ _)

/-- Shares of nothing are not paid out, and add nothing. -/
lemma sum_filter_ne_zero (shares : List (BurnCommitteeMember × Amount)) :
    ((shares.filter fun share => share.2 ≠ 0).map Prod.snd).sum = (shares.map Prod.snd).sum := by
  induction shares with
  | nil => rfl
  | cons share shares ih =>
    by_cases hzero : share.2 = 0
    · simpa [List.filter_cons, hzero] using ih
    · simpa [List.filter_cons, hzero] using ih

lemma entriesTotal_singleton_or_nil (outpoint : OutPoint) (address : Str) (amount : Amount) :
    entriesTotal (if 0 < amount then [(outpoint, { address := address, amount := amount })] else [])
      = amount := by
  by_cases hzero : amount = 0
  · subst hzero
    rfl
  · rw [if_pos (Nat.pos_of_ne_zero hzero)]
    simp

/-- The outputs of a reward add up to the reward. -/
theorem entriesTotal_rewardOutputsForBlock (block : Block) (committee : List BurnCommitteeMember) :
    entriesTotal (rewardOutputsForBlock block committee) = block.reward := by
  unfold rewardOutputsForBlock
  by_cases hreward : block.reward = 0
  · rw [if_pos hreward, hreward]
    rfl
  · rw [if_neg hreward]
    dsimp only
    have hshares (pool : Amount) (members : List BurnCommitteeMember) :
        entriesTotal (((committeeShares pool members).filter fun share => share.2 ≠ 0).map
          fun share => (committeeRewardOutpoint block.hash share.1.slot,
            { address := committeeRewardAddress block share.1, amount := share.2 }))
          = ((committeeShares pool members).map Prod.snd).sum := by
      rw [entriesTotal, List.map_map, ← sum_filter_ne_zero]
      rfl
    rw [entriesTotal_append, hshares, entriesTotal_singleton_or_nil]
    by_cases hmembers : rewardCommitteeMembers block committee = []
    · simp [hmembers, committeeShares]
    · rw [if_neg hmembers, committeeShares_total hmembers]
      exact Nat.sub_add_cancel (Nat.div_le_self _ _)

/-! ## The names of the outputs of a reward -/

/-- A list whose consecutive elements are in order is a chain. -/
lemma isChain_of_zip_tail {α : Type} {R : α → α → Prop} {xs : List α}
    (h : ∀ pair ∈ xs.zip xs.tail, R pair.1 pair.2) : xs.IsChain R := by
  induction xs with
  | nil => exact .nil
  | cons x xs ih =>
    cases xs with
    | nil => exact .singleton x
    | cons y ys =>
      simp only [List.tail_cons, List.zip_cons_cons, List.forall_mem_cons] at h
      exact .cons_cons h.1 (ih h.2)

/-- What is selected by a key has the keys in their order. -/
lemma map_filterMap_sublist {α β : Type} {f : α → Option β} {g : β → α}
    (h : ∀ a b, f a = some b → g b = a) (xs : List α) :
    ((xs.filterMap f).map g).Sublist xs := by
  induction xs with
  | nil => exact .slnil
  | cons x xs ih =>
    cases hx : f x with
    | none =>
      rw [List.filterMap_cons_none hx]
      exact ih.cons x
    | some b =>
      rw [List.filterMap_cons_some hx, List.map_cons, h x b hx]
      exact ih.cons_cons x

/-- The positions under which slots are paid: none of them is the finalizer's, and different slots
have different positions. -/
lemma slotOutpoints_nodup (hash : Str) {slots : List ℕ} (ordered : slots.Pairwise (· < ·))
    (range : ∀ slot ∈ slots, 0 < slot ∧ slot < burnCommitteeSize) :
    (rewardOutpoint hash :: slots.map (committeeRewardOutpoint hash)).Nodup := by
  have hposition {slot : ℕ} (h : slot < burnCommitteeSize) :
      (committeeRewardOutpoint hash slot).index = 4294967295 - slot := by
    have hmin : min slot (burnCommitteeSize - 1) = slot := by
      simp only [burnCommitteeSize] at h ⊢
      omega
    simp [committeeRewardOutpoint, hmin, u32Max]
  refine List.nodup_cons.mpr ⟨?_, ?_⟩
  · intro hmem
    obtain ⟨slot, hslot, heq⟩ := List.mem_map.mp hmem
    obtain ⟨hpos, hlt⟩ := range slot hslot
    have hindex := congrArg OutPoint.index heq
    rw [hposition hlt] at hindex
    simp only [rewardOutpoint, u32Max, burnCommitteeSize] at hindex hlt
    omega
  · refine List.pairwise_map.mpr (ordered.imp_of_mem ?_)
    intro slot slot' hslot hslot' hless heq
    have hlt := (range slot hslot).2
    have hlt' := (range slot' hslot').2
    have hindex := congrArg OutPoint.index heq
    rw [hposition hlt, hposition hlt'] at hindex
    simp only [burnCommitteeSize] at hlt hlt'
    omega

/-- The members that share in a reward have slots of signatures, in their order. -/
lemma rewardCommitteeMembers_slots (block : Block) (committee : List BurnCommitteeMember) :
    ((rewardCommitteeMembers block committee).map BurnCommitteeMember.slot).Sublist
      (block.burnBundleSection.signatures.map BurnBundleSignature.slot) := by
  have hslots : (rewardCommitteeSlots block).Sublist
      (block.burnBundleSection.signatures.map BurnBundleSignature.slot) := by
    unfold rewardCommitteeSlots
    split
    · split
      · exact .refl _
      · exact List.nil_sublist _
    · exact List.nil_sublist _
  refine .trans (map_filterMap_sublist ?_ _) hslots
  intro slot member hfound
  have hmatch := List.find?_some hfound
  simp only [Bool.decide_and, Bool.and_eq_true, decide_eq_true_eq] at hmatch
  exact hmatch.1

/-- The outputs of a reward have different names, if the slots of the block's signatures are in
order and in range. -/
lemma rewardOutputs_nodup {block : Block} (committee : List BurnCommitteeMember)
    (ordered : (block.burnBundleSection.signatures.map BurnBundleSignature.slot).Pairwise (· < ·))
    (range : ∀ slot ∈ block.burnBundleSection.signatures.map BurnBundleSignature.slot,
      0 < slot ∧ slot < burnCommitteeSize) :
    ((rewardOutputsForBlock block committee).map Prod.fst).Nodup := by
  have hpaid (pool : Amount) :
      ((((committeeShares pool (rewardCommitteeMembers block committee)).filter
        fun share => share.2 ≠ 0).map Prod.fst).map BurnCommitteeMember.slot).Sublist
      (block.burnBundleSection.signatures.map BurnBundleSignature.slot) := by
    refine .trans (.map _ (.map _ (List.filter_sublist))) ?_
    rw [committeeShares_map_fst]
    exact rewardCommitteeMembers_slots block committee
  unfold rewardOutputsForBlock
  by_cases hreward : block.reward = 0
  · rw [if_pos hreward]
    exact List.nodup_nil
  · rw [if_neg hreward]
    dsimp only
    have hsub := hpaid (if rewardCommitteeMembers block committee = [] then 0 else block.reward / 2)
    refine (slotOutpoints_nodup block.hash (ordered.sublist hsub)
      fun slot hslot => range slot (hsub.subset hslot)).sublist ?_
    rw [List.map_append, List.map_map, List.map_map]
    have hfinalizer (address : Str) (amount : Amount) : (List.map Prod.fst (if 0 < amount then
        [(rewardOutpoint block.hash, ({ address := address, amount := amount } : TxOutput))]
        else [])).Sublist [rewardOutpoint block.hash] := by
      split
      · exact .refl _
      · exact List.nil_sublist _
    refine List.Sublist.append (hfinalizer _ _) ?_
    rw [List.map_map]
    exact .refl _

variable [Crypto]

/-- A checked section names its slots in order, and never the slot of the finalizer. -/
lemma Ledger.burnBundleSection_slots {ledger : Ledger} {block : Block} {u : Unit}
    (h : ledger.validateBurnBundleSectionForBlock block = .ok u) :
    (block.burnBundleSection.signatures.map BurnBundleSignature.slot).Pairwise (· < ·)
      ∧ ∀ slot ∈ block.burnBundleSection.signatures.map BurnBundleSignature.slot,
        0 < slot ∧ slot < burnCommitteeSize := by
  simp only [validateBurnBundleSectionForBlock, Outcome.bind_eq_ok, Outcome.bailIf_eq_ok,
    List.any_eq_true, decide_eq_true_eq, not_exists, not_and, not_le] at h
  obtain ⟨_, _, _, hordered, seen, hseen, _⟩ := h
  constructor
  · have hchain : block.burnBundleSection.signatures.IsChain fun left right =>
        left.slot < right.slot := isChain_of_zip_tail hordered
    have : IsTrans BurnBundleSignature fun left right => left.slot < right.slot :=
      ⟨fun _ _ _ => Nat.lt_trans⟩
    exact List.pairwise_map.mpr (List.isChain_iff_pairwise.mp hchain)
  · refine Outcome.foldlM_prefix (fun done _ => ∀ slot ∈ done.map BurnBundleSignature.slot,
      0 < slot ∧ slot < burnCommitteeSize) (by simp) ?_ hseen
    intro done signature before after _ hdone hcheck slot hslot
    rw [List.map_append, List.mem_append] at hslot
    rcases hslot with hslot | hslot
    · exact hdone slot hslot
    · obtain rfl : slot = signature.slot := by simpa using hslot
      simp only [checkSectionSignature, Outcome.bind_eq_ok, Outcome.bailIf_eq_ok, not_le] at hcheck
      obtain ⟨_, hlt, _, hne, -⟩ := hcheck
      exact ⟨Nat.pos_of_ne_zero hne, hlt⟩

/-! ## The reward is the fees -/

/-- The fees of the transactions of a block. -/
def Block.fees (domain : TransactionV2Domain) (block : Block) : ℕ :=
  (block.transactions.map Transaction.fee).sum
    + (block.transactionsV2.map (envelopeFee domain)).sum

/-- What the transactions of a block burn. -/
def Block.burned (domain : TransactionV2Domain) (block : Block) : ℕ :=
  (block.transactions.map Transaction.burned).sum
    + (block.transactionsV2.map (envelopeBurned domain)).sum

/-- What the mine actions of a block mint. -/
def Block.minted (block : Block) : ℕ := mineActionCount block * (mineReward + mineFinalizerFee)

omit [Crypto] in
lemma Block.minted_eq (block : Block) :
    block.minted = (block.transactions.map Transaction.minted).sum := by
  unfold Block.minted mineActionCount
  induction block.transactions with
  | nil => simp
  | cons transaction transactions ih =>
    rw [List.map_cons, List.sum_cons, ← ih]
    cases transaction with
    | mine =>
      rw [List.countP_cons_of_pos (by rfl), Transaction.minted]
      exact (Nat.succ_mul _ _).trans (Nat.add_comm _ _)
    | transfer =>
      rw [List.countP_cons_of_neg (by simp [Transaction.isMine]), Transaction.minted]
      exact (Nat.zero_add _).symm
    | burn =>
      rw [List.countP_cons_of_neg (by simp [Transaction.isMine]), Transaction.minted]
      exact (Nat.zero_add _).symm

/-- The fees of canonical envelopes, summed as the block check sums them. -/
lemma transactionV2Fees_eq {domain : TransactionV2Domain} {envelopes : List Str}
    {start total : Amount}
    (opened : ∀ envelope ∈ envelopes, ∃ transaction id,
      openEnvelope domain envelope = some (transaction, id))
    (h : envelopes.foldlM (fun total envelope => do
      let transaction ← decodeCanonicalTransactionV2Envelope envelope domain
      bailIf (transaction.fee = 0) "block transaction v2 fee must be greater than zero"
      orError "block transaction v2 fees overflow" (checkedAdd total transaction.fee)) start
        = .ok total) :
    total = start + (envelopes.map (envelopeFee domain)).sum := by
  induction envelopes generalizing start with
  | nil =>
    obtain rfl := Outcome.foldlM_nil_eq_ok.mp h
    simp
  | cons envelope envelopes ih =>
    obtain ⟨sum, hhead, htail⟩ := Outcome.foldlM_cons_eq_ok.mp h
    obtain ⟨transaction, id, hopen⟩ := opened envelope List.mem_cons_self
    simp only [Outcome.bind_eq_ok, Outcome.bailIf_eq_ok, Outcome.ofOption_eq_ok,
      checkedAdd_eq_some] at hhead
    obtain ⟨decoded, hdecoded, _, _, rfl, _⟩ := hhead
    obtain rfl : transaction = decoded :=
      Except.ok.inj ((openEnvelope_eq_some.mp hopen).1.symm.trans hdecoded)
    have hfee : envelopeFee domain envelope = transaction.fee := by
      rw [envelopeFee, hopen, Option.map_some, Option.getD_some]
    rw [ih (fun e he => opened e (List.mem_cons_of_mem _ he)) htail, List.map_cons, List.sum_cons,
      hfee]
    exact Nat.add_assoc _ _ _

/-- Every envelope of a staged block opens. -/
lemma Ledger.envelopes_open {ledger : Ledger} {block : Block} {domain : TransactionV2Domain}
    {start finish : EnvelopeState × LineageState} {envelopes : List Str}
    (run : Run (ledger.EnvelopeRound block domain) start envelopes finish) :
    ∀ envelope ∈ envelopes, ∃ transaction id,
      openEnvelope domain envelope = some (transaction, id) := by
  intro envelope henvelope
  obtain ⟨_, _, hround⟩ := run.step_of_mem henvelope
  obtain ⟨transaction, id, _, hdecode, -, -, hid, -⟩ := applyBlockEnvelope_eq_ok.mp hround
  exact ⟨transaction, id, openEnvelope_eq_some.mpr ⟨hdecode, hid⟩⟩

/-- The reward that a block must carry is the sum of its fees. -/
lemma Ledger.expectedReward_eq {ledger : Ledger} {block : Block} {domain : TransactionV2Domain}
    {reward : Amount} (hdomain : ledger.transactionV2Domain = .ok domain)
    (opened : ∀ envelope ∈ block.transactionsV2, ∃ transaction id,
      openEnvelope domain envelope = some (transaction, id))
    (h : ledger.expectedRewardForBlock block = .ok reward) : reward = block.fees domain := by
  simp only [expectedRewardForBlock, expectedRewardForNextBlock, transactionV2Fees, hdomain,
    Outcome.bind_eq_ok, blockReward, feeReward, foldlM_checkedAdd_eq_ok, Outcome.ofOption_eq_ok,
    checkedAdd_eq_some, Except.ok.injEq] at h
  obtain ⟨v2Fees, ⟨_, rfl, hfees⟩, _, ⟨rfl, -⟩, rfl, -⟩ := h
  rw [transactionV2Fees_eq opened hfees, Nat.zero_add, Nat.zero_add]
  rfl

/-! ## Names in use -/

omit [Crypto] in
/-- The names of unspent outputs: the position is small, or the id is the signature of a transfer
or of a burn, or it is one of the given ids. -/
def IdsInUse (ids : List Str) (utxos : Utxos) : Prop :=
  ∀ outpoint ∈ utxos, outpoint.txid.length = 128 ∨ outpoint.index < maxV2Outputs
    ∨ outpoint.txid ∈ ids

namespace Ledger

variable {ledger ledger' : Ledger} {block : Block} {effects : BlockEffects}

/-- The actions of an accepted block: its transactions, its envelopes, its reward. -/
def blockActions (ledger : Ledger) (block : Block) : List (Action OutPoint) :=
  block.transactions.flatMap transactionActions
    ++ (match ledger.transactionV2Domain with
      | .error _ => []
      | .ok domain => block.transactionsV2.flatMap (envelopeActions domain))
    ++ (rewardOutputsForBlock block (ledger.burnCommitteeForBlock block)).map fun entry =>
      .put entry.1

/-- **The transactions of an accepted block**, from the state before it to the state its reward is
credited to: they run on the strict machine, they balance but for the fees, and the names they
create are small. -/
theorem staged_effects {seen : List Str} {middle last : LineageState}
    {domain : TransactionV2Domain}
    (staged : ledger.Staged block effects seen middle last domain) :
    ∃ es, Run Resource.Step ledger.utxos es last.utxos
      ∧ es.map Effect.action = block.transactions.flatMap transactionActions
          ++ block.transactionsV2.flatMap (envelopeActions domain)
      ∧ takeWeight amountWeight es + block.minted
          = putWeight amountWeight es + block.reward + block.burned domain
      ∧ ∀ outpoint output, Effect.put outpoint output ∈ es → SmallName outpoint := by
  obtain ⟨es, hrun, hactions, hbalance⟩ := transactions_effects staged.transactions
  obtain ⟨es', hrun', hactions', hbalance'⟩ := envelopes_effects staged.envelopes
  have hreward := expectedReward_eq staged.transactionV2Domain (envelopes_open staged.envelopes)
    staged.reward
  refine ⟨es ++ es', hrun.append hrun', by rw [List.map_append, hactions, hactions'], ?_, ?_⟩
  · rw [takeWeight_append, putWeight_append, hreward, Block.minted_eq, Block.fees, Block.burned]
    omega
  · intro outpoint output hput
    rcases List.mem_append.mp hput with hput | hput
    · have haction := List.mem_map_of_mem (f := Effect.action) hput
      rw [hactions, List.mem_flatMap] at haction
      obtain ⟨transaction, htransaction, haction⟩ := haction
      obtain ⟨_, _, hround⟩ := staged.transactions.step_of_mem htransaction
      obtain ⟨-, hterms, -⟩ := applyBlockTransaction_eq_ok.mp hround
      rcases List.mem_append.mp haction with haction | haction
      · simp [Effect.action] at haction
      · obtain ⟨entry, hentry, heq⟩ := List.mem_map.mp haction
        obtain rfl : entry.1 = outpoint := by simpa [Effect.action] using heq
        exact smallName_of_terms hterms entry hentry
    · have haction := List.mem_map_of_mem (f := Effect.action) hput
      rw [hactions', List.mem_flatMap] at haction
      obtain ⟨envelope, -, haction⟩ := haction
      exact smallName_of_envelope haction

/-- An accepted block is a run of takes and puts.  The puts of its transactions have small names,
and those of its reward the hash of the block. -/
theorem accepts_effects (accepts : ledger.Accepts block effects ledger') :
    ∃ es, Run WriteStep ledger.utxos es ledger'.utxos
      ∧ es.map Effect.action = ledger.blockActions block
      ∧ ∀ outpoint output, Effect.put outpoint output ∈ es →
          SmallName outpoint ∨ outpoint.txid = block.hash := by
  obtain ⟨seen, middle, last, domain, staged⟩ := stageBlock_eq_ok.mp accepts.staged
  obtain ⟨es, hrun, hactions, -, hnames⟩ := staged_effects staged
  have hcredited := staged.credited
  simp only [creditRewardOutputs, Outcome.bind_eq_ok, Outcome.pure_eq_ok] at hcredited
  obtain ⟨_, -, hcredited⟩ := hcredited
  have hfinal : ledger'.utxos = insertOutputs last.utxos
      (rewardOutputsForBlock block (ledger.burnCommitteeForBlock block)) := by
    rw [accepts.lineageState, ← hcredited]
  rw [hfinal]
  refine ⟨_, (run_write hrun).append (run_write_putsOf _ _), ?_, ?_⟩
  · rw [List.map_append, hactions, map_action_putsOf, blockActions, staged.transactionV2Domain]
  · intro outpoint output hput
    rcases List.mem_append.mp hput with hput | hput
    · exact .inl (hnames _ _ hput)
    · obtain ⟨entry, hentry, heq⟩ := List.mem_map.mp hput
      obtain ⟨rfl, rfl⟩ : entry.1 = outpoint ∧ entry.2 = output := by simpa using heq
      exact .inr (rewardOutputs_names _ entry hentry).1

/-- The names in use after an accepted block. -/
lemma accepts_idsInUse {ids : List Str} (accepts : ledger.Accepts block effects ledger')
    (inUse : IdsInUse ids ledger.utxos) : IdsInUse (ids ++ [block.hash]) ledger'.utxos := by
  obtain ⟨es, hrun, -, hnames⟩ := accepts_effects accepts
  intro outpoint houtpoint
  rcases mem_of_run hrun houtpoint with hbefore | ⟨output, hput⟩
  · rcases inUse outpoint hbefore with hlength | hindex | hid
    · exact .inl hlength
    · exact .inr (.inl hindex)
    · exact .inr (.inr (List.mem_append_left _ hid))
  · rcases hnames _ _ hput with hsmall | hhash
    · exact hsmall.imp_right .inl
    · exact .inr (.inr (by simp [hhash]))

/-- What the transactions of a block burn, read in the domain of the ledger. -/
def burnedBy (ledger : Ledger) (block : Block) : ℕ :=
  match ledger.transactionV2Domain with
  | .error _ => 0
  | .ok domain => block.burned domain

/-- What an accepted block does to the supply. -/
structure Conserves (ledger : Ledger) (block : Block) (ledger' : Ledger) : Prop where
  /-- The total changes by what the block mints less what it burns. -/
  total : ledger'.utxos.total + ledger.burnedBy block = ledger.utxos.total + block.minted
  /-- Every output that the block spends is there, and every one it creates is new. -/
  strict : ∃ es, Run Resource.Step ledger.utxos es ledger'.utxos
    ∧ es.map Effect.action = ledger.blockActions block

/-- **Conservation by one block.** A block whose hash is not the id of an unspent output overwrites
nothing, and changes the total by what it mints and burns. -/
theorem accepts_conserves {ids : List Str} (accepts : ledger.Accepts block effects ledger')
    (inUse : IdsInUse ids ledger.utxos) (fresh : block.hash ∉ ids) :
    ledger.Conserves block ledger' := by
  obtain ⟨nowMs, prechecked⟩ := accepts.prechecked
  obtain ⟨seen, middle, last, domain, staged⟩ := stageBlock_eq_ok.mp accepts.staged
  obtain ⟨es, hrun, hactions, hbalance, hnames⟩ := staged_effects staged
  have hcredited := staged.credited
  simp only [creditRewardOutputs, Outcome.bind_eq_ok, Outcome.pure_eq_ok] at hcredited
  obtain ⟨_, -, hcredited⟩ := hcredited
  have hfinal : ledger'.utxos = insertOutputs last.utxos
      (rewardOutputsForBlock block (ledger.burnCommitteeForBlock block)) := by
    rw [accepts.lineageState, ← hcredited]
  have hlength : block.hash.length = 64 := by
    rw [← prechecked.hash, Block.computeHash_length]
  obtain ⟨hordered, hrange⟩ := burnBundleSection_slots prechecked.burnBundleSection
  have habsent : ∀ entry ∈ rewardOutputsForBlock block (ledger.burnCommitteeForBlock block),
      entry.1 ∉ last.utxos := by
    intro entry hentry hmem
    obtain ⟨htxid, hindex⟩ := rewardOutputs_names _ entry hentry
    have hnotSmall : ¬ SmallName entry.1 := by
      rintro (h | h)
      · rw [htxid, hlength] at h
        omega
      · omega
    rcases mem_of_run (run_write hrun) hmem with hbefore | ⟨output, hput⟩
    · rcases inUse _ hbefore with h | h | h
      · exact hnotSmall (.inl h)
      · exact hnotSmall (.inr h)
      · exact fresh (htxid ▸ h)
    · exact hnotSmall (hnames _ _ hput)
  have hrunAll : Run Resource.Step ledger.utxos
      (es ++ putsOf (rewardOutputsForBlock block (ledger.burnCommitteeForBlock block)))
      ledger'.utxos := by
    rw [hfinal]
    exact hrun.append (run_putsOf (rewardOutputs_nodup _ hordered hrange) habsent)
  refine ⟨?_, _, hrunAll, ?_⟩
  · have htotal := run_total (w := amountWeight) hrunAll
    rw [takeWeight_append, putWeight_append, takeWeight_putsOf, putWeight_putsOf_amount,
      entriesTotal_rewardOutputsForBlock] at htotal
    rw [burnedBy, staged.transactionV2Domain]
    unfold Utxos.total
    dsimp only
    omega
  · rw [List.map_append, hactions, map_action_putsOf, blockActions, staged.transactionV2Domain]

/-! ## Along a run -/

omit [Crypto] in
/-- The signing domain of v2 transactions is fixed by the genesis block and the launch profile. -/
lemma transactionV2Domain_congr (hgenesis : ledger'.genesis = ledger.genesis)
    (hprofile : ledger'.launchProfile = ledger.launchProfile) :
    ledger'.transactionV2Domain = ledger.transactionV2Domain := by
  rw [transactionV2Domain, transactionV2Domain, genesisHash, genesisHash, hgenesis, hprofile]

omit [Crypto] in
/-- The ids that name outputs of the genesis block. -/
def genesisIds (genesis : Block) : List Str :=
  genesis.hash :: genesis.transactions.map Transaction.signature

/-- The outputs that the genesis block leaves have ids of its own, or the position zero. -/
lemma utxosAfterGenesis_idsInUse {genesisAllocations : BTreeMap Str Amount} {genesis : Block}
    {utxos : Utxos} (h : utxosAfterGenesis genesisAllocations genesis = .ok utxos) :
    IdsInUse (genesisIds genesis) utxos := by
  simp only [utxosAfterGenesis, creditRewardOutputs, Outcome.bind_eq_ok, Mutate.outcome_eq_ok,
    Outcome.pure_eq_ok, Prod.exists] at h
  obtain ⟨_, burned, hburned, _, -, rfl⟩ := h
  have hallocated : IdsInUse (genesisIds genesis) (genesisAllocationUtxos genesisAllocations) := by
    intro outpoint houtpoint
    rcases mem_of_run (run_write_putsOf _ _) houtpoint with hempty | ⟨output, hput⟩
    · simp at hempty
    · obtain ⟨entry, hentry, heq⟩ := List.mem_map.mp hput
      obtain ⟨allocation, -, rfl⟩ := List.mem_map.mp hentry
      obtain ⟨rfl, -⟩ : genesisAllocationOutpoint allocation.1 = outpoint ∧ _ := by
        simpa using heq
      exact .inr (.inl (by simp [genesisAllocationOutpoint, maxV2Outputs]))
  have hburns : IdsInUse (genesisIds genesis) burned := by
    refine Mutate.forM_invariant (IdsInUse (genesisIds genesis)) ?_ hallocated hburned
    intro transaction htransaction before after hbefore happlied outpoint houtpoint
    have happly : applyTransaction transaction .legacy before = .ok () after := by
      cases transaction with
      | burn =>
        rw [applyGenesisTransaction, Mutate.liftM_eq_lift, Mutate.lift_bind_eq_ok] at happlied
        exact happlied.choose_spec.2
      | transfer => simp [applyGenesisTransaction] at happlied
      | mine => simp [applyGenesisTransaction] at happlied
    obtain ⟨spent, -, hrun⟩ := applyTransaction_effects happly
    rcases mem_of_run hrun houtpoint with hmem | ⟨output, hput⟩
    · exact hbefore outpoint hmem
    · rcases List.mem_append.mp hput with hput | hput
      · simp [takesOf] at hput
      · obtain ⟨entry, hentry, heq⟩ := List.mem_map.mp hput
        obtain ⟨created, -, rfl⟩ := List.mem_map.mp hentry
        obtain ⟨rfl, -⟩ : ({ txid := transaction.signature, index := created.2 % 2 ^ 32 } :
            OutPoint) = outpoint ∧ _ := by simpa using heq
        exact .inr (.inr (List.mem_cons_of_mem _ (List.mem_map_of_mem htransaction)))
  intro outpoint houtpoint
  rcases mem_of_run (run_write_putsOf _ _) houtpoint with hmem | ⟨output, hput⟩
  · exact hburns outpoint hmem
  · obtain ⟨entry, hentry, heq⟩ := List.mem_map.mp hput
    obtain ⟨rfl, -⟩ : entry.1 = outpoint ∧ _ := by simpa using heq
    exact .inr (.inr ((rewardOutputs_names _ entry hentry).1 ▸ List.mem_cons_self))

/-- The assumption on hashes: accepted blocks have different hashes, and none of them is an id of
the genesis block. -/
structure DistinctHashes (genesis : Block) (blocks : List Block) : Prop where
  nodup : (blocks.map Block.hash).Nodup
  notGenesis : ∀ block ∈ blocks, block.hash ∉ genesisIds genesis

omit [Crypto] in
lemma DistinctHashes.fresh {genesis : Block} {before after : List Block}
    (distinct : DistinctHashes genesis (before ++ block :: after)) :
    block.hash ∉ genesisIds genesis ++ before.map Block.hash := by
  rw [List.mem_append, not_or]
  refine ⟨distinct.notGenesis block (by simp), ?_⟩
  have hnodup := distinct.nodup
  rw [List.map_append, List.map_cons, List.nodup_append] at hnodup
  intro hmem
  exact hnodup.2.2 _ hmem _ List.mem_cons_self rfl

omit [Crypto] in
lemma DistinctHashes.of_append {genesis : Block} {before after : List Block}
    (distinct : DistinctHashes genesis (before ++ after)) : DistinctHashes genesis before where
  nodup := by
    have hnodup := distinct.nodup
    rw [List.map_append, List.nodup_append] at hnodup
    exact hnodup.1
  notGenesis := fun block hblock => distinct.notGenesis block (List.mem_append_left _ hblock)

/-- The genesis block and the domain stay, and the ids in use are those of the genesis block and
of the accepted blocks. -/
lemma run_idsInUse {genesis ledger : Ledger} {events : List Event} (initial : Initial genesis)
    (run : Run Step genesis events ledger) :
    ledger.genesis = genesis.genesis ∧ ledger.launchProfile = genesis.launchProfile
      ∧ IdsInUse (genesisIds genesis.genesis ++ (acceptedBlocks events).map Block.hash)
          ledger.utxos := by
  refine run_track (fun blocks ledger => ledger.genesis = genesis.genesis
    ∧ ledger.launchProfile = genesis.launchProfile
    ∧ IdsInUse (genesisIds genesis.genesis ++ blocks.map Block.hash) ledger.utxos) run ?_ ?_ ?_ ?_
  · obtain ⟨_, _, _, _, _, _, _, _, _, _, hutxos, _, rfl⟩ := initial_eq initial
    refine ⟨rfl, rfl, ?_⟩
    rw [List.map_nil, List.append_nil]
    exact utxosAfterGenesis_idsInUse hutxos
  · rintro blocks ledger block effects ledger' ⟨hgenesis, hprofile, hids⟩ accepts
    refine ⟨accepts.genesis.trans hgenesis, accepts.launchProfile.trans hprofile, ?_⟩
    rw [List.map_append, ← List.append_assoc]
    exact accepts_idsInUse accepts hids
  · rintro blocks ledger pools h
    exact h
  · rintro blocks ledger recentLimit ⟨hgenesis, hprofile, hids⟩
    refine ⟨by simpa using hgenesis, by simpa using hprofile, ?_⟩
    rw [retainRecentChainBlocks_toLineageState]
    exact hids

lemma burnedBy_congr (hgenesis : ledger'.genesis = ledger.genesis)
    (hprofile : ledger'.launchProfile = ledger.launchProfile) :
    ledger'.burnedBy block = ledger.burnedBy block := by
  rw [burnedBy, burnedBy, transactionV2Domain_congr hgenesis hprofile]

/-- **Conservation of the supply.** Along every run from a genesis ledger whose blocks have
distinct hashes, the unspent amounts are the genesis amounts, plus what the mine actions of the
accepted blocks mint, less what their transactions burn; and every accepted block on its own
overwrites no output and changes the total by what it mints and burns. -/
theorem supply_conserved {genesis ledger : Ledger} {events : List Event}
    (initial : Initial genesis) (run : Run Step genesis events ledger)
    (distinct : DistinctHashes genesis.genesis (acceptedBlocks events)) :
    ledger.utxos.total + ((acceptedBlocks events).map genesis.burnedBy).sum
        = genesis.utxos.total + (mineReward + mineFinalizerFee)
            * ((acceptedBlocks events).map mineActionCount).sum
      ∧ ∀ before block after middle next, events = before ++ .accepted block :: after →
          Run Step genesis before middle → Step middle (.accepted block) next →
          middle.Conserves block next := by
  have hblock (before after : List Event) {block : Block} {middle next : Ledger}
      (hevents : DistinctHashes genesis.genesis
        (acceptedBlocks (before ++ .accepted block :: after)))
      (first : Run Step genesis before middle) (step : Step middle (.accepted block) next) :
      middle.Conserves block next := by
    obtain ⟨effects, accepts⟩ := step_accepted step
    obtain ⟨-, -, hids⟩ := run_idsInUse initial first
    rw [acceptedBlocks_append] at hevents
    exact accepts_conserves accepts hids hevents.fresh
  refine ⟨?_, fun before block after middle next hevents first step =>
    hblock before after (hevents ▸ distinct) first step⟩
  have htrack := run.track (fun done ledger =>
    DistinctHashes genesis.genesis (acceptedBlocks done) →
      Run Step genesis done ledger ∧
      ledger.utxos.total + ((acceptedBlocks done).map genesis.burnedBy).sum
        = genesis.utxos.total + (mineReward + mineFinalizerFee)
            * ((acceptedBlocks done).map mineActionCount).sum) ?_ (fun _ => ⟨.nil _, by simp⟩)
  · exact (htrack distinct).2
  intro done ledger event ledger' ih step hdistinct
  rw [acceptedBlocks_append] at hdistinct
  obtain ⟨first, htotal⟩ := ih hdistinct.of_append
  refine ⟨first.snoc step, ?_⟩
  rw [acceptedBlocks_append, acceptedBlocks_singleton]
  cases event with
  | accepted block =>
    have hconserves := (hblock done [] (by rw [acceptedBlocks_append]; exact hdistinct) first
      step).total
    obtain ⟨hgenesis, hprofile, -⟩ := run_idsInUse initial first
    rw [burnedBy_congr hgenesis hprofile, Block.minted] at hconserves
    simp only [Event.acceptedBlock, Option.toList_some, List.map_append, List.map_cons,
      List.map_nil, List.sum_append, List.sum_cons, List.sum_nil, Nat.add_zero, Nat.mul_add]
    rw [Nat.mul_comm (mineActionCount block)] at hconserves
    omega
  | known block =>
    rw [step_known step]
    simpa [Event.acceptedBlock] using htotal
  | poolsChanged pools =>
    cases step
    simpa [Event.acceptedBlock] using htotal
  | historyPruned recentLimit =>
    cases step
    simpa [Event.acceptedBlock] using htotal

end Ledger

end Iuna

namespace Iuna.Toy

attribute [local instance] crypto

set_option maxRecDepth 10000 in
lemma events_distinct :
    Ledger.DistinctHashes genesis.genesis (Ledger.acceptedBlocks events) where
  nodup := by
    simp only [events, Ledger.acceptedBlocks_singleton, Ledger.Event.acceptedBlock,
      Option.toList_some, List.map_cons, List.map_nil, List.nodup_cons, List.not_mem_nil,
      not_false_eq_true, List.nodup_nil, and_self]
  notGenesis := by
    simp only [events, Ledger.acceptedBlocks_singleton, Ledger.Event.acceptedBlock,
      Option.toList_some, List.mem_singleton, forall_eq]
    decide +kernel

/-- The owner burns a coin of the allocation. -/
theorem supply_conserved_events :
    ledger.utxos.total + ((Ledger.acceptedBlocks events).map genesis.burnedBy).sum
        = genesis.utxos.total + (mineReward + mineFinalizerFee)
            * ((Ledger.acceptedBlocks events).map mineActionCount).sum
      ∧ ∀ before block' after middle next, events = before ++ .accepted block' :: after →
          Runs.Run Ledger.Step genesis before middle → Ledger.Step middle (.accepted block') next →
          middle.Conserves block' next :=
  Ledger.supply_conserved genesis_initial events_run events_distinct

end Iuna.Toy
