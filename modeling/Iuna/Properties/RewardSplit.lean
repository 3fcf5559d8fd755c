import Iuna.Properties.Recipients
import Iuna.Properties.Redating

/-!
# The split of a block reward

The outputs of a reward are a full split with the shares of nothing left out
(`rewardOutputsForBlock_eq_filter`).  In the full split every participating member of the committee
has an output of its own, under a name no other output has, so what is paid at a name is one share.
The shares are even because the member whose turn it is takes the rounded-down part of what remains
for those still to be paid (`committeeShares_even`).
-/

namespace Iuna

/-! ## Even shares -/

/-- A pool between `q` and `q + 1` a member is split into shares of `q` and `q + 1`. -/
lemma committeeShares_even {remaining q : ℕ} {members : List BurnCommitteeMember}
    (lower : q * members.length ≤ remaining) (upper : remaining ≤ (q + 1) * members.length) :
    ∀ share ∈ committeeShares remaining members, q ≤ share.2 ∧ share.2 ≤ q + 1 := by
  induction members generalizing remaining with
  | nil => simp [committeeShares]
  | cons member members ih =>
    by_cases hlast : members = []
    · subst hlast
      simp only [List.length_singleton, Nat.mul_one] at lower upper
      simpa [committeeShares] using ⟨lower, upper⟩
    · rw [List.length_cons] at lower upper
      set amount := remaining / (members.length + 1) with hamount
      have hq : q ≤ amount := (Nat.le_div_iff_mul_le (Nat.succ_pos _)).mpr lower
      have hq' : amount ≤ q + 1 :=
        Nat.div_le_of_le_mul ((Nat.mul_comm _ _).trans_ge upper)
      have hle : amount * (members.length + 1) ≤ remaining := Nat.div_mul_le_self _ _
      have hlt : remaining < (amount + 1) * (members.length + 1) := by
        rw [Nat.mul_comm]
        exact Nat.lt_mul_div_succ _ (Nat.succ_pos _)
      have hrest : q * members.length ≤ remaining - amount := by
        have := Nat.mul_le_mul_right members.length hq
        rw [Nat.mul_succ] at hle
        omega
      have hrest' : remaining - amount ≤ (q + 1) * members.length := by
        rcases Nat.lt_or_ge amount (q + 1) with hless | hmore
        · obtain rfl : amount = q := by omega
          rw [Nat.mul_succ] at hlt
          omega
        · rw [Nat.mul_succ] at upper
          omega
      have htail := ih hrest hrest'
      simp only [committeeShares, hlast, if_false, ← hamount, List.forall_mem_cons]
      exact ⟨⟨hq, hq'⟩, htail⟩

/-- Two shares of one pool differ by at most one unit. -/
lemma committeeShares_close {remaining : ℕ} {members : List BurnCommitteeMember}
    {share share' : BurnCommitteeMember × Amount}
    (first : share ∈ committeeShares remaining members)
    (second : share' ∈ committeeShares remaining members) : share.2 ≤ share'.2 + 1 := by
  have hpos : 0 < members.length := by
    cases members with
    | nil => simp [committeeShares] at first
    | cons member members => exact Nat.succ_pos _
  have heven := committeeShares_even (Nat.div_mul_le_self remaining members.length)
    ((Nat.mul_comm _ _).trans_ge (Nat.lt_mul_div_succ remaining hpos).le)
  exact (heven share first).2.trans (Nat.succ_le_succ (heven share' second).1)

lemma committeeShares_zero (members : List BurnCommitteeMember) :
    ∀ share ∈ committeeShares 0 members, share.2 = 0 := by
  induction members with
  | nil => simp [committeeShares]
  | cons member members ih => simpa [committeeShares] using ih

/-! ## The full split -/

/-- What the committee shares: half of the reward, if a member takes part. -/
def committeePool (block : Block) (committee : List BurnCommitteeMember) : Amount :=
  if rewardCommitteeMembers block committee = [] then 0 else block.reward / 2

/-- The outputs of a reward together with those of amount zero. -/
def fullSplit (block : Block) (committee : List BurnCommitteeMember) :
    List (OutPoint × TxOutput) :=
  (rewardOutpoint block.hash,
    { address := block.rewardAddress.getD block.miner
      amount := block.reward - committeePool block committee }) ::
  (committeeShares (committeePool block committee) (rewardCommitteeMembers block committee)).map
    fun share => (committeeRewardOutpoint block.hash share.1.slot,
      { address := committeeRewardAddress block share.1, amount := share.2 })

lemma rewardOutputsForBlock_eq_filter (block : Block) (committee : List BurnCommitteeMember) :
    rewardOutputsForBlock block committee
      = (fullSplit block committee).filter fun entry => entry.2.amount ≠ 0 := by
  unfold rewardOutputsForBlock fullSplit
  by_cases hreward : block.reward = 0
  · have hpool : committeePool block committee = 0 := by
      unfold committeePool
      split
      · rfl
      · rw [hreward]
    rw [if_pos hreward, hpool, hreward, List.filter_cons_of_neg (by simp), List.filter_map]
    symm
    rw [List.map_eq_nil_iff, List.filter_eq_nil_iff]
    intro share hshare
    simp [committeeShares_zero _ share hshare]
  · rw [if_neg hreward]
    change (if 0 < block.reward - committeePool block committee then _ else _)
      ++ ((committeeShares (committeePool block committee) _).filter _).map _ = _
    by_cases hzero : block.reward - committeePool block committee = 0
    · have hnone : ¬ 0 < block.reward - committeePool block committee := hzero ▸ Nat.lt_irrefl 0
      rw [if_neg hnone, List.filter_cons_of_neg (by simpa using hzero), List.filter_map]
      rfl
    · rw [if_pos (Nat.pos_of_ne_zero hzero), List.filter_cons_of_pos (by simpa using hzero), List.filter_map]
      rfl

/-! ## What is paid at a name -/

/-- What the entries with a name add up to. -/
def paidAt (entries : List (OutPoint × TxOutput)) (outpoint : OutPoint) : ℕ :=
  entriesTotal (entries.filter fun entry => entry.1 = outpoint)

lemma paidAt_cons (entry : OutPoint × TxOutput) (entries : List (OutPoint × TxOutput))
    (outpoint : OutPoint) :
    paidAt (entry :: entries) outpoint
      = (if entry.1 = outpoint then entry.2.amount else 0) + paidAt entries outpoint := by
  by_cases hname : entry.1 = outpoint
  · simp [paidAt, hname]
  · simp [paidAt, hname]

/-- Entries of amount zero pay nothing at any name. -/
lemma paidAt_filter_ne_zero (entries : List (OutPoint × TxOutput)) (outpoint : OutPoint) :
    paidAt (entries.filter fun entry => entry.2.amount ≠ 0) outpoint = paidAt entries outpoint := by
  induction entries with
  | nil => rfl
  | cons entry entries ih =>
    by_cases hzero : entry.2.amount = 0
    · rw [List.filter_cons_of_neg (by simpa using hzero), paidAt_cons, ih, hzero]
      simp
    · rw [List.filter_cons_of_pos (by simpa using hzero), paidAt_cons, paidAt_cons, ih]

lemma paidAt_of_not_mem {entries : List (OutPoint × TxOutput)} {outpoint : OutPoint}
    (absent : outpoint ∉ entries.map Prod.fst) : paidAt entries outpoint = 0 := by
  have hnone : (entries.filter fun entry => entry.1 = outpoint) = [] := by
    rw [List.filter_eq_nil_iff]
    intro entry hentry hname
    exact absent (of_decide_eq_true hname ▸ List.mem_map_of_mem hentry)
  rw [paidAt, hnone, entriesTotal_nil]

/-- Under distinct names, what is paid at a name is the amount of its entry. -/
lemma paidAt_of_mem {entries : List (OutPoint × TxOutput)} {entry : OutPoint × TxOutput}
    (distinct : (entries.map Prod.fst).Nodup) (mem : entry ∈ entries) :
    paidAt entries entry.1 = entry.2.amount := by
  induction entries with
  | nil => cases mem
  | cons head tail ih =>
    rw [List.map_cons, List.nodup_cons] at distinct
    rw [paidAt_cons]
    rcases List.mem_cons.mp mem with rfl | htail
    · rw [if_pos rfl, paidAt_of_not_mem distinct.1, Nat.add_zero]
    · have hname : head.1 ≠ entry.1 := fun heq =>
        distinct.1 (heq ▸ List.mem_map_of_mem htail)
      rw [if_neg hname, ih distinct.2 htail, Nat.zero_add]

/-! ## The split of a checked block -/

/-- The slots of the section are in order, and none of them is the finalizer's. -/
structure SlotsInOrder (block : Block) : Prop where
  ordered : (block.burnBundleSection.signatures.map BurnBundleSignature.slot).Pairwise (· < ·)
  range : ∀ slot ∈ block.burnBundleSection.signatures.map BurnBundleSignature.slot,
    0 < slot ∧ slot < burnCommitteeSize

/-- What the reward outputs of a block pay at the name of a member's slot. -/
def paidToMember (block : Block) (committee : List BurnCommitteeMember)
    (member : BurnCommitteeMember) : ℕ :=
  paidAt (rewardOutputsForBlock block committee) (committeeRewardOutpoint block.hash member.slot)

variable {block : Block}

lemma fullSplit_nodup (slots : SlotsInOrder block) (committee : List BurnCommitteeMember) :
    ((fullSplit block committee).map Prod.fst).Nodup := by
  have hsub := rewardCommitteeMembers_slots block committee
  have hnodup := slotOutpoints_nodup block.hash (slots.ordered.sublist hsub)
    fun slot hslot => slots.range slot (hsub.subset hslot)
  have hnames : (fullSplit block committee).map Prod.fst = rewardOutpoint block.hash ::
      ((rewardCommitteeMembers block committee).map BurnCommitteeMember.slot).map
        (committeeRewardOutpoint block.hash) := by
    rw [fullSplit, List.map_cons, List.map_map, List.map_map,
      ← committeeShares_map_fst (committeePool block committee)
        (rewardCommitteeMembers block committee), List.map_map, committeeShares_map_fst]
    rfl
  rw [hnames]
  exact hnodup

/-- A member is paid its share. -/
lemma paidToMember_eq (slots : SlotsInOrder block) {committee : List BurnCommitteeMember}
    {share : BurnCommitteeMember × Amount}
    (mem : share ∈ committeeShares (committeePool block committee)
      (rewardCommitteeMembers block committee)) :
    paidToMember block committee share.1 = share.2 := by
  rw [paidToMember, rewardOutputsForBlock_eq_filter, paidAt_filter_ne_zero]
  exact paidAt_of_mem (fullSplit_nodup slots committee)
    (List.mem_cons_of_mem _ (List.mem_map_of_mem mem))

/-- What the split of a reward among the finalizer and the members of a committee has to be. -/
structure SplitsReward (block : Block) (committee : List BurnCommitteeMember) : Prop where
  /-- The outputs add up to the reward. -/
  total : entriesTotal (rewardOutputsForBlock block committee) = block.reward
  /-- No two outputs have one name. -/
  distinct : ((rewardOutputsForBlock block committee).map Prod.fst).Nodup
  /-- Every output is the finalizer's or that of a participating member. -/
  named : ∀ entry ∈ rewardOutputsForBlock block committee, entry.1 = rewardOutpoint block.hash ∨
    ∃ member ∈ rewardCommitteeMembers block committee,
      entry.1 = committeeRewardOutpoint block.hash member.slot
  /-- Two members are paid the same but for one base unit. -/
  even : ∀ member ∈ rewardCommitteeMembers block committee,
    ∀ member' ∈ rewardCommitteeMembers block committee,
      paidToMember block committee member ≤ paidToMember block committee member' + 1
  /-- Members, where there are any, are paid half of the reward. -/
  half : rewardCommitteeMembers block committee ≠ [] →
    ((rewardCommitteeMembers block committee).map (paidToMember block committee)).sum
      = block.reward / 2
  /-- The finalizer is paid the rest. -/
  rest : paidAt (rewardOutputsForBlock block committee) (rewardOutpoint block.hash)
    = block.reward - if rewardCommitteeMembers block committee = [] then 0 else block.reward / 2

/-- A member that takes part has a share. -/
lemma exists_share {committee : List BurnCommitteeMember} {member : BurnCommitteeMember}
    (mem : member ∈ rewardCommitteeMembers block committee) :
    ∃ amount, (member, amount) ∈ committeeShares (committeePool block committee)
      (rewardCommitteeMembers block committee) := by
  rw [← committeeShares_map_fst (committeePool block committee)
    (rewardCommitteeMembers block committee)] at mem
  obtain ⟨share, hshare, rfl⟩ := List.mem_map.mp mem
  exact ⟨share.2, hshare⟩

/-- A block whose slots are in order splits its reward, whatever the committee. -/
theorem splitsReward (slots : SlotsInOrder block) (committee : List BurnCommitteeMember) :
    SplitsReward block committee where
  total := entriesTotal_rewardOutputsForBlock block committee
  distinct := rewardOutputs_nodup committee slots.ordered slots.range
  named := by
    intro entry hentry
    rw [rewardOutputsForBlock_eq_filter] at hentry
    rcases List.mem_cons.mp (List.mem_filter.mp hentry).1 with rfl | hshare
    · exact .inl rfl
    · obtain ⟨share, hmem, rfl⟩ := List.mem_map.mp hshare
      have hmember : share.1 ∈ rewardCommitteeMembers block committee := by
        rw [← committeeShares_map_fst (committeePool block committee)
          (rewardCommitteeMembers block committee)]
        exact List.mem_map_of_mem hmem
      exact .inr ⟨share.1, hmember, rfl⟩
  even := by
    intro member hmember member' hmember'
    obtain ⟨amount, hshare⟩ := exists_share hmember
    obtain ⟨amount', hshare'⟩ := exists_share hmember'
    rw [paidToMember_eq slots hshare, paidToMember_eq slots hshare']
    exact committeeShares_close hshare hshare'
  half := by
    intro hmembers
    have hpaid : (rewardCommitteeMembers block committee).map (paidToMember block committee)
        = (committeeShares (committeePool block committee)
            (rewardCommitteeMembers block committee)).map Prod.snd := by
      conv_lhs =>
        rw [← committeeShares_map_fst (committeePool block committee)
          (rewardCommitteeMembers block committee), List.map_map]
      exact List.map_congr_left fun share hshare => paidToMember_eq slots hshare
    rw [hpaid, committeeShares_total hmembers, committeePool, if_neg hmembers]
  rest := by
    rw [rewardOutputsForBlock_eq_filter, paidAt_filter_ne_zero]
    exact paidAt_of_mem (fullSplit_nodup slots committee) List.mem_cons_self

/-! ## The reward of an accepted block -/

variable [Crypto]

/-- What the transactions of a block leave to its finalizer, its mine actions apart. -/
def Block.collectedFees (domain : TransactionV2Domain) (block : Block) : ℕ :=
  ((block.transactions.filter fun transaction => ¬ transaction.isMine).map Transaction.fee).sum
    + (block.transactionsV2.map (envelopeFee domain)).sum

/-- The fees of a block are those its transactions leave and one fixed fee a mine action. -/
lemma Block.fees_eq (domain : TransactionV2Domain) (block : Block) :
    block.fees domain = block.collectedFees domain + mineActionCount block * mineFinalizerFee := by
  have hsplit (transactions : List Transaction) : (transactions.map Transaction.fee).sum
      = ((transactions.filter fun transaction => ¬ transaction.isMine).map Transaction.fee).sum
        + transactions.countP Transaction.isMine * mineFinalizerFee := by
    induction transactions with
    | nil => simp
    | cons transaction transactions ih =>
      rw [List.map_cons, List.sum_cons, ih]
      cases transaction with
      | mine =>
        rw [List.countP_cons_of_pos (by rfl), List.filter_cons_of_neg (by simp [Transaction.isMine]),
          Transaction.fee, Nat.succ_mul]
        exact (Nat.add_comm _ _).trans (Nat.add_assoc _ _ _)
      | transfer =>
        rw [List.countP_cons_of_neg (by simp [Transaction.isMine]),
          List.filter_cons_of_pos (by simp [Transaction.isMine]), List.map_cons, List.sum_cons]
        exact (Nat.add_assoc _ _ _).symm
      | burn =>
        rw [List.countP_cons_of_neg (by simp [Transaction.isMine]),
          List.filter_cons_of_pos (by simp [Transaction.isMine]), List.map_cons, List.sum_cons]
        exact (Nat.add_assoc _ _ _).symm
  rw [Block.fees, Block.collectedFees, hsplit, mineActionCount]
  omega

namespace Ledger

variable {ledger ledger' : Ledger}

/-- How the reward of a block is checked and paid. -/
structure PaysReward (ledger : Ledger) (block : Block) (ledger' : Ledger) : Prop where
  /-- The reward is what the transactions leave and the fees of the mine actions. -/
  fees : ∃ domain, ledger.transactionV2Domain = .ok domain ∧
    block.reward = block.collectedFees domain + mineActionCount block * mineFinalizerFee
  /-- It is the reward that the builder gives a block with these transactions. -/
  built : ledger.expectedRewardForNextBlock block.transactions block.transactionsV2
    = .ok block.reward
  /-- What is credited after the transactions is the split of the reward. -/
  credited : ∃ effects seen middle last domain,
    ledger.Staged block effects seen middle last domain ∧
    ledger'.utxos = insertOutputs last.utxos
      (rewardOutputsForBlock block (ledger.burnCommitteeForBlock block))

/-- **The split of a reward.** The reward of an accepted block is its fees, and is split evenly
among the finalizer and the participating members of any committee; the ledger credits the split
for its own committee; and no block with the same transactions is accepted with another reward. -/
theorem reward_split (accepted : Step ledger (.accepted block) ledger') :
    (∀ committee, SplitsReward block committee) ∧ ledger.PaysReward block ledger' ∧
      ∀ other next, Step ledger (.accepted other) next →
        other.transactions = block.transactions → other.transactionsV2 = block.transactionsV2 →
          other.reward = block.reward := by
  obtain ⟨effects, accepts⟩ := step_accepted accepted
  obtain ⟨nowMs, prechecked⟩ := accepts.prechecked
  obtain ⟨hordered, hrange⟩ := burnBundleSection_slots prechecked.burnBundleSection
  obtain ⟨seen, middle, last, domain, staged⟩ := stageBlock_eq_ok.mp accepts.staged
  refine ⟨splitsReward ⟨hordered, hrange⟩, ⟨?_, prechecked.reward, ?_⟩, ?_⟩
  · have hreward := expectedReward_eq staged.transactionV2Domain (envelopes_open staged.envelopes)
      staged.reward
    exact ⟨domain, staged.transactionV2Domain, hreward.trans (Block.fees_eq domain block)⟩
  · have hcredited := staged.credited
    simp only [creditRewardOutputs, Outcome.bind_eq_ok, Outcome.pure_eq_ok] at hcredited
    obtain ⟨_, -, hcredited⟩ := hcredited
    exact ⟨effects, seen, middle, last, domain, staged, by rw [accepts.lineageState, ← hcredited]⟩
  · intro other next step htransactions henvelopes
    obtain ⟨_, accepts'⟩ := step_accepted step
    obtain ⟨_, prechecked'⟩ := accepts'.prechecked
    have hreward := prechecked'.reward
    rw [expectedRewardForBlock, htransactions, henvelopes] at hreward
    exact Except.ok.inj (hreward.symm.trans prechecked.reward)

end Ledger

end Iuna

namespace Iuna.Toy

attribute [local instance] crypto

/-- The reward of a ticket block. -/
theorem reward_split_ticketBlock :
    (∀ committee, SplitsReward ticketBlock committee) ∧
      genesis.PaysReward ticketBlock ticketLedger ∧
      ∀ other next, Ledger.Step genesis (.accepted other) next →
        other.transactions = ticketBlock.transactions →
          other.transactionsV2 = ticketBlock.transactionsV2 → other.reward = ticketBlock.reward :=
  Ledger.reward_split ticketBlock_step

end Iuna.Toy
